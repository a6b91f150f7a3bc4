import HeaderCodec.Dictionary
import HeaderCodec.Proofs.Bytes

/-! Registering keeps an entry list without repetition, under lower-case names, and with every name
alone before its first pair. -/

namespace HeaderCodec

namespace Dictionary

/-- The entry lists that registering builds. Each entry is new and has a lower-case name, and a
pair comes after its name alone. -/
inductive Registered : List Field → Prop
  | nil : Registered []
  | snoc {entries : List Field} {entry : Field} (before : Registered entries)
    (fresh : entry ∉ entries) (named : entry.name ≠ []) (lower : entry.name.lower = entry.name)
    (introduced : entry.value ≠ [] → .nameOnly entry.name ∈ entries) :
    Registered (entries ++ [entry])

theorem enter_of_mem {entries : List Field} {entry : Field} (known : entry ∈ entries) :
    enter entries entry = entries := by
  rw [enter, if_pos (List.contains_iff_mem.mpr known)]

theorem enter_of_not_mem {entries : List Field} {entry : Field} (fresh : entry ∉ entries) :
    enter entries entry = entries ++ [entry] := by
  rw [enter, if_neg (mt List.contains_iff_mem.mp fresh)]

theorem mem_enter (entries : List Field) (entry : Field) : entry ∈ enter entries entry := by
  by_cases known : entry ∈ entries
  · rwa [enter_of_mem known]
  · simp [enter_of_not_mem known]

theorem prefix_enter (entries : List Field) (entry : Field) : entries <+: enter entries entry := by
  by_cases known : entry ∈ entries
  · rw [enter_of_mem known]
  · rw [enter_of_not_mem known]
    exact List.prefix_append _ _

theorem register_of_ne_nil {field : Field} (named : field.name ≠ []) (entries : List Field) :
    register entries field =
      enter (enter entries (.nameOnly field.name.lower)) ⟨field.name.lower, field.value⟩ := by
  rw [register, if_neg (mt List.isEmpty_iff.mp named)]

theorem contentSize_eq_sum (dictionary : Dictionary) :
    dictionary.contentSize = (dictionary.entries.map Field.size).sum := by
  rw [contentSize, List.sum_eq_foldl, List.foldl_map]

namespace Registered

variable {entries : List Field} {entry field : Field}

theorem enter (registered : Registered entries) (named : entry.name ≠ [])
    (lower : entry.name.lower = entry.name)
    (introduced : entry.value ≠ [] → .nameOnly entry.name ∈ entries) :
    Registered (enter entries entry) := by
  by_cases known : entry ∈ entries
  · rwa [enter_of_mem known]
  · rw [enter_of_not_mem known]
    exact registered.snoc known named lower introduced

theorem register (registered : Registered entries) (field : Field) :
    Registered (register entries field) := by
  by_cases empty : field.name = []
  · rwa [Dictionary.register, if_pos (List.isEmpty_iff.mpr empty)]
  · have named : field.name.lower ≠ [] := mt Bytes.lower_eq_nil_iff.mp empty
    have first : Registered (Dictionary.enter entries (.nameOnly field.name.lower)) :=
      registered.enter named field.name.lower_lower fun pair => absurd rfl pair
    rw [register_of_ne_nil empty]
    exact first.enter named field.name.lower_lower fun _ => mem_enter entries _

theorem foldl_register (registered : Registered entries) (fields : List Field) :
    Registered (fields.foldl Dictionary.register entries) := by
  induction fields generalizing entries with
  | nil => exact registered
  | cons field rest ih => exact ih (registered.register field)

theorem name_normal (registered : Registered entries) (listed : entry ∈ entries) :
    entry.name ≠ [] ∧ entry.name.lower = entry.name := by
  induction registered with
  | nil => cases listed
  | snoc before fresh named lower introduced ih =>
    rcases List.mem_append.mp listed with earlier | last
    · exact ih earlier
    · rw [List.mem_singleton.mp last]
      exact ⟨named, lower⟩

theorem nameOnly_mem (registered : Registered entries) (listed : entry ∈ entries) :
    .nameOnly entry.name ∈ entries := by
  induction registered with
  | nil => cases listed
  | @snoc entries last before fresh named lower introduced ih =>
    rcases List.mem_append.mp listed with earlier | new
    · exact List.mem_append_left _ (ih earlier)
    · rw [List.mem_singleton.mp new]
      by_cases alone : last.value = []
      · have same : Field.nameOnly last.name = last := by
          rw [Field.nameOnly, ← alone]
        rw [same]
        simp
      · exact List.mem_append_left _ (introduced alone)

theorem nameOnly_mem_before (registered : Registered entries) {before after : List Field}
    (listed : entries = before ++ entry :: after) (pair : entry.value ≠ []) :
    .nameOnly entry.name ∈ before := by
  induction registered generalizing after with
  | nil => simp at listed
  | @snoc earlier last registered fresh named lower introduced ih =>
    rcases after.eq_nil_or_concat with rfl | ⟨others, other, rfl⟩
    · obtain ⟨rfl, same⟩ := List.append_inj' listed rfl
      cases same
      exact introduced pair
    · rw [List.concat_eq_append, ← List.cons_append, ← List.append_assoc] at listed
      exact ih (List.append_inj' listed rfl).1

theorem foldl_register_nil (registered : Registered entries) :
    entries.foldl Dictionary.register [] = entries := by
  induction registered with
  | nil => rfl
  | @snoc entries entry before fresh named lower introduced ih =>
    rw [List.foldl_append, ih, List.foldl_cons, List.foldl_nil, register_of_ne_nil named, lower]
    by_cases alone : entry.value = []
    · have same : Field.nameOnly entry.name = entry := by
        rw [Field.nameOnly, ← alone]
      rw [same, enter_of_not_mem fresh, enter_of_mem (by simp)]
    · rw [enter_of_mem (introduced alone), enter_of_not_mem fresh]

theorem nodup (registered : Registered entries) : entries.Nodup := by
  induction registered with
  | nil => exact List.nodup_nil
  | snoc before fresh named lower introduced ih => exact List.nodup_append_comm.mp (ih.cons fresh)

theorem length_le_contentSize {dictionary : Dictionary}
    (registered : Registered dictionary.entries) :
    dictionary.entries.length ≤ dictionary.contentSize := by
  rw [contentSize_eq_sum, ← List.length_map Field.size]
  apply List.length_le_sum_of_one_le
  intro size listed
  obtain ⟨entry, entered, rfl⟩ := List.mem_map.mp listed
  have named := (registered.name_normal entered).1
  exact Nat.le_add_right_of_le (List.length_pos_iff.mpr named)

end Registered

theorem registered_ofFields (fields : List Field) : Registered (ofFields fields).entries :=
  Registered.nil.foldl_register fields

theorem ofFields_entries {dictionary : Dictionary} (registered : Registered dictionary.entries) :
    ofFields dictionary.entries = dictionary := by
  rw [ofFields, registered.foldl_register_nil]

def registers (dictionary : Dictionary) (name : Bytes) : Bool :=
  dictionary.entries.any fun entry => entry.name == name.lower

/-- The field that travels in place of a given one. The lower-case form stands for every spelling
of a name that the dictionary has; any other name is left alone. -/
def canonical (dictionary : Dictionary) (field : Field) : Field :=
  if dictionary.registers field.name then ⟨field.name.lower, field.value⟩ else field

section

variable {dictionary : Dictionary} {name value : Bytes} {nameIndex pairIndex : Nat}

theorem index_lower : dictionary.index name.lower value = dictionary.index name value := by
  have empty : name.lower.isEmpty = name.isEmpty := List.isEmpty_map
  rw [index, index, empty, Bytes.lower_lower]

theorem get?_of_idxOf? {entry : Field} {index : Nat}
    (found : dictionary.entries.idxOf? entry = some index) :
    dictionary.get? index = some entry := by
  rw [List.idxOf?, List.findIdx?_eq_some_iff_getElem] at found
  obtain ⟨inside, same, -⟩ := found
  rw [get?, List.getElem?_eq_getElem inside, beq_iff_eq.mp same]

theorem get?_of_index_name (found : dictionary.index name value = .name nameIndex) :
    dictionary.get? nameIndex = some (.nameOnly name.lower) := by
  unfold index at found
  split at found
  · cases found
  split at found
  · cases found
  next known =>
  split at found
  · cases found
    exact get?_of_idxOf? known
  split at found
  · cases found
    exact get?_of_idxOf? known
  · cases found

theorem get?_of_index_pair (found : dictionary.index name value = .pair nameIndex pairIndex) :
    value ≠ [] ∧ dictionary.get? pairIndex = some ⟨name.lower, value⟩ := by
  unfold index at found
  split at found
  · cases found
  split at found
  · cases found
  split at found
  · cases found
  next filled =>
  split at found
  · cases found
  next known =>
  cases found
  exact ⟨fun empty => filled (List.isEmpty_iff.mpr empty), get?_of_idxOf? known⟩

theorem registers_of_get? {entry : Field} {index : Nat}
    (found : dictionary.get? index = some entry) (named : entry.name = name.lower) :
    dictionary.registers name = true := by
  have listed : entry ∈ dictionary.entries := List.mem_of_getElem? found
  exact List.any_eq_true.mpr ⟨entry, listed, beq_iff_eq.mpr named⟩

theorem registers_of_index_miss (registered : Registered dictionary.entries) (named : name ≠ [])
    (missed : dictionary.index name value = .miss) : ¬dictionary.registers name = true := by
  unfold index at missed
  split at missed
  next empty => exact absurd (List.isEmpty_iff.mp empty) named
  split at missed
  next absent =>
    rw [List.idxOf?, List.findIdx?_eq_none_iff] at absent
    intro known
    obtain ⟨entry, listed, same⟩ := List.any_eq_true.mp known
    have introduced := registered.nameOnly_mem listed
    rw [beq_iff_eq.mp same] at introduced
    have differs := absent _ introduced
    simp at differs
  split at missed
  · cases missed
  split at missed
  · cases missed
  · cases missed

end

end Dictionary

end HeaderCodec
