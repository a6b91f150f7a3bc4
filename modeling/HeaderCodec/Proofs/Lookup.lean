import HeaderCodec.Proofs.Dictionary

/-! The entries are what the fields announce, each at its first occurrence. Nothing is entered
twice, so every entry has one place, and a look-up tells the places of the name and of the pair. -/

namespace HeaderCodec

namespace Dictionary

/-- What registering a list of fields announces, repetitions included: each name in lower case
alone, and with its value if there is one. -/
def announced (fields : List Field) : List Field :=
  (fields.filter (·.name ≠ [])).flatMap fun field =>
    let name := field.name.lower
    if field.value = [] then [.nameOnly name] else [.nameOnly name, ⟨name, field.value⟩]

theorem announced_cons (field : Field) (rest : List Field) :
    announced (field :: rest) = announced [field] ++ announced rest := by
  rw [announced, ← List.singleton_append, List.filter_append, List.flatMap_append]
  rfl

theorem foldl_enter_announced (entries : List Field) (field : Field) :
    (announced [field]).foldl enter entries = register entries field := by
  by_cases empty : field.name = []
  · simp [announced, register, empty]
  · rw [register_of_ne_nil empty]
    by_cases alone : field.value = []
    · -- The name alone is entered twice here, and the second time it is known.
      have same : (⟨field.name.lower, field.value⟩ : Field) = .nameOnly field.name.lower := by
        rw [alone, Field.nameOnly]
      rw [same, enter_of_mem (mem_enter entries _)]
      simp [announced, empty, alone]
    · simp [announced, empty, alone]

theorem foldl_register_eq (entries fields : List Field) :
    fields.foldl register entries = (announced fields).foldl enter entries := by
  induction fields generalizing entries with
  | nil => rfl
  | cons field rest ih =>
    rw [List.foldl_cons, ih, announced_cons, List.foldl_append, foldl_enter_announced]

theorem foldl_enter_nil (fields : List Field) : fields.foldl enter [] = fields.eraseDups := by
  induction fields using List.reverseRecOn with
  | nil => rfl
  | append_singleton earlier last ih =>
    rw [List.foldl_append, ih, List.eraseDups_append]
    by_cases known : last ∈ earlier
    · have nothing : [last].removeAll earlier = [] := by simp [List.removeAll, known]
      rw [nothing, List.eraseDups_nil, List.append_nil]
      exact enter_of_mem (List.mem_eraseDups.mpr known)
    · have all : [last].removeAll earlier = [last] := by simp [List.removeAll, known]
      rw [all]
      exact enter_of_not_mem (mt List.mem_eraseDups.mp known)

theorem entries_ofFields (fields : List Field) :
    (ofFields fields).entries = (announced fields).eraseDups := by
  rw [ofFields, foldl_register_eq, foldl_enter_nil]

variable {dictionary : Dictionary} {entry : Field} {name value : Bytes} {index : Nat}

theorem idxOf?_of_get? (registered : Registered dictionary.entries)
    (known : dictionary.get? index = some entry) :
    dictionary.entries.idxOf? entry = some index := by
  obtain ⟨inside, here⟩ := List.getElem?_eq_some_iff.mp known
  rw [List.idxOf?, List.findIdx?_eq_some_iff_getElem]
  refine ⟨inside, beq_iff_eq.mpr here, ?_⟩
  intro earlier before same
  have : earlier < dictionary.entries.length := by omega
  have place : earlier = index := by
    apply registered.nodup.getElem_inj_iff.mp
    rw [here, beq_iff_eq.mp same]
  omega

theorem idxOf?_eq_some_iff (registered : Registered dictionary.entries) :
    dictionary.entries.idxOf? entry = some index ↔ dictionary.get? index = some entry :=
  ⟨get?_of_idxOf?, idxOf?_of_get? registered⟩

theorem nameIndex?_index_eq_some_iff :
    (dictionary.index name value).nameIndex? = some index ↔
      name ≠ [] ∧ dictionary.entries.idxOf? (.nameOnly name.lower) = some index := by
  unfold Dictionary.index
  split
  next empty => simp [Lookup.nameIndex?, List.isEmpty_iff.mp empty]
  next named =>
    rw [List.isEmpty_iff] at named
    split
    next absent => simp [Lookup.nameIndex?, absent]
    next known =>
      split
      · simp [Lookup.nameIndex?, known, named]
      split <;> simp [Lookup.nameIndex?, known, named]

theorem pairIndex?_index_eq_some_iff :
    (dictionary.index name value).pairIndex? = some index ↔
      (name ≠ [] ∧ ∃ nameIndex,
        dictionary.entries.idxOf? (.nameOnly name.lower) = some nameIndex) ∧
      value ≠ [] ∧ dictionary.entries.idxOf? ⟨name.lower, value⟩ = some index := by
  unfold Dictionary.index
  split
  next empty => simp [Lookup.pairIndex?, List.isEmpty_iff.mp empty]
  next named =>
    rw [List.isEmpty_iff] at named
    split
    next absent => simp [Lookup.pairIndex?, absent]
    next known =>
      split
      next empty => simp [Lookup.pairIndex?, List.isEmpty_iff.mp empty]
      next filled =>
        rw [List.isEmpty_iff] at filled
        split
        next absent => simp [Lookup.pairIndex?, absent]
        next pair => simp [Lookup.pairIndex?, known, named, filled, pair]

theorem index_of_get?_nameOnly (registered : Registered dictionary.entries)
    (known : dictionary.get? index = some entry) (alone : entry.value = []) (value : Bytes) :
    dictionary.index entry.name value = .name index ∨
      ∃ pairIndex, dictionary.index entry.name value = .pair index pairIndex := by
  have listed : entry ∈ dictionary.entries := List.mem_of_getElem? known
  obtain ⟨named, lower⟩ := registered.name_normal listed
  have same : Field.nameOnly entry.name = entry := by
    rw [Field.nameOnly, ← alone]
  have found := idxOf?_of_get? registered known
  unfold Dictionary.index
  simp only [List.isEmpty_iff, named, lower, same, found, if_false]
  split
  · exact .inl rfl
  split
  · exact .inl rfl
  next pairIndex _ => exact .inr ⟨pairIndex, rfl⟩

theorem index_of_get?_pair (registered : Registered dictionary.entries)
    (known : dictionary.get? index = some entry) (pair : entry.value ≠ []) :
    ∃ nameIndex, dictionary.index entry.name entry.value = .pair nameIndex index := by
  have listed : entry ∈ dictionary.entries := List.mem_of_getElem? known
  obtain ⟨named, lower⟩ := registered.name_normal listed
  obtain ⟨nameIndex, introduced⟩ := List.mem_iff_getElem?.mp (registered.nameOnly_mem listed)
  have name := idxOf?_of_get? registered introduced
  have found := idxOf?_of_get? registered known
  refine ⟨nameIndex, ?_⟩
  unfold Dictionary.index
  simp only [List.isEmpty_iff, named, pair, lower, name, found, if_false]

theorem index_eq_miss_iff (registered : Registered dictionary.entries) :
    dictionary.index name value = .miss ↔
      name = [] ∨ ∀ entry ∈ dictionary.entries, entry.name ≠ name.lower := by
  constructor
  · intro missed
    rw [or_iff_not_imp_left]
    intro named entry listed same
    refine registers_of_index_miss registered named missed ?_
    exact List.any_eq_true.mpr ⟨entry, listed, beq_iff_eq.mpr same⟩
  · intro unknown
    cases found : dictionary.index name value with
    | miss => rfl
    | name nameIndex | pair nameIndex _ =>
      have place : (dictionary.index name value).nameIndex? = some nameIndex := by
        rw [found]
        rfl
      obtain ⟨named, known⟩ := nameIndex?_index_eq_some_iff.mp place
      have listed := List.mem_of_getElem? (get?_of_idxOf? known)
      exact absurd rfl (unknown.resolve_left named _ listed)

theorem nameIndex?_index_iff (registered : Registered dictionary.entries) :
    (dictionary.index name value).nameIndex? = some index ↔
      name ≠ [] ∧ dictionary.get? index = some (.nameOnly name.lower) := by
  rw [nameIndex?_index_eq_some_iff, idxOf?_eq_some_iff registered]

theorem pairIndex?_index_iff (registered : Registered dictionary.entries) :
    (dictionary.index name value).pairIndex? = some index ↔
      value ≠ [] ∧ dictionary.get? index = some ⟨name.lower, value⟩ := by
  rw [pairIndex?_index_eq_some_iff, idxOf?_eq_some_iff registered, and_iff_right_iff_imp]
  rintro ⟨-, known⟩
  have listed := List.mem_of_getElem? known
  have named := (registered.name_normal listed).1
  obtain ⟨nameIndex, introduced⟩ := List.mem_iff_getElem?.mp (registered.nameOnly_mem listed)
  exact ⟨mt Bytes.lower_eq_nil_iff.mpr named, nameIndex, idxOf?_of_get? registered introduced⟩

theorem lt_of_index_pair (registered : Registered dictionary.entries) {nameIndex pairIndex : Nat}
    (found : dictionary.index name value = .pair nameIndex pairIndex) : nameIndex < pairIndex := by
  have alone : (dictionary.index name value).nameIndex? = some nameIndex := by
    rw [found]
    rfl
  obtain ⟨-, name_known⟩ := (nameIndex?_index_iff registered).mp alone
  obtain ⟨filled, known⟩ := get?_of_index_pair found
  obtain ⟨inside, here⟩ := List.getElem?_eq_some_iff.mp known
  have split : dictionary.entries = dictionary.entries.take pairIndex ++
      ⟨name.lower, value⟩ :: dictionary.entries.drop (pairIndex + 1) := by
    rw [← here, List.cons_getElem_drop_succ, List.take_append_drop]
  obtain ⟨place, before⟩ := List.mem_iff_getElem?.mp (registered.nameOnly_mem_before split filled)
  rw [List.getElem?_take] at before
  split at before
  next earlier =>
    have there := idxOf?_of_get? registered before
    rw [idxOf?_of_get? registered name_known, Option.some.injEq] at there
    rwa [there]
  · cases before

end Dictionary

end HeaderCodec
