import HeaderCodec.Machine.Indexes
import HeaderCodec.Proofs.Lookup

/-! The indexes know of every entry where it stands, and of nothing else. So a look-up in them finds
what looking through the entries finds, and the entries determine them. -/

namespace HeaderCodec.Machine.IndexedDictionary

open Dictionary (Registered enter)

variable {dictionary other : IndexedDictionary} {name value : Bytes}

section

variable {entries : List Field} {entry last : Field}

theorem idxOf?_concat_of_ne (differs : entry ≠ last) :
    (entries ++ [last]).idxOf? entry = entries.idxOf? entry := by
  have elsewhere : (last == entry) = false := beq_eq_false_iff_ne.mpr differs.symm
  simp [List.idxOf?, List.findIdx?_append, elsewhere]

theorem idxOf?_concat_of_name_ne (differs : entry.name ≠ last.name) :
    (entries ++ [last]).idxOf? entry = entries.idxOf? entry :=
  idxOf?_concat_of_ne (mt (congrArg Field.name) differs)

theorem idxOf?_concat_of_value_ne (differs : entry.value ≠ last.value) :
    (entries ++ [last]).idxOf? entry = entries.idxOf? entry :=
  idxOf?_concat_of_ne (mt (congrArg Field.value) differs)

theorem idxOf?_concat_of_not_mem (fresh : last ∉ entries) :
    (entries ++ [last]).idxOf? last = some entries.length := by
  have absent := List.idxOf?_eq_none_iff.mpr fresh
  rw [List.idxOf?] at absent ⊢
  simp [List.findIdx?_append, absent]

end

/-- The indexes say of each name where it stands alone, and of each value of a known name where
the pair stands. -/
structure InStep (dictionary : IndexedDictionary) : Prop where
  registered : Registered dictionary.entries
  alone : ∀ name,
    dictionary.names[name]?.map NamePlaces.alone = dictionary.entries.idxOf? (.nameOnly name)
  pairs : ∀ name places, dictionary.names[name]? = some places → ∀ value,
    places.pairs[value]? = if value = [] then none else dictionary.entries.idxOf? ⟨name, value⟩

theorem inStep_empty : InStep empty where
  registered := .nil
  alone name := by simp [empty]
  pairs name places known := by simp [empty] at known

theorem InStep.ext (inStep : dictionary.InStep) (inStep' : other.InStep)
    (same : dictionary.entries = other.entries) : dictionary = other := by
  have names : dictionary.names = other.names := by
    apply Std.ExtHashMap.ext_getElem?
    intro name
    have alone := inStep.alone name
    have alone' := inStep'.alone name
    rw [← same, ← alone] at alone'
    cases known : dictionary.names[name]? with
    | none =>
      rw [known, Option.map_none, Option.map_eq_none_iff] at alone'
      rw [alone']
    | some places =>
      rw [known, Option.map_some, Option.map_eq_some_iff] at alone'
      obtain ⟨places', known', place⟩ := alone'
      have pairs : places.pairs = places'.pairs := by
        apply Std.ExtHashMap.ext_getElem?
        intro value
        rw [inStep.pairs name places known, inStep'.pairs name places' known', same]
      rw [known', Option.some.injEq]
      exact congrArg₂ NamePlaces.mk place.symm pairs
  exact congrArg₂ IndexedDictionary.mk same names

theorem InStep.contains_iff (inStep : dictionary.InStep) :
    dictionary.names.contains name = true ↔ .nameOnly name ∈ dictionary.entries := by
  rw [← not_iff_not, ← List.idxOf?_eq_none_iff, ← inStep.alone name, Option.map_eq_none_iff]
  simp

theorem not_mem_of_nameOnly_not_mem {entries : List Field} (registered : Registered entries)
    (absent : .nameOnly name ∉ entries) (value : Bytes) : ⟨name, value⟩ ∉ entries :=
  fun listed => absent (registered.nameOnly_mem listed)

theorem entries_enterName (inStep : dictionary.InStep) :
    (dictionary.enterName name).entries = enter dictionary.entries (.nameOnly name) := by
  unfold enterName
  split
  next known => rw [Dictionary.enter_of_mem (inStep.contains_iff.mp known)]
  next unknown => rw [Dictionary.enter_of_not_mem (mt inStep.contains_iff.mpr unknown)]

theorem InStep.enterName (inStep : dictionary.InStep) (named : name ≠ [])
    (lower : name.lower = name) : (dictionary.enterName name).InStep := by
  unfold IndexedDictionary.enterName
  split
  next => exact inStep
  next unknown =>
  have fresh : .nameOnly name ∉ dictionary.entries := mt inStep.contains_iff.mpr unknown
  constructor
  · exact inStep.registered.snoc fresh named lower fun pair => absurd rfl pair
  · intro key
    dsimp only
    rw [Std.ExtHashMap.getElem?_insert]
    by_cases same : name = key
    · rw [if_pos (beq_iff_eq.mpr same), ← same, idxOf?_concat_of_not_mem fresh]
      rfl
    · rw [if_neg (mt beq_iff_eq.mp same), idxOf?_concat_of_name_ne (Ne.symm same)]
      exact inStep.alone key
  · intro key places known value
    dsimp only at known ⊢
    rw [Std.ExtHashMap.getElem?_insert] at known
    split at known
    next same =>
      -- The name is new, so no value of it has been entered either.
      cases known
      have absent := not_mem_of_nameOnly_not_mem inStep.registered fresh value
      rw [← beq_iff_eq.mp same, Std.ExtHashMap.getElem?_empty]
      split
      · rfl
      next filled =>
        rw [idxOf?_concat_of_value_ne filled, List.idxOf?_eq_none_iff.mpr absent]
    next other =>
      rw [idxOf?_concat_of_name_ne (Ne.symm (mt beq_iff_eq.mpr other))]
      exact inStep.pairs key places known value

theorem InStep.known (inStep : dictionary.InStep)
    (listed : .nameOnly name ∈ dictionary.entries) :
    ∃ places, dictionary.names[name]? = some places := by
  rw [← Option.isSome_iff_exists, Std.ExtHashMap.isSome_getElem?_eq_contains]
  exact inStep.contains_iff.mpr listed

theorem InStep.pairs_contains_iff (inStep : dictionary.InStep) {places : NamePlaces}
    (known : dictionary.names[name]? = some places) (filled : value ≠ []) :
    places.pairs.contains value = true ↔ ⟨name, value⟩ ∈ dictionary.entries := by
  have place := inStep.pairs name places known value
  rw [if_neg filled] at place
  rw [← not_iff_not, ← List.idxOf?_eq_none_iff, ← place]
  simp

theorem entries_enterValue (inStep : dictionary.InStep) (filled : value ≠ [])
    (listed : .nameOnly name ∈ dictionary.entries) :
    (dictionary.enterValue name value).entries = enter dictionary.entries ⟨name, value⟩ := by
  obtain ⟨places, known⟩ := inStep.known listed
  have entered := inStep.pairs_contains_iff known filled
  unfold enterValue
  rw [known]
  dsimp only
  split
  next repeated => rw [Dictionary.enter_of_mem (entered.mp repeated)]
  next fresh => rw [Dictionary.enter_of_not_mem (mt entered.mpr fresh)]

theorem InStep.enterValue (inStep : dictionary.InStep) (filled : value ≠ [])
    (listed : .nameOnly name ∈ dictionary.entries) :
    (dictionary.enterValue name value).InStep := by
  obtain ⟨places, known⟩ := inStep.known listed
  have entered := inStep.pairs_contains_iff known filled
  unfold IndexedDictionary.enterValue
  rw [known]
  dsimp only
  split
  next => exact inStep
  next unknown =>
  have fresh : ⟨name, value⟩ ∉ dictionary.entries := mt entered.mpr unknown
  obtain ⟨named, lower⟩ := inStep.registered.name_normal listed
  constructor
  · exact inStep.registered.snoc fresh named lower fun _ => listed
  · intro key
    dsimp only
    rw [idxOf?_concat_of_value_ne (Ne.symm filled), ← inStep.alone key,
      Std.ExtHashMap.getElem?_insert]
    split
    next same => rw [← beq_iff_eq.mp same, known, Option.map_some, Option.map_some]
    next => rfl
  · intro key places' known' content
    dsimp only at known' ⊢
    rw [Std.ExtHashMap.getElem?_insert] at known'
    split at known'
    next same =>
      cases known'
      dsimp only
      rw [← beq_iff_eq.mp same, Std.ExtHashMap.getElem?_insert]
      by_cases equal : value = content
      · rw [if_pos (beq_iff_eq.mpr equal), ← equal, if_neg filled, idxOf?_concat_of_not_mem fresh]
      · rw [if_neg (mt beq_iff_eq.mp equal), idxOf?_concat_of_value_ne (Ne.symm equal)]
        exact inStep.pairs name places known content
    next other =>
      rw [idxOf?_concat_of_name_ne (Ne.symm (mt beq_iff_eq.mpr other))]
      exact inStep.pairs key places' known' content

/-- Registering a field keeps the indexes in step, and enters what it enters without them. -/
theorem InStep.register (inStep : dictionary.InStep) (field : Field) :
    (dictionary.register field).InStep ∧
      (dictionary.register field).entries = Dictionary.register dictionary.entries field := by
  unfold IndexedDictionary.register
  by_cases empty : field.name = []
  · rw [if_pos (List.isEmpty_iff.mpr empty), Dictionary.register,
      if_pos (List.isEmpty_iff.mpr empty)]
    exact ⟨inStep, rfl⟩
  rw [if_neg (mt List.isEmpty_iff.mp empty), Dictionary.register_of_ne_nil empty]
  have named : field.name.lower ≠ [] := mt Bytes.lower_eq_nil_iff.mp empty
  have entered := inStep.enterName named field.name.lower_lower
  have entries : (dictionary.enterName field.name.lower).entries =
      enter dictionary.entries (.nameOnly field.name.lower) := entries_enterName inStep
  have listed : .nameOnly field.name.lower ∈
      (dictionary.enterName field.name.lower).entries := by
    rw [entries]
    exact Dictionary.mem_enter _ _
  dsimp only
  split
  next alone =>
    have same : (⟨field.name.lower, field.value⟩ : Field) = .nameOnly field.name.lower := by
      rw [List.isEmpty_iff.mp alone, Field.nameOnly]
    rw [same, ← entries, Dictionary.enter_of_mem listed]
    exact ⟨entered, rfl⟩
  next filled =>
    have filled : field.value ≠ [] := mt List.isEmpty_iff.mpr filled
    rw [← entries]
    exact ⟨entered.enterValue filled listed, entries_enterValue entered filled listed⟩

theorem InStep.foldl_register (inStep : dictionary.InStep) (fields : List Field) :
    (fields.foldl IndexedDictionary.register dictionary).InStep ∧
      (fields.foldl IndexedDictionary.register dictionary).entries =
        fields.foldl Dictionary.register dictionary.entries := by
  induction fields generalizing dictionary with
  | nil => exact ⟨inStep, rfl⟩
  | cons field rest ih =>
    obtain ⟨entered, entries⟩ := inStep.register field
    rw [List.foldl_cons, List.foldl_cons, ← entries]
    exact ih entered

theorem inStep_load (dictionary : IndexedDictionary) (fields : List Field) :
    (dictionary.load fields).InStep := by
  rw [load, reset_eq]
  exact (inStep_empty.foldl_register fields).1

theorem plain_load (dictionary : IndexedDictionary) (fields : List Field) :
    (dictionary.load fields).plain = dictionary.plain.load fields := by
  rw [plain, load, reset_eq, (inStep_empty.foldl_register fields).2]
  rfl

theorem InStep.index_eq (inStep : dictionary.InStep) (name value : Bytes) :
    dictionary.index name value = dictionary.plain.index name value := by
  have alone := inStep.alone name.lower
  unfold IndexedDictionary.index Dictionary.index plain
  dsimp only
  rw [← alone]
  split
  · rfl
  cases known : dictionary.names[name.lower]? with
  | none => rfl
  | some places =>
    rw [Option.map_some]
    dsimp only
    split
    · rfl
    next filled =>
      have pair := inStep.pairs name.lower places known value
      rw [if_neg (mt List.isEmpty_iff.mpr filled)] at pair
      cases place : dictionary.entries.idxOf? ⟨name.lower, value⟩ <;> simp only [pair, place]

/-- Loading enters what the fields announce, each at its first occurrence. A name is missed exactly
if it is empty or no entry has it in lower case; otherwise it is found where it stands alone, and
with a value where the pair stands. All of this is as in the dictionary without indexes. -/
theorem lookups_of_load (before : IndexedDictionary) (fields : List Field) :
    let after := before.load fields
    after.entries = (Dictionary.announced fields).eraseDups ∧ after.entries.Nodup ∧
    (∀ name value, after.index name value = .miss ↔
      name = [] ∨ ∀ entry ∈ after.entries, entry.name ≠ name.lower) ∧
    (∀ name value place, (after.index name value).nameIndex? = some place ↔
      name ≠ [] ∧ after.get? place = some (.nameOnly name.lower)) ∧
    (∀ name value place, (after.index name value).pairIndex? = some place ↔
      value ≠ [] ∧ after.get? place = some ⟨name.lower, value⟩) ∧
    (∀ name value nameIndex pairIndex,
      after.index name value = .pair nameIndex pairIndex → nameIndex < pairIndex) ∧
    after.load after.entries = after ∧
    after.plain = before.plain.load fields ∧
    ∀ name value, after.index name value = after.plain.index name value := by
  intro after
  have inStep : after.InStep := inStep_load before fields
  have registered : Registered after.plain.entries := inStep.registered
  have plain : after.plain = before.plain.load fields := plain_load before fields
  have entries : after.entries = (Dictionary.announced fields).eraseDups := by
    rw [← Dictionary.entries_ofFields]
    exact congrArg Dictionary.entries plain
  have reloaded : after.load after.entries = after := by
    refine (inStep_load after after.entries).ext inStep ?_
    have own := Dictionary.ofFields_entries registered
    rw [← Dictionary.load_eq after.plain, ← plain_load after] at own
    exact congrArg Dictionary.entries own
  refine ⟨entries, registered.nodup, ?_, ?_, ?_, ?_, reloaded, plain, inStep.index_eq⟩
  · intro name value
    rw [inStep.index_eq]
    exact Dictionary.index_eq_miss_iff registered
  · intro name value place
    rw [inStep.index_eq]
    exact Dictionary.nameIndex?_index_iff registered
  · intro name value place
    rw [inStep.index_eq]
    exact Dictionary.pairIndex?_index_iff registered
  · intro name value nameIndex pairIndex found
    rw [inStep.index_eq] at found
    exact Dictionary.lt_of_index_pair registered found

theorem lookups_of_load_repeated :
    let after := empty.load [⟨[88], [49]⟩, .nameOnly [120], .nameOnly [], ⟨[120], [49]⟩]
    after.entries = [.nameOnly [120], ⟨[120], [49]⟩] ∧
      after.index [88] [49] = .pair 0 1 ∧ 0 < 1 := by
  intro after
  obtain ⟨entries, -, -, -, -, ordered, -, plain, lookups⟩ :=
    lookups_of_load empty [⟨[88], [49]⟩, .nameOnly [120], .nameOnly [], ⟨[120], [49]⟩]
  have found : after.index [88] [49] = .pair 0 1 := by
    rw [lookups, plain]
    decide
  refine ⟨?_, found, ordered _ _ _ _ found⟩
  rw [entries]
  decide

end HeaderCodec.Machine.IndexedDictionary
