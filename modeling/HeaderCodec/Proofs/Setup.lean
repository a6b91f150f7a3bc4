import HeaderCodec.Codec.Setup
import HeaderCodec.Proofs.Lookup
import HeaderCodec.Proofs.Outcome

/-! Registrations are normal when the dictionary gets them, and each name stands in front of its
pairs. So the entries are the fields of the registrations at their first occurrences. -/

namespace HeaderCodec

namespace Dictionary

variable {entries : List Field} {key : Bytes}

theorem register_nameOnly (named : key ≠ []) (lower : key.lower = key) (entries : List Field) :
    register entries (.nameOnly key) = enter entries (.nameOnly key) := by
  have once : register entries (.nameOnly key) =
      enter (enter entries (.nameOnly key.lower)) (.nameOnly key.lower) :=
    register_of_ne_nil named entries
  rw [once, lower, enter_of_mem (mem_enter _ _)]

theorem foldl_register_pairs (named : key ≠ []) (lower : key.lower = key)
    (known : .nameOnly key ∈ entries) (values : List Bytes) :
    (values.map fun value => ⟨key, value⟩).foldl register entries =
      (values.map fun value => ⟨key, value⟩).foldl enter entries := by
  induction values generalizing entries with
  | nil => rfl
  | cons value rest ih =>
    have entered : register entries ⟨key, value⟩ = enter entries ⟨key, value⟩ := by
      rw [register_of_ne_nil named, lower, enter_of_mem known]
    rw [List.map_cons, List.foldl_cons, List.foldl_cons, entered]
    exact ih ((prefix_enter entries _).subset known)

theorem eraseDups_append_of_subset {front again : List Field} (known : again ⊆ front)
    (back : List Field) : (front ++ (again ++ back)).eraseDups = (front ++ back).eraseDups := by
  have nothing : again.removeAll front = [] := by
    rw [List.removeAll, List.filter_eq_nil_iff]
    intro field listed
    simpa using known listed
  have others : (again ++ back).removeAll front = back.removeAll front := by
    rw [List.removeAll, List.filter_append, ← List.removeAll, nothing, List.nil_append]
    rfl
  rw [List.eraseDups_append, List.eraseDups_append, others]

end Dictionary

namespace Registration

theorem isBlank_iff {registration : Registration} :
    registration.isBlank = true ↔ Text.trim registration.name = "" := by
  rw [isBlank, List.isEmpty_iff, key, Bytes.lower_eq_nil_iff, Bytes.ofText_eq_nil_iff]

theorem foldl_register_fields {registration : Registration}
    (filled : ¬registration.isBlank = true) (entries : List Field) :
    registration.fields.foldl Dictionary.register entries =
      registration.fields.foldl Dictionary.enter entries := by
  have named : registration.key ≠ [] := mt List.isEmpty_iff.mpr filled
  have lower : registration.key.lower = registration.key := by
    rw [key, Bytes.lower_lower]
  rw [fields, List.foldl_cons, List.foldl_cons, Dictionary.register_nameOnly named lower]
  exact Dictionary.foldl_register_pairs named lower (Dictionary.mem_enter _ _) _

theorem entries_ofFields {registrations : List Registration}
    (filled : ∀ registration ∈ registrations, ¬registration.isBlank = true) :
    (Dictionary.ofFields (registrations.flatMap fields)).entries =
      (registrations.flatMap fields).eraseDups := by
  rw [Dictionary.ofFields, ← Dictionary.foldl_enter_nil]
  dsimp only
  generalize ([] : List Field) = entries
  induction registrations generalizing entries with
  | nil => rfl
  | cons registration rest ih =>
    obtain ⟨first, others⟩ := List.forall_mem_cons.mp filled
    rw [List.flatMap_cons, List.foldl_append, List.foldl_append, foldl_register_fields first]
    exact ih others _

theorem any_isBlank_iff {registrations : List Registration} :
    registrations.any isBlank = true ↔ .nameOnly [] ∈ registrations.flatMap fields := by
  rw [List.any_eq_true, List.mem_flatMap]
  refine exists_congr fun registration => and_congr_right fun _ => ?_
  rw [isBlank, List.isEmpty_iff]
  constructor
  · intro blank
    rw [fields, blank]
    exact List.mem_cons_self
  · intro listed
    rcases List.mem_cons.mp listed with alone | pair
    · exact (congrArg Field.name alone).symm
    · obtain ⟨value, -, same⟩ := List.mem_map.mp pair
      exact congrArg Field.name same

end Registration

theorem Codec.checkContent_eq (dictionary : Dictionary) :
    checkContent dictionary =
      if Limits.maxDictionaryContentSize < (dictionary.entries.map Field.size).sum then
        .error (.dictionaryTooLarge Limits.maxDictionaryContentSize
          (dictionary.entries.map Field.size).sum)
      else .ok () := by
  unfold checkContent
  rw [Dictionary.contentSize_eq_sum]
  dsimp only
  split
  next fits => rw [if_neg (Nat.not_lt.mpr fits)]
  next large => rw [if_pos (Nat.lt_of_not_le large)]

namespace Setup

theorem build_eq {setup : Setup} {entries : List Field}
    (occurring : (setup.registrations.flatMap Registration.fields).eraseDups = entries) :
    setup.build =
      if ¬(Limits.minMaxFrameSize ≤ setup.maxFrameSize ∧
          setup.maxFrameSize ≤ Limits.maxMaxFrameSize) then
        .error (.invalidMaxFrameSize setup.maxFrameSize)
      else if .nameOnly [] ∈ entries then .error .emptyFieldName
      else if Limits.maxDictionaryContentSize < (entries.map Field.size).sum then
        .error (.dictionaryTooLarge Limits.maxDictionaryContentSize
          (entries.map Field.size).sum)
      else .ok ⟨setup.maxFrameSize, ⟨entries⟩, setup.coder⟩ := by
  have blank : setup.registrations.any Registration.isBlank = true ↔ .nameOnly [] ∈ entries := by
    rw [Registration.any_isBlank_iff, ← occurring, List.mem_eraseDups]
  unfold build dictionary
  by_cases size : Limits.minMaxFrameSize ≤ setup.maxFrameSize ∧
      setup.maxFrameSize ≤ Limits.maxMaxFrameSize
  case neg => rw [Codec.checkMaxFrameSize, if_neg size, if_pos size, Outcome.error_bind]
  rw [Codec.checkMaxFrameSize, if_pos size, if_neg (not_not.mpr size), Outcome.ok_bind]
  by_cases spoiled : setup.registrations.any Registration.isBlank = true
  case pos => rw [if_pos spoiled, if_pos (blank.mp spoiled), Outcome.error_bind]
  have filled : ∀ registration ∈ setup.registrations, ¬registration.isBlank = true :=
    fun registration listed blank => spoiled (List.any_eq_true.mpr ⟨registration, listed, blank⟩)
  have registered : Dictionary.ofFields (setup.registrations.flatMap Registration.fields) =
      ⟨entries⟩ := by
    rw [← occurring, ← Registration.entries_ofFields filled]
  rw [if_neg spoiled, if_neg (mt blank.mpr spoiled), registered]
  dsimp only
  rw [Codec.checkContent_eq]
  dsimp only
  split <;> rfl

structure SameSettings (first second : Setup) : Prop where
  maxFrameSize_eq : first.maxFrameSize = second.maxFrameSize
  coder_eq : first.coder = second.coder

theorem SameSettings.build_congr {first second : Setup} (settings : SameSettings first second)
    (occurring : (first.registrations.flatMap Registration.fields).eraseDups =
      (second.registrations.flatMap Registration.fields).eraseDups) :
    first.build = second.build := by
  rw [build_eq occurring, build_eq rfl, settings.maxFrameSize_eq, settings.coder_eq]

end Setup

end HeaderCodec
