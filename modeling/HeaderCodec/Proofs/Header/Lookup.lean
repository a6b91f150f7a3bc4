import HeaderCodec.Proofs.Header.RoundTrip

/-! A name in any case leads to an attribute or to an extension, and never to both. What a header
gives back for a name is the field that travels under it. -/

namespace HeaderCodec

namespace Header

variable {header : Header} {key : Attribute} {name value : Bytes}

theorem get?_of_attribute (named : name.lower = key.name) :
    header.get? name = header.valueOf? key := by
  rw [get?, Attribute.ofName?_eq_some_iff.mpr named]

theorem get?_of_free (free : ∀ key : Attribute, name.lower ≠ key.name) :
    header.get? name = header.extension? name.lower := by
  rw [get?, Attribute.ofName?_eq_none_iff.mpr free]

theorem attribute_or_free (name : Bytes) :
    (∃ key : Attribute, name.lower = key.name) ∨ ∀ key : Attribute, name.lower ≠ key.name := by
  rw [← not_exists]
  exact em _

theorem Lawful.name_free (lawful : header.Lawful) {field : Field}
    (listed : field ∈ header.extensions) (key : Attribute) : field.name ≠ key.name :=
  Attribute.ofName?_eq_none_iff.mp (lawful.extensions field listed).free key

theorem name_of_find? {fields : List Field} {field : Field}
    (found : fields.find? (fun field => field.name == name) = some field) : field.name = name := by
  have same := List.find?_some found
  exact beq_iff_eq.mp same

theorem extension?_eq_some_iff (lawful : header.Lawful) :
    header.extension? name = some value ↔ ⟨name, value⟩ ∈ header.extensions := by
  unfold extension?
  rw [Option.map_eq_some_iff]
  constructor
  · rintro ⟨field, found, rfl⟩
    rw [← name_of_find? found]
    exact List.mem_of_find?_eq_some found
  · intro listed
    cases found : header.extensions.find? fun field => field.name == name with
    | none =>
      have differs := List.find?_eq_none.mp found _ listed
      exact absurd (beq_self_eq_true name) differs
    | some field =>
      have same := List.inj_on_of_nodup_map lawful.distinct (List.mem_of_find?_eq_some found)
        listed (name_of_find? found)
      exact ⟨field, rfl, congrArg Field.value same⟩

theorem get?_eq_some_iff (lawful : header.Lawful) :
    header.get? name = some value ↔ ⟨name.lower, value⟩ ∈ header.fields := by
  rw [mem_fields]
  rcases attribute_or_free name with ⟨key, named⟩ | free
  · rw [get?_of_attribute named]
    constructor
    · intro shown
      exact .inl ⟨key, value, shown, by rw [named]⟩
    · rintro (⟨other, shown, found, same⟩ | listed)
      · obtain ⟨otherNamed, rfl⟩ := Field.mk.inj same
        rw [named] at otherNamed
        rwa [Attribute.name_injective otherNamed]
      · exact absurd named (lawful.name_free listed key)
  · rw [get?_of_free free, extension?_eq_some_iff lawful]
    constructor
    · exact .inr
    · rintro (⟨key, shown, found, same⟩ | listed)
      · exact absurd (congrArg Field.name same) (free key)
      · exact listed

end Header

end HeaderCodec
