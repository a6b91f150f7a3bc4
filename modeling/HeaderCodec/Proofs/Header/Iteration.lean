import HeaderCodec.Header.Iteration
import HeaderCodec.Proofs.Header.Lookup

/-! The cursor gives out the fields that travel, each once: first the attributes that are set, in
their order, and then the extensions. What is found by name is what the cursor gives out. -/

namespace HeaderCodec

namespace FieldCursor

/-- The cursor gives out these fields one after the other, and then no more. -/
inductive Yields : FieldCursor → List Field → Prop
  | done {cursor after : FieldCursor} (ended : cursor.next = (none, after)) : Yields cursor []
  | field {cursor after : FieldCursor} {field : Field} {rest : List Field}
    (found : cursor.next = (some field, after)) (others : Yields after rest) :
    Yields cursor (field :: rest)

theorem Yields.unique {cursor : FieldCursor} {fields fields' : List Field}
    (yields : cursor.Yields fields) (yields' : cursor.Yields fields') : fields = fields' := by
  induction yields generalizing fields' with
  | done ended =>
    cases yields' with
    | done => rfl
    | field found => simp [ended] at found
  | field found _ ih =>
    cases yields' with
    | done ended => simp [ended] at found
    | field found' others =>
      rw [found] at found'
      cases found'
      rw [ih others]

theorem Yields.of_next_eq {cursor other : FieldCursor} {fields : List Field}
    (yields : other.Yields fields) (same : cursor.next = other.next) : cursor.Yields fields := by
  cases yields with
  | done ended => exact .done (same.trans ended)
  | field found others => exact .field (same.trans found) others

/-- What stands at all positions, gaps included. -/
def slots (header : Header) : List (Option Field) :=
  (Attribute.all.map fun key => (header.valueOf? key).map fun value => ⟨key.name, value⟩) ++
    header.extensions.map some

theorem reduceOption_slots (header : Header) : (slots header).reduceOption = header.fields := by
  simp [slots, Header.fields, List.reduceOption, List.filterMap_map]

theorem visit_eq (cursor : FieldCursor) :
    cursor.visit = (slots cursor.header)[cursor.position]? := by
  obtain ⟨header, position⟩ := cursor
  match position with
  | 0 => simp [visit, slots, Attribute.all, Header.valueOf?, Function.comp_def]
  | 1 =>
    simp only [visit, slots, Attribute.all, Header.valueOf?]
    cases header.forwarded <;> rfl
  | 2 | 3 | 4 | 5 => rfl
  | position + 6 => simp [visit, slots, Attribute.all]

section

variable {cursor : FieldCursor}

theorem next_of_end (ended : cursor.visit = none) : cursor.next = (none, cursor.advance) := by
  rw [next]
  grind

theorem next_of_field {field : Field} (here : cursor.visit = some (some field)) :
    cursor.next = (some field, cursor.advance) := by
  rw [next]
  grind

theorem next_of_gap (gap : cursor.visit = some none) : cursor.next = cursor.advance.next := by
  rw [next]
  grind

end

theorem yields_slots (cursor : FieldCursor) :
    cursor.Yields ((slots cursor.header).drop cursor.position).reduceOption := by
  induction left : (slots cursor.header).length - cursor.position
    using Nat.strongRecOn generalizing cursor with
  | ind left ih =>
  have here := visit_eq cursor
  cases visited : cursor.visit with
  | none =>
    rw [visited, eq_comm, List.getElem?_eq_none_iff] at here
    rw [List.drop_eq_nil_of_le here]
    exact .done (next_of_end visited)
  | some slot =>
    rw [visited, eq_comm, List.getElem?_eq_some_iff] at here
    obtain ⟨inside, stands⟩ := here
    have later := ih _ (by simp only [advance]; omega) cursor.advance rfl
    rw [List.drop_eq_getElem_cons inside, stands]
    cases slot with
    | none =>
      rw [List.reduceOption_cons_of_none]
      exact later.of_next_eq (next_of_gap visited)
    | some field =>
      rw [List.reduceOption_cons_of_some]
      exact .field (next_of_field visited) later

theorem yields_start_iff {header : Header} {fields : List Field} :
    (start header).Yields fields ↔ fields = header.fields := by
  have yields := yields_slots (start header)
  simp only [start, List.drop_zero, reduceOption_slots] at yields
  constructor
  · intro other
    exact other.unique yields
  · rintro rfl
    exact yields

end FieldCursor

namespace Header

variable {header : Header}

theorem names_attributeFields (header : Header) (keys : List Attribute) :
    ((header.attributeFields keys).map Field.name).Sublist (keys.map Attribute.name) := by
  induction keys with
  | nil => exact .slnil
  | cons key rest ih =>
    cases shown : header.valueOf? key with
    | none =>
      rw [attributeFields_of_none shown]
      exact ih.cons key.name
    | some value =>
      rw [attributeFields_of_some shown]
      exact ih.cons_cons key.name

theorem contentLength_mem_attributeFields :
    Attribute.contentLength.name ∈ (header.attributeFields Attribute.all).map Field.name := by
  have listed : ⟨Attribute.contentLength.name, Varint.encode header.contentLength.toNat⟩ ∈
      header.attributeFields Attribute.all :=
    List.mem_filterMap.mpr ⟨.contentLength, Attribute.mem_all _, rfl⟩
  exact List.mem_map.mpr ⟨_, listed, rfl⟩

theorem Lawful.nodup_names (lawful : header.Lawful) : (header.fields.map Field.name).Nodup := by
  have distinct : (Attribute.all.map Attribute.name).Nodup :=
    List.Nodup.map Attribute.name_injective (by decide)
  have attributes := names_attributeFields header Attribute.all
  rw [fields_eq, List.map_append, List.nodup_append]
  refine ⟨distinct.sublist attributes, lawful.distinct, ?_⟩
  intro name listed other extension
  obtain ⟨key, -, rfl⟩ := List.mem_map.mp (attributes.subset listed)
  obtain ⟨field, kept, rfl⟩ := List.mem_map.mp extension
  exact (lawful.name_free kept key).symm

/-- Going through a header gives out its fields, each under a name of its own in lower case: the
attributes that are set in their order, among them always a content length, and then the
extensions. A name in any case leads to a value exactly if the field of that name is given out with
it. -/
theorem iteration_matches_lookup (made : header.Reachable) :
    (∀ fields, (FieldCursor.start header).Yields fields ↔ fields = header.fields) ∧
    (header.fields.map Field.name).Nodup ∧
    (∀ field ∈ header.fields, field.name ≠ [] ∧ field.value ≠ [] ∧
      ∀ byte ∈ field.name, ¬(65 ≤ byte ∧ byte ≤ 90)) ∧
    (∃ attributes, header.fields = attributes ++ header.extensions ∧
      (attributes.map Field.name).Sublist
        ([.agent, .forwarded, .authorization, .contentLength, .contentType,
          .contentEncoding].map Attribute.name) ∧
      Attribute.contentLength.name ∈ attributes.map Field.name ∧
      ∀ field ∈ header.extensions, ∀ key : Attribute, field.name ≠ key.name) ∧
    ∀ name value, header.get? name = some value ↔ ⟨name.lower, value⟩ ∈ header.fields := by
  have lawful := made.lawful
  refine ⟨fun fields => FieldCursor.yields_start_iff, lawful.nodup_names, ?_, ?_, ?_⟩
  · intro field listed
    obtain ⟨named, valued⟩ := complete_of_mem_fields lawful listed
    exact ⟨named, valued, Bytes.lower_eq_self_iff.mp (lower_of_mem_fields lawful listed)⟩
  · exact ⟨header.attributeFields Attribute.all, fields_eq header, names_attributeFields _ _,
      contentLength_mem_attributeFields, fun field kept => lawful.name_free kept⟩
  · intro name value
    exact get?_eq_some_iff lawful

theorem iteration_matches_lookup_sample :
    sample.Reachable ∧
      (FieldCursor.start sample).Yields
        [⟨Attribute.agent.name, [97, 59, 98]⟩, ⟨Attribute.contentLength.name, [0]⟩,
          ⟨[120, 45], [49]⟩] ∧
      sample.get? [88, 45] = some [49] ∧ sample.get? Attribute.forwarded.name = none := by
  obtain ⟨yields, -, -, -, found⟩ := iteration_matches_lookup reachable_sample
  have fields : sample.fields =
      [⟨Attribute.agent.name, [97, 59, 98]⟩, ⟨Attribute.contentLength.name, [0]⟩,
        ⟨[120, 45], [49]⟩] := by
    cbv
  refine ⟨reachable_sample, (yields _).mpr fields.symm, (found _ _).mpr ?_, ?_⟩
  · rw [fields]
    decide
  · have absent : Attribute.forwarded.name.lower ∉ sample.fields.map Field.name := by
      rw [fields]
      decide
    rw [Option.eq_none_iff_forall_ne_some]
    intro value shown
    exact absent (List.mem_map.mpr ⟨_, (found _ _).mp shown, rfl⟩)

end Header

end HeaderCodec
