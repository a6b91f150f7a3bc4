import HeaderCodec.Proofs.Header.Reachable
import HeaderCodec.Proofs.RoundTrip

/-! The fields of a header are complete and in lower case, so a frame gives them back as they were.
Set on an empty header, they restore each attribute and append each extension. -/

namespace HeaderCodec

namespace Attribute

theorem mem_all (key : Attribute) : key ∈ all := by
  cases key <;> decide

theorem name_ne_nil (key : Attribute) : key.name ≠ [] := by
  cases key <;> decide

theorem lower_name (key : Attribute) : key.name.lower = key.name := by
  cases key <;> decide

theorem ofName?_name (key : Attribute) : ofName? key.name = some key := by
  cases key <;> decide

theorem ofName?_eq_some_iff {name : Bytes} {key : Attribute} :
    ofName? name = some key ↔ name = key.name := by
  constructor
  · intro found
    unfold ofName? at found
    have same := List.find?_some found
    exact (beq_iff_eq.mp same).symm
  · rintro rfl
    exact ofName?_name key

theorem ofName?_eq_none_iff {name : Bytes} :
    ofName? name = none ↔ ∀ key : Attribute, name ≠ key.name := by
  simp only [Option.eq_none_iff_forall_ne_some, ne_eq, ofName?_eq_some_iff]

theorem name_injective : Function.Injective name := by
  intro key other same
  have found := ofName?_name other
  rw [← same, ofName?_name] at found
  exact Option.some.inj found

end Attribute

theorem present?_eq_some_iff {value shown : Bytes} :
    present? value = some shown ↔ value ≠ [] ∧ value = shown := by
  unfold present?
  split
  next empty => simp [List.isEmpty_iff.mp empty]
  next filled => simp [mt List.isEmpty_iff.mpr filled]

theorem present?_eq_none_iff {value : Bytes} : present? value = none ↔ value = [] := by
  unfold present?
  split
  next empty => simp [List.isEmpty_iff.mp empty]
  next filled => simp [mt List.isEmpty_iff.mpr filled]

namespace Header

variable {source target : Header} {key : Attribute} {name value : Bytes}

theorem valueOf?_ne_nil (shown : source.valueOf? key = some value) : value ≠ [] := by
  cases key with
  | agent =>
    obtain ⟨agent, -, rfl⟩ := Option.map_eq_some_iff.mp shown
    exact agent.value_ne_nil
  | forwarded =>
    simp only [valueOf?] at shown
    split at shown
    · cases shown
    next hops =>
      cases shown
      exact Forwarded.value_ne_nil (mt List.isEmpty_iff.mpr hops)
  | contentLength =>
    cases shown
    exact List.ne_nil_of_length_pos (Varint.groups_encode _).length_pos
  | authorization | contentType | contentEncoding =>
    obtain ⟨filled, rfl⟩ := present?_eq_some_iff.mp shown
    exact filled

def attributeFields (header : Header) (keys : List Attribute) : List Field :=
  keys.filterMap fun key => (header.valueOf? key).map fun value => ⟨key.name, value⟩

theorem attributeFields_of_none {keys : List Attribute} (hidden : source.valueOf? key = none) :
    source.attributeFields (key :: keys) = source.attributeFields keys :=
  List.filterMap_cons_none (by rw [hidden]; rfl)

theorem attributeFields_of_some {keys : List Attribute} (shown : source.valueOf? key = some value) :
    source.attributeFields (key :: keys) = ⟨key.name, value⟩ :: source.attributeFields keys :=
  List.filterMap_cons_some (by rw [shown]; rfl)

theorem fields_eq (header : Header) :
    header.fields = header.attributeFields Attribute.all ++ header.extensions := rfl

theorem mem_fields {field : Field} : field ∈ source.fields ↔
    (∃ key value, source.valueOf? key = some value ∧ field = ⟨key.name, value⟩) ∨
      field ∈ source.extensions := by
  unfold fields
  rw [List.mem_append, List.mem_filterMap]
  apply or_congr_left
  constructor
  · rintro ⟨key, -, found⟩
    obtain ⟨value, shown, rfl⟩ := Option.map_eq_some_iff.mp found
    exact ⟨key, value, shown, rfl⟩
  · rintro ⟨key, value, shown, rfl⟩
    exact ⟨key, key.mem_all, Option.map_eq_some_iff.mpr ⟨value, shown, rfl⟩⟩

theorem complete_of_mem_fields (lawful : source.Lawful) {field : Field}
    (listed : field ∈ source.fields) : field.Complete := by
  rcases mem_fields.mp listed with ⟨key, value, shown, rfl⟩ | extension
  · exact ⟨key.name_ne_nil, valueOf?_ne_nil shown⟩
  · have kept := lawful.extensions field extension
    exact ⟨kept.named, kept.valued⟩

theorem lower_of_mem_fields (lawful : source.Lawful) {field : Field}
    (listed : field ∈ source.fields) : field.name.lower = field.name := by
  rcases mem_fields.mp listed with ⟨key, value, -, rfl⟩ | extension
  · exact key.lower_name
  · exact (lawful.extensions field extension).lower

theorem map_canonical_fields (lawful : source.Lawful) (dictionary : Dictionary) :
    source.fields.map dictionary.canonical = source.fields := by
  have same : ∀ field ∈ source.fields, dictionary.canonical field = field := by
    intro field listed
    unfold Dictionary.canonical
    rw [lower_of_mem_fields lawful listed]
    split <;> rfl
  rw [List.map_congr_left same, List.map_id']

/-- Takes one attribute over. -/
def carry (source target : Header) : Attribute → Header
  | .agent => { target with agent := source.agent }
  | .forwarded => { target with forwarded := source.forwarded }
  | .authorization => { target with authorization := source.authorization }
  | .contentLength => { target with contentLength := source.contentLength }
  | .contentType => { target with contentType := source.contentType }
  | .contentEncoding => { target with contentEncoding := source.contentEncoding }

theorem parseContentLength_encode (length : UInt64) :
    parseContentLength (Varint.encode length.toNat) = .ok length := by
  have spelled := (Varint.spells_encode length.toNat_lt).decode_append []
  rw [List.append_nil] at spelled
  simp [parseContentLength, spelled]

theorem setAttribute_of_valueOf? (lawful : source.Lawful)
    (shown : source.valueOf? key = some value) :
    target.setAttribute value key = (.ok (), source.carry target key) := by
  cases key with
  | agent =>
    obtain ⟨agent, present, rfl⟩ := Option.map_eq_some_iff.mp shown
    unfold agent? at present
    split at present
    · cases present
    · cases present
      simp only [setAttribute, Agent.parse_value lawful.agent, assign, carry]
  | forwarded =>
    simp only [valueOf?] at shown
    split at shown
    · cases shown
    next hops =>
      cases shown
      simp only [setAttribute, Forwarded.parse_value lawful.forwarded
        (mt List.isEmpty_iff.mpr hops), assign, carry]
  | contentLength =>
    cases shown
    simp only [setAttribute, parseContentLength_encode, assign, carry]
  | authorization | contentType | contentEncoding =>
    obtain ⟨-, rfl⟩ := present?_eq_some_iff.mp shown
    rfl

theorem carry_of_valueOf?_eq_none (hidden : source.valueOf? key = none) :
    source.carry target key = target.clearAttribute key := by
  cases key with
  | agent =>
    have empty : source.agent.isEmpty = true := by
      simpa [valueOf?, agent?] using hidden
    rw [carry, Agent.isEmpty_iff.mp empty, clearAttribute]
  | forwarded =>
    have none : source.forwarded = [] := by
      simpa [valueOf?] using hidden
    rw [carry, none, clearAttribute]
  | contentLength => cases hidden
  | authorization | contentType | contentEncoding =>
    simp only [carry, present?_eq_none_iff.mp hidden, clearAttribute]

theorem named_of_attribute (named : name.lower = key.name) : name ≠ [] := by
  rintro rfl
  exact key.name_ne_nil named.symm

theorem set_of_attribute (filled : value ≠ []) (named : name.lower = key.name) :
    target.set name value = target.setAttribute value key := by
  rw [set, if_neg (mt List.isEmpty_iff.mp (named_of_attribute named)),
    if_neg (mt List.isEmpty_iff.mp filled), Attribute.ofName?_eq_some_iff.mpr named]

theorem clearAttribute_carry {other : Attribute} (different : key ≠ other)
    (cleared : target.clearAttribute other = target) :
    (source.carry target key).clearAttribute other = source.carry target key := by
  have apart : (source.carry target key).clearAttribute other =
      source.carry (target.clearAttribute other) key := by
    cases key <;> cases other <;> first | rfl | exact absurd rfl different
  rw [apart, cleared]

theorem setAll_attributes (lawful : source.Lawful) {keys : List Attribute} (distinct : keys.Nodup)
    (cleared : ∀ key ∈ keys, target.clearAttribute key = target) (rest : List Field) :
    target.setAll (source.attributeFields keys ++ rest) =
      (keys.foldl source.carry target).setAll rest := by
  induction keys generalizing target with
  | nil => rfl
  | cons key keys ih =>
    obtain ⟨fresh, others⟩ := List.nodup_cons.mp distinct
    obtain ⟨first, later⟩ := List.forall_mem_cons.mp cleared
    have carried : ∀ other ∈ keys,
        (source.carry target key).clearAttribute other = source.carry target key := by
      intro other listed
      have different : key ≠ other := fun same => fresh (same ▸ listed)
      exact clearAttribute_carry different (later other listed)
    rw [List.foldl_cons]
    cases shown : source.valueOf? key with
    | none =>
      have unset : source.carry target key = target := by
        rw [carry_of_valueOf?_eq_none shown, first]
      rw [attributeFields_of_none shown, unset]
      exact ih others later
    | some value =>
      rw [attributeFields_of_some shown, List.cons_append, setAll]
      simp only [set_of_attribute (valueOf?_ne_nil shown) key.lower_name,
        setAttribute_of_valueOf? lawful shown]
      exact ih others carried

theorem set_of_free (given : name ≠ []) (filled : value ≠ [])
    (free : ∀ key : Attribute, name.lower ≠ key.name) :
    target.set name value =
      (.ok (), { target with extensions := putExtension name.lower value target.extensions }) := by
  rw [set, if_neg (mt List.isEmpty_iff.mp given), if_neg (mt List.isEmpty_iff.mp filled),
    Attribute.ofName?_eq_none_iff.mpr free]

theorem set_extension {field : Field} (extension : field.IsExtension)
    (fresh : field.name ∉ target.extensions.map Field.name) :
    target.set field.name field.value =
      (.ok (), { target with extensions := target.extensions ++ [field] }) := by
  have free := Attribute.ofName?_eq_none_iff.mp extension.free
  rw [← extension.lower] at free
  rw [set_of_free extension.named extension.valued free, extension.lower,
    putExtension_of_fresh field.value fresh]

theorem setAll_extensions {fields : List Field} (kept : ∀ field ∈ fields, field.IsExtension)
    (distinct : ((target.extensions ++ fields).map Field.name).Nodup) :
    target.setAll fields =
      (.ok (), { target with extensions := target.extensions ++ fields }) := by
  induction fields generalizing target with
  | nil => simp [setAll]
  | cons field rest ih =>
    obtain ⟨first, others⟩ := List.forall_mem_cons.mp kept
    have fresh : field.name ∉ target.extensions.map Field.name := by
      intro listed
      rw [List.map_append, List.map_cons] at distinct
      exact (List.nodup_append.mp distinct).2.2 _ listed _ List.mem_cons_self rfl
    have shifted : (((target.extensions ++ [field]) ++ rest).map Field.name).Nodup := by
      rwa [List.append_assoc, List.singleton_append]
    rw [setAll]
    simp only [set_extension first fresh]
    rw [ih others shifted, List.append_assoc, List.singleton_append]

theorem setAll_fields (lawful : source.Lawful) : empty.setAll source.fields = (.ok (), source) := by
  have distinct : Attribute.all.Nodup := by decide
  have cleared : ∀ key ∈ Attribute.all, empty.clearAttribute key = empty := by
    intro key _
    cases key <;> rfl
  have carried : Attribute.all.foldl source.carry empty = { source with extensions := [] } := rfl
  rw [fields_eq, setAll_attributes lawful distinct cleared, carried,
    setAll_extensions lawful.extensions (by simpa using lawful.distinct)]
  rfl

theorem parse_of_flush (lawful : source.Lawful) {codec : Codec} (sound : codec.Sound)
    {frame : Bytes} (flushed : source.flush codec = .ok frame) (target : Header) :
    target.parse codec frame = (.ok (), source) := by
  have encoded := Outcome.mapError_eq_ok_iff.mp flushed
  have decoded := Codec.decode_of_encode sound encoded
  rw [map_canonical_fields lawful] at decoded
  simp only [parse, reset_eq, update, decoded, setAll_fields lawful]

theorem flush_eq_error (lawful : source.Lawful) {codec : Codec} {error : HeaderError}
    (refused : source.flush codec = .error error) :
    ∃ actual, codec.maxFrameSize < actual ∧
      error = .flush (.encode (.frameTooLarge codec.maxFrameSize actual)) := by
  obtain ⟨cause, failed, rfl⟩ := Outcome.mapError_eq_error_iff.mp refused
  obtain ⟨actual, large, rfl⟩ := Codec.encodeFrom_complete
    (fun _ listed => complete_of_mem_fields lawful listed) (Outcome.map_eq_error_iff.mp failed)
  exact ⟨actual, large, rfl⟩

/-- The fields of a header can be packed unless they are too long, and the frame restores the
header in place of any other. -/
theorem flush_parse_roundTrip {header : Header} {codec : Codec} (made : header.Reachable)
    (reachable : codec.Reachable) :
    (∀ error, header.flush codec = .error error → ∃ actual, codec.maxFrameSize < actual ∧
      error = .flush (.encode (.frameTooLarge codec.maxFrameSize actual))) ∧
    (∀ frame, header.flush codec = .ok frame →
      ∀ target : Header, target.parse codec frame = (.ok (), header)) := by
  constructor
  · intro error refused
    exact flush_eq_error made.lawful refused
  · intro frame flushed target
    exact parse_of_flush made.lawful reachable.sound flushed target

theorem flush_parse_roundTrip_sample :
    sample.Reachable ∧ Codec.sample.Reachable ∧
      sample.flush Codec.sample =
        .ok [28, 0, 1, 9, 28, 197, 169, 63, 6, 97, 59, 98, 1, 21, 33, 234, 73, 106, 74, 212, 22, 169,
          147, 63, 2, 0, 2, 0, 2, 49] ∧
      parse { empty with contentType := [116] } Codec.sample
        [28, 0, 1, 9, 28, 197, 169, 63, 6, 97, 59, 98, 1, 21, 33, 234, 73, 106, 74, 212, 22, 169,
          147, 63, 2, 0, 2, 0, 2, 49] = (.ok (), sample) := by
  have flushed : sample.flush Codec.sample =
      .ok [28, 0, 1, 9, 28, 197, 169, 63, 6, 97, 59, 98, 1, 21, 33, 234, 73, 106, 74, 212, 22, 169,
        147, 63, 2, 0, 2, 0, 2, 49] := by
    cbv
  have parsed := (flush_parse_roundTrip reachable_sample Codec.reachable_sample).2 _ flushed
  exact ⟨reachable_sample, Codec.reachable_sample, flushed, parsed _⟩

end Header

end HeaderCodec
