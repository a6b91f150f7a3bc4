import HeaderCodec.Frame.Encoding
import HeaderCodec.Proofs.Grammar
import HeaderCodec.Proofs.Reachable

/-! Packing succeeds exactly on complete fields whose encodings fit. Each encoding is read back as
the field that it was written for, up to the case of a name that the dictionary has. -/

namespace HeaderCodec

def Field.Complete (field : Field) : Prop :=
  field.name ≠ [] ∧ field.value ≠ []

namespace Codec

variable {codec : Codec} {fields : List Field}

theorem encodeFrom_of_complete {field : Field} (complete : field.Complete)
    (position size : Nat) (done : List Bytes) (rest : List Field) :
    codec.encodeFrom position size done (field :: rest) =
      if codec.maxFrameSize < size + (codec.encodeField field).length then
        .error (.frameTooLarge codec.maxFrameSize (size + (codec.encodeField field).length))
      else codec.encodeFrom (position + 1) (size + (codec.encodeField field).length)
        (codec.encodeField field :: done) rest := by
  rw [encodeFrom, if_neg (mt List.isEmpty_iff.mp complete.1),
    if_neg (mt List.isEmpty_iff.mp complete.2)]

theorem complete_of_encodeFrom {field : Field} {position size : Nat} {done : List Bytes}
    {rest : List Field} {body : Bytes}
    (encoded : codec.encodeFrom position size done (field :: rest) = .ok body) :
    field.Complete := by
  rw [encodeFrom] at encoded
  split at encoded
  · cases encoded
  next named =>
  split at encoded
  · cases encoded
  next valued => exact ⟨mt List.isEmpty_iff.mpr named, mt List.isEmpty_iff.mpr valued⟩

theorem encodeFrom_eq_ok_iff {position size : Nat} {done : List Bytes} {body : Bytes}
    (fits : size ≤ codec.maxFrameSize) :
    codec.encodeFrom position size done fields = .ok body ↔
      (∀ field ∈ fields, field.Complete) ∧
        size + (fields.flatMap codec.encodeField).length ≤ codec.maxFrameSize ∧
        body = done.reverse.flatten ++ fields.flatMap codec.encodeField := by
  induction fields generalizing position size done with
  | nil =>
    simp only [encodeFrom, Except.ok.injEq, List.flatMap_nil, List.append_nil]
    constructor
    · rintro rfl
      exact ⟨List.forall_mem_nil _, fits, rfl⟩
    · rintro ⟨-, -, rfl⟩
      rfl
  | cons field rest ih =>
    by_cases complete : field.Complete
    · rw [encodeFrom_of_complete complete, List.forall_mem_cons, List.flatMap_cons,
        List.length_append]
      by_cases large : codec.maxFrameSize < size + (codec.encodeField field).length
      · rw [if_pos large]
        constructor
        · intro refused
          cases refused
        · rintro ⟨-, total, -⟩
          omega
      · rw [if_neg large, ih (by omega)]
        simp [complete, Nat.add_assoc]
    · constructor
      · intro encoded
        exact absurd (complete_of_encodeFrom encoded) complete
      · rintro ⟨all, -, -⟩
        exact absurd (all field List.mem_cons_self) complete

theorem encodeBody_eq_ok_iff {body : Bytes} :
    codec.encodeBody fields = .ok body ↔
      (∀ field ∈ fields, field.Complete) ∧ body.length ≤ codec.maxFrameSize ∧
        body = fields.flatMap codec.encodeField := by
  rw [encodeBody, encodeFrom_eq_ok_iff (Nat.zero_le _), Nat.zero_add]
  simp only [List.reverse_nil, List.flatten_nil, List.nil_append]
  constructor
  · rintro ⟨complete, fits, rfl⟩
    exact ⟨complete, fits, rfl⟩
  · rintro ⟨complete, fits, rfl⟩
    exact ⟨complete, fits, rfl⟩

theorem encodeFrom_complete (complete : ∀ field ∈ fields, field.Complete)
    {position size : Nat} {done : List Bytes} {cause : EncodeError}
    (refused : codec.encodeFrom position size done fields = .error cause) :
    ∃ actual, codec.maxFrameSize < actual ∧
      cause = .frameTooLarge codec.maxFrameSize actual := by
  induction fields generalizing position size done with
  | nil => cases refused
  | cons field rest ih =>
    obtain ⟨first, others⟩ := List.forall_mem_cons.mp complete
    rw [encodeFrom_of_complete first] at refused
    split at refused
    next large =>
      cases refused
      exact ⟨_, large, rfl⟩
    next => exact ih others refused

theorem index_lt (sound : codec.Sound) {index : Nat} {entry : Field}
    (known : codec.dictionary.get? index = some entry) : index < 2 ^ 64 := by
  have inside : index < codec.dictionary.entries.length :=
    (List.getElem?_eq_some_iff.mp known).1
  have listed := sound.registered.length_le_contentSize
  have content : codec.dictionary.contentSize ≤ 32 * 1024 * 1024 := sound.content_le
  omega

theorem spells_encodeField (sound : codec.Sound) {reader : Coder}
    (crosses : Literal.Crosses codec.coder reader) {field : Field} (complete : field.Complete)
    (short : (codec.encodeField field).length < 2 ^ 63) :
    (codec.withCoder reader).Spells (codec.encodeField field)
      (codec.dictionary.canonical field) := by
  obtain ⟨named, valued⟩ := complete
  unfold encodeField at short ⊢
  unfold Dictionary.canonical
  split
  next pairIndex found =>
    obtain ⟨pair, known⟩ := Dictionary.get?_of_index_pair found
    rw [if_pos (Dictionary.registers_of_get? known rfl)]
    exact .indexed (Varint.spells_encode (index_lt sound known)) known pair
  next nameIndex found =>
    have known := Dictionary.get?_of_index_name found
    rw [if_pos (Dictionary.registers_of_get? known rfl)]
    rw [found] at short
    simp only [List.length_cons, List.length_append] at short
    have value := crosses field.value (by omega)
    exact @Spells.nameReference (codec.withCoder reader) _ _ _ _ _
      (Varint.spells_encode (index_lt sound known)) known rfl ⟨value, valued⟩
  next missed =>
    rw [if_neg (Dictionary.registers_of_index_miss sound.registered named missed)]
    rw [missed] at short
    simp only [List.length_cons, List.length_append] at short
    have name := crosses field.name (by omega)
    have value := crosses field.value (by omega)
    exact .literal ⟨name, named⟩ ⟨value, valued⟩

theorem encodeField_canonical (sound : codec.Sound) {field : Field} (complete : field.Complete) :
    codec.encodeField (codec.dictionary.canonical field) = codec.encodeField field := by
  unfold Dictionary.canonical
  split
  next known =>
    unfold encodeField
    dsimp only
    rw [Dictionary.index_lower]
    split
    · rfl
    · rfl
    next missed =>
      exact absurd known
        (Dictionary.registers_of_index_miss sound.registered complete.1 missed)
  next => rfl

theorem complete_canonical {field : Field} (complete : field.Complete) (dictionary : Dictionary) :
    (dictionary.canonical field).Complete := by
  unfold Dictionary.canonical
  split
  · exact ⟨mt Bytes.lower_eq_nil_iff.mp complete.1, complete.2⟩
  · exact complete

theorem length_frameOf (body : Bytes) :
    (frameOf body).length = Limits.frameLengthSize + body.length := by
  rw [frameOf, List.length_append, Bytes.length_ofNatLE]

theorem encode_eq_ok_iff {frame : Bytes} :
    codec.encode fields = .ok frame ↔
      (∀ field ∈ fields, field.Complete) ∧
        (fields.flatMap codec.encodeField).length ≤ codec.maxFrameSize ∧
        frame = frameOf (fields.flatMap codec.encodeField) := by
  simp only [encode, Outcome.map_eq_ok_iff, encodeBody_eq_ok_iff]
  constructor
  · rintro ⟨body, ⟨complete, fits, rfl⟩, rfl⟩
    exact ⟨complete, fits, rfl⟩
  · rintro ⟨complete, fits, rfl⟩
    exact ⟨_, ⟨complete, fits, rfl⟩, rfl⟩

theorem decode_frameOf {body : Bytes} (short : body.length ≤ Limits.maxMaxFrameSize) :
    codec.decode (frameOf body) = codec.decodeBody body := by
  have low : Bytes.ofNatLE 2 body.length =
      [body.length.toUInt8, (body.length / 256).toUInt8] := rfl
  have fits : body.length < 256 ^ 2 := Nat.lt_succ_of_le short
  have declared := Bytes.toNatLE_ofNatLE 2 body.length
  rw [low, Nat.mod_eq_of_lt fits] at declared
  have opening : frameOf body =
      body.length.toUInt8 :: (body.length / 256).toUInt8 :: body := rfl
  simp only [opening, decode, declared, ne_eq, not_true_eq_false, if_false]
  split
  next large => rw [decodeBody, if_pos large]
  next => rfl

theorem decode_eq_ok_iff {frame : Bytes} :
    codec.decode frame = .ok fields ↔
      ∃ body, frame = frameOf body ∧ body.length ≤ Limits.maxMaxFrameSize ∧
        codec.decodeBody body = .ok fields := by
  constructor
  · intro decoded
    unfold decode at decoded
    split at decoded
    next low high body =>
      dsimp only at decoded
      split at decoded
      · cases decoded
      split at decoded
      · cases decoded
      next whole =>
      rw [ne_eq, not_not] at whole
      refine ⟨body, ?_, ?_, decoded⟩
      · have opening := Bytes.ofNatLE_toNatLE [low, high]
        rw [whole] at opening
        rw [frameOf, Limits.frameLengthSize]
        exact congrArg (· ++ body) opening.symm
      · have sayable : Bytes.toNatLE [low, high] < 256 ^ 2 := Bytes.toNatLE_lt [low, high]
        rw [← whole]
        exact Nat.le_of_lt_succ sayable
    · cases decoded
  · rintro ⟨body, rfl, short, decoded⟩
    rw [decode_frameOf short, decoded]

theorem decode_withCoder_of_encode (sound : codec.Sound) {reader : Coder}
    (crosses : Literal.Crosses codec.coder reader) {frame : Bytes}
    (encoded : codec.encode fields = .ok frame) :
    (codec.withCoder reader).decode frame = .ok (fields.map codec.dictionary.canonical) := by
  obtain ⟨complete, fits, rfl⟩ := encode_eq_ok_iff.mp encoded
  have short : (fields.flatMap codec.encodeField).length ≤ 65535 :=
    Nat.le_trans fits sound.le_max
  rw [decode_frameOf short, decodeBody_eq_ok_iff]
  refine ⟨fits, Reader.row_flatMap fun field listed => ?_⟩
  have part := Reader.length_le_flatMap listed codec.encodeField
  exact spells_encodeField sound crosses (complete field listed) (by omega)

theorem decode_of_encode (sound : codec.Sound) {frame : Bytes}
    (encoded : codec.encode fields = .ok frame) :
    codec.decode frame = .ok (fields.map codec.dictionary.canonical) :=
  decode_withCoder_of_encode sound (Literal.crosses_self codec.coder) encoded

theorem encode_canonical (sound : codec.Sound) {frame : Bytes}
    (encoded : codec.encode fields = .ok frame) :
    codec.encode (fields.map codec.dictionary.canonical) = .ok frame := by
  obtain ⟨complete, fits, rfl⟩ := encode_eq_ok_iff.mp encoded
  have same : (fields.map codec.dictionary.canonical).flatMap codec.encodeField =
      fields.flatMap codec.encodeField := by
    rw [List.flatMap_map]
    apply List.flatMap_congr
    intro field listed
    exact encodeField_canonical sound (complete field listed)
  rw [encode_eq_ok_iff, same]
  refine ⟨?_, fits, rfl⟩
  intro field listed
  obtain ⟨original, member, rfl⟩ := List.mem_map.mp listed
  exact complete_canonical (complete original member) codec.dictionary

/-- What was packed is unpacked in order, with every value as it was and every name as it was,
unless the dictionary has it in lower case. Packing what was unpacked gives the same frame. -/
theorem frame_roundTrip {frame : Bytes} (reachable : codec.Reachable)
    (encoded : codec.encode fields = .ok frame) :
    codec.decode frame = .ok (fields.map codec.dictionary.canonical) ∧
      codec.encode (fields.map codec.dictionary.canonical) = .ok frame := by
  have sound := reachable.sound
  constructor
  · exact decode_of_encode sound encoded
  · exact encode_canonical sound encoded

theorem frame_roundTrip_sample :
    sample.Reachable ∧
      sample.encode [⟨[88, 45], [97]⟩, ⟨[120, 45, 84], [49]⟩, ⟨[65, 66], [1]⟩] =
        .ok [12, 0, 2, 0, 2, 97, 3, 2, 1, 4, 65, 66, 2, 1] ∧
      sample.decode [12, 0, 2, 0, 2, 97, 3, 2, 1, 4, 65, 66, 2, 1] =
        .ok [⟨[120, 45], [97]⟩, ⟨[120, 45, 116], [49]⟩, ⟨[65, 66], [1]⟩] ∧
      sample.encode [⟨[120, 45], [97]⟩, ⟨[120, 45, 116], [49]⟩, ⟨[65, 66], [1]⟩] =
        .ok [12, 0, 2, 0, 2, 97, 3, 2, 1, 4, 65, 66, 2, 1] := by
  have encoded : sample.encode [⟨[88, 45], [97]⟩, ⟨[120, 45, 84], [49]⟩, ⟨[65, 66], [1]⟩] =
      .ok [12, 0, 2, 0, 2, 97, 3, 2, 1, 4, 65, 66, 2, 1] := by
    cbv
  exact ⟨reachable_sample, encoded, frame_roundTrip reachable_sample encoded⟩

end Codec

end HeaderCodec
