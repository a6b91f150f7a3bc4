import HeaderCodec.Proofs.Huffman.Canonical
import HeaderCodec.Proofs.Reader

/-! A raw payload is the text itself and a coded one decodes to it; the encoder's choice between the
two is a literal of the same text. -/

namespace HeaderCodec

namespace Coder

theorem length_encode (coder : Coder) (payload : Bytes) :
    (coder.encode payload).length = coder.codedSize payload := by
  cases coder with
  | huffman => exact Huffman.length_encode payload
  | passthrough => rfl

theorem decode_encode (coder : Coder) (payload : Bytes) :
    coder.decode (coder.encode payload) = .ok payload := by
  cases coder with
  | huffman => simp [decode, encode, Huffman.decode_encode, Except.mapError]
  | passthrough => rfl

theorem eq_encode_of_decode {coder : Coder} {coded text : Bytes}
    (decoded : coder.decode coded = .ok text) : coded = coder.encode text := by
  cases coder with
  | huffman =>
    obtain ⟨payload, rfl, rfl⟩ :=
      Huffman.decodeOnto_eq_ok_iff.mp (Outcome.mapError_eq_ok_iff.mp decoded)
    rfl
  | passthrough =>
    cases decoded
    rfl

theorem ne_nil_of_decode {coder : Coder} {coded text : Bytes}
    (decoded : coder.decode coded = .ok text) (filled : text ≠ []) : coded ≠ [] := by
  rintro rfl
  cases coder <;> cases decoded <;> exact filled rfl

theorem encodeOnto_eq_append (coder : Coder) (buffer payload : Bytes) :
    coder.encodeOnto buffer payload = buffer ++ coder.encode payload := by
  cases coder with
  | huffman => exact Huffman.encodeOnto_eq_append buffer payload
  | passthrough => rfl

end Coder

namespace Literal

/-- An even number announces a payload that is the text, an odd one a payload that was coded. -/
inductive Spells (coder : Coder) : Bytes → Bytes → Prop
  | raw {head payload : Bytes} {number : Nat} (announced : Varint.Spells head number)
    (length : payload.length = number / 2) (even : number % 2 = 0) :
    Spells coder (head ++ payload) payload
  | coded {head payload text : Bytes} {number : Nat} (announced : Varint.Spells head number)
    (length : payload.length = number / 2) (odd : ¬number % 2 = 0)
    (decoded : coder.decode payload = .ok text) : Spells coder (head ++ payload) text

theorem Spells.ne_nil {coder : Coder} {bytes text : Bytes} (spelled : Spells coder bytes text) :
    bytes ≠ [] := by
  intro empty
  cases spelled with
  | raw announced =>
    exact List.ne_nil_of_length_pos announced.groups.length_pos (List.append_eq_nil_iff.mp empty).1
  | coded announced =>
    exact List.ne_nil_of_length_pos announced.groups.length_pos (List.append_eq_nil_iff.mp empty).1

def SpellsNonEmpty (coder : Coder) (bytes text : Bytes) : Prop :=
  Spells coder bytes text ∧ text ≠ []

theorem spells_raw {coder : Coder} {text : Bytes} (short : text.length < 2 ^ 63) :
    Spells coder (Varint.encode (2 * text.length) ++ text) text :=
  .raw (Varint.spells_encode (by omega)) (by omega) (by omega)

theorem spells_coded {coder : Coder} {text : Bytes} (short : coder.codedSize text < 2 ^ 63) :
    Spells coder (Varint.encode (2 * coder.codedSize text + codedFlag) ++ coder.encode text)
      text := by
  refine .coded (Varint.spells_encode (by rw [codedFlag]; omega)) ?_ ?_ (coder.decode_encode text)
  · rw [Coder.length_encode, codedFlag]
    omega
  · rw [codedFlag]
    omega

theorem spells_encode {coder : Coder} {text : Bytes}
    (short : (encode coder text).length < 2 ^ 63) : Spells coder (encode coder text) text := by
  unfold encode at short ⊢
  dsimp only at short ⊢
  split
  next shorter =>
    rw [if_pos shorter, List.length_append, Coder.length_encode] at short
    exact spells_coded (by omega)
  next longer =>
    rw [if_neg longer, List.length_append] at short
    exact spells_raw (by omega)

theorem spells_encode_of_length {coder : Coder} {text : Bytes} (short : text.length < 2 ^ 63) :
    Spells coder (encode coder text) text := by
  unfold encode
  dsimp only
  split
  next shorter => exact spells_coded (Nat.lt_trans shorter short)
  next longer => exact spells_raw short

theorem encode_passthrough (text : Bytes) :
    encode .passthrough text = Varint.encode (2 * text.length) ++ text :=
  if_neg (Nat.lt_irrefl _)

/-- A reader with one coder reads what a writer with another one writes. -/
def Crosses (writer reader : Coder) : Prop :=
  ∀ text, (encode writer text).length < 2 ^ 63 → Spells reader (encode writer text) text

theorem crosses_self (coder : Coder) : Crosses coder coder :=
  fun _ short => spells_encode short

theorem crosses_passthrough (reader : Coder) : Crosses .passthrough reader := by
  intro text short
  rw [encode_passthrough] at short ⊢
  rw [List.length_append] at short
  exact spells_raw (by omega)

theorem length_encode_le_raw (coder : Coder) (text : Bytes) :
    (encode coder text).length ≤ (Varint.encode (2 * text.length)).length + text.length := by
  unfold encode
  dsimp only
  split
  next shorter =>
    have smaller : 2 * coder.codedSize text + codedFlag ≤ 2 * text.length := by
      rw [codedFlag]
      omega
    have head := Varint.length_encode_mono smaller
    rw [List.length_append, Coder.length_encode]
    omega
  next => rw [List.length_append]

theorem length_encode_le_passthrough (coder : Coder) (text : Bytes) :
    (encode coder text).length ≤ (encode .passthrough text).length := by
  rw [encode_passthrough, List.length_append]
  exact length_encode_le_raw coder text

theorem length_encode_le (coder : Coder) (text : Bytes) :
    (encode coder text).length ≤ text.length + 1 + text.length / 64 := by
  have written := length_encode_le_raw coder text
  have head := Varint.length_encode_le_div (2 * text.length)
  omega

theorem length_encode_le_coded (coder : Coder) (text : Bytes) :
    (encode coder text).length ≤
      (Varint.encode (2 * coder.codedSize text + codedFlag)).length + coder.codedSize text := by
  unfold encode
  dsimp only
  split
  next => rw [List.length_append, Coder.length_encode]
  next longer =>
    have smaller : 2 * text.length ≤ 2 * coder.codedSize text + codedFlag := by omega
    have head := Varint.length_encode_mono smaller
    rw [List.length_append]
    omega

/-- Of all literals of a text the encoder's is the shortest. -/
theorem Spells.length_encode_le {coder : Coder} {bytes text : Bytes}
    (spelled : Spells coder bytes text) : (encode coder text).length ≤ bytes.length := by
  cases spelled with
  | @raw head payload number announced length even =>
    have written := length_encode_le_raw coder text
    have double : 2 * text.length = number := by omega
    have shortest := announced.groups.length_encode_le
    rw [double] at written
    rw [List.length_append]
    omega
  | @coded head payload text number announced length odd decoded =>
    have written := length_encode_le_coded coder text
    have shortest := announced.groups.length_encode_le
    rw [Coder.eq_encode_of_decode decoded, Coder.length_encode] at length
    have double : 2 * coder.codedSize text + codedFlag = number := by
      rw [codedFlag]
      omega
    rw [double] at written
    rw [Coder.eq_encode_of_decode decoded, List.length_append, Coder.length_encode]
    omega

theorem SpellsNonEmpty.two_le_length {coder : Coder} {bytes text : Bytes}
    (spelled : SpellsNonEmpty coder bytes text) : 2 ≤ bytes.length := by
  obtain ⟨spelled, filled⟩ := spelled
  have text_pos := List.length_pos_iff.mpr filled
  cases spelled with
  | raw announced =>
    have := announced.groups.length_pos
    rw [List.length_append]
    omega
  | @coded head payload _ number announced length odd decoded =>
    have := announced.groups.length_pos
    have := List.length_pos_iff.mpr (Coder.ne_nil_of_decode decoded filled)
    rw [List.length_append]
    omega

end Literal

namespace Reader

theorem Passes.announced {before after : Reader} {head payload : Bytes} {number : Nat}
    (passes : before.Passes (head ++ payload) after) (spelled : Varint.Spells head number)
    (length : payload.length = number / 2) :
    ∃ middle, before.readVarint = .ok (number, middle) ∧
      middle.rest.split (number / 2) = (payload, after.rest) ∧
      middle.offset + number / 2 = after.offset := by
  obtain ⟨middle, front, back⟩ := passes.of_append
  refine ⟨middle, (recognizes_readVarint _ _ _).mpr ⟨head, spelled, front⟩, ?_, ?_⟩
  · rw [Bytes.split_eq, back.rest_eq, ← length, List.take_left, List.drop_left]
  · rw [back.offset_eq, length]

theorem recognizes_readLiteral (coder : Coder) :
    Recognizes (readLiteral · coder) (Literal.Spells coder) := by
  intro before text after
  dsimp only [readLiteral]
  constructor
  · intro read
    split at read
    · cases read
    next number middle announced =>
    obtain ⟨head, spelled, passes⟩ := (recognizes_readVarint _ _ _).mp announced
    simp only [Bytes.split_eq] at read
    split at read
    · cases read
    next enough =>
    have length : (middle.rest.take (number / 2)).length = number / 2 := by
      have := List.length_take_le (number / 2) middle.rest
      omega
    have taken : middle.Passes (middle.rest.take (number / 2))
        ⟨middle.offset + number / 2, middle.rest.drop (number / 2)⟩ :=
      ⟨by simp, by rw [length]⟩
    split at read
    next even =>
      cases read
      exact ⟨_, .raw spelled length even, passes.append taken⟩
    next odd =>
      split at read
      next decoded =>
        cases read
        exact ⟨_, .coded spelled length odd decoded, passes.append taken⟩
      · cases read
  · rintro ⟨bytes, spelled, passes⟩
    cases spelled with
    | raw announced length even =>
      obtain ⟨middle, varint, split, offset⟩ := passes.announced announced length
      simp only [varint, split, length, Nat.lt_irrefl, even, offset, reduceIte]
    | coded announced length odd decoded =>
      obtain ⟨middle, varint, split, offset⟩ := passes.announced announced length
      simp only [varint, split, length, Nat.lt_irrefl, odd, decoded, offset, reduceIte]

theorem readVarint_literal (coder : Coder) {text : Bytes} (short : text.length < 2 ^ 63)
    (offset : Nat) (rest : Bytes) :
    ∃ head middle, readVarint ⟨offset, Literal.encode coder text ++ rest⟩ = .ok (head, middle) ∧
      head < 2 ^ 64 ∧ (head % 2 ≠ 0 ↔ (coder.encode text).length < text.length) := by
  obtain ⟨head, payload, literal, small, flag⟩ : ∃ head payload,
      Literal.encode coder text = Varint.encode head ++ payload ∧ head < 2 ^ 64 ∧
        (head % 2 ≠ 0 ↔ (coder.encode text).length < text.length) := by
    rw [Coder.length_encode]
    by_cases saves : coder.codedSize text < text.length
    · refine ⟨_, _, if_pos saves, ?_, ?_⟩ <;> rw [Literal.codedFlag] <;> omega
    · refine ⟨_, _, if_neg saves, ?_, ?_⟩ <;> omega
  rw [literal, List.append_assoc]
  exact ⟨head, _, recognizes_readVarint.read_append (Varint.spells_encode small) offset _, small,
    flag⟩

theorem recognizes_readNonEmpty (coder : Coder) :
    Recognizes (readNonEmpty · coder) (Literal.SpellsNonEmpty coder) := by
  intro before text after
  dsimp only [readNonEmpty]
  constructor
  · intro read
    split at read
    · cases read
    next literal =>
    obtain ⟨bytes, spelled, passes⟩ := (recognizes_readLiteral coder _ _ _).mp literal
    split at read
    · cases read
    next filled =>
      cases read
      exact ⟨bytes, ⟨spelled, fun empty => filled (List.isEmpty_iff.mpr empty)⟩, passes⟩
  · rintro ⟨bytes, ⟨spelled, filled⟩, passes⟩
    have literal := (recognizes_readLiteral coder _ _ _).mpr ⟨bytes, spelled, passes⟩
    dsimp only at literal
    simp [literal, filled]

end Reader

end HeaderCodec
