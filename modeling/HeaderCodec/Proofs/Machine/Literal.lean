import HeaderCodec.Proofs.Machine.Coding
import HeaderCodec.Proofs.Machine.Cursor
import HeaderCodec.Proofs.Machine.Varint

/-! What a machine writes behind a buffer is the literal of the text. The number in front says where
the literal ends, and of all literals of a text it is the shortest. -/

namespace HeaderCodec.Machine

variable {ε : Type}

theorem codedSizeWith_eq (coder : Coder) {payload : Bytes} (small : payload.length < 2 ^ 59) :
    (codedSizeWith coder payload : Checked ε Nat) = .ok (coder.codedSize payload) := by
  cases coder with
  | huffman => exact Packer.codedSize_eq small
  | passthrough => rfl

theorem encodeWith_eq (coder : Coder) (buffer payload : Bytes) :
    (encodeWith coder buffer payload : Checked ε Bytes) =
      .ok (coder.encodeOnto buffer payload) := by
  cases coder with
  | huffman => exact Packer.encodeOnto_eq buffer payload
  | passthrough => rfl

theorem toNat_double {number : Nat} (small : number < 2 ^ 63) :
    (number.toUInt64 <<< 1).toNat = 2 * number := by
  have word : number.toUInt64.toNat = number :=
    UInt64.toNat_ofNat_of_lt' (Nat.lt_trans small (by decide))
  have fits : number.toUInt64.toNat * 2 ^ 1 < 2 ^ 64 := by omega
  rw [show (1 : UInt64) = (1 : Nat).toUInt64 from rfl, toNat_shiftLeft (by decide) fits, word,
    Nat.pow_one, Nat.mul_comm]

theorem toNat_flagged {number : Nat} (small : number < 2 ^ 63) :
    (number.toUInt64 <<< 1 ||| Literal.codedFlag.toUInt64).toNat =
      2 * number + Literal.codedFlag := by
  have word : number.toUInt64.toNat = number :=
    UInt64.toNat_ofNat_of_lt' (Nat.lt_trans small (by decide))
  have fits : number.toUInt64.toNat * 2 ^ 1 < 2 ^ 64 := by omega
  have low : Literal.codedFlag.toUInt64.toNat < 2 ^ 1 := by decide
  rw [UInt64.or_comm, show (1 : UInt64) = (1 : Nat).toUInt64 from rfl,
    toNat_or_shiftLeft low (by decide) fits, word, Nat.pow_one, Nat.add_comm]
  rfl

theorem writeLiteral_eq (coder : Coder) (buffer : Bytes) {text : Bytes}
    (small : text.length < 2 ^ 59) :
    writeLiteral coder buffer text = .ok (buffer ++ Literal.encode coder text) := by
  have sized := codedSizeWith_eq (ε := Misjudged) coder small
  by_cases shorter : coder.codedSize text < text.length
  · have filled : text.length ≠ 0 := Nat.ne_zero_of_lt shorter
    have literal : Literal.encode coder text =
        Varint.encode (2 * coder.codedSize text + Literal.codedFlag) ++ coder.encode text :=
      if_pos shorter
    rw [writeLiteral]
    simp only [if_neg filled, sized, Outcome.ok_bind, if_pos shorter, writeVarint_eq,
      toNat_flagged (Nat.lt_trans shorter (Nat.lt_trans small (by decide))), encodeWith_eq,
      Coder.encodeOnto_eq_append, subtract, List.length_append, Nat.le_add_right, if_true,
      Nat.add_sub_cancel_left, coder.length_encode]
    rw [literal, List.append_assoc]
  · have literal : Literal.encode coder text = Varint.encode (2 * text.length) ++ text :=
      if_neg shorter
    have raw : writeLiteral coder buffer text =
        .ok (buffer ++ Varint.encode (text.length.toUInt64 <<< 1).toNat ++ text) := by
      rw [writeLiteral]
      by_cases empty : text.length = 0
      · simp only [if_pos empty, Outcome.ok_bind, if_neg (Nat.lt_irrefl _), writeVarint_eq]
      · simp only [if_neg empty, sized, Outcome.ok_bind, if_neg shorter, writeVarint_eq]
    rw [raw, toNat_double (Nat.lt_trans small (by decide)), literal, ← List.append_assoc]

theorem reader_between (front middle back : Bytes) :
    (Cursor.mk (front ++ middle ++ back) front.length).reader = ⟨front.length, middle ++ back⟩ := by
  rw [Cursor.reader, List.append_assoc, List.drop_left]

section

variable {before text after : Bytes}

theorem fits_between (coder : Coder) (held : (before ++ text ++ after).length < 2 ^ 59) :
    (Cursor.mk (before ++ Literal.encode coder text ++ after) before.length).Fits := by
  have bound := Literal.length_encode_le coder text
  rw [List.length_append, List.length_append] at held
  constructor <;> simp only [List.length_append] <;> omega

theorem readLiteral_between (coder : Coder) (held : (before ++ text ++ after).length < 2 ^ 59) :
    (Cursor.mk (before ++ Literal.encode coder text ++ after) before.length).readLiteral coder =
      .ok (text, ⟨before ++ Literal.encode coder text ++ after,
        before.length + (Literal.encode coder text).length⟩) := by
  have short : text.length < 2 ^ 63 := by
    rw [List.length_append, List.length_append] at held
    omega
  rw [Cursor.readLiteral_eq (fits_between coder held), reader_between,
    (Reader.recognizes_readLiteral coder).read_append (Literal.spells_encode_of_length short)]
  rfl

theorem readVarint_between (coder : Coder) (held : (before ++ text ++ after).length < 2 ^ 59) :
    ∃ head middle,
      (Cursor.mk (before ++ Literal.encode coder text ++ after) before.length).readVarint =
        .ok (head, middle) ∧
      (head &&& 1 ≠ 0 ↔ (coder.encode text).length < text.length) := by
  have short : text.length < 2 ^ 63 := by
    rw [List.length_append, List.length_append] at held
    omega
  obtain ⟨head, middle, announced, narrow, flag⟩ :=
    Reader.readVarint_literal coder short before.length after
  rw [Cursor.readVarint_eq (fits_between coder held), reader_between, announced]
  exact ⟨head.toUInt64, _, rfl, (not_congr Cursor.flag_iff).trans flag⟩

end

theorem length_le_of_readLiteral {coder : Coder} {text bytes : Bytes}
    (small : text.length < 2 ^ 59)
    (read : (Cursor.ofSection bytes).readLiteral coder = .ok (text, ⟨bytes, bytes.length⟩)) :
    (Literal.encode coder text).length ≤ bytes.length := by
  by_contra fewer
  have bound := Literal.length_encode_le coder text
  have held : bytes.length < 2 ^ 61 := by omega
  have fits : (Cursor.ofSection bytes).Fits := ⟨Nat.zero_le _, held⟩
  rw [Cursor.readLiteral_eq fits] at read
  obtain ⟨place, read, offset⟩ := Cursor.eq_ok_of_resume read
  obtain ⟨piece, spelled, passes⟩ := (Reader.recognizes_readLiteral coder _ _ _).mp read
  have taken : bytes.length = 0 + piece.length := offset.symm.trans passes.offset_eq
  have shortest := spelled.length_encode_le
  omega

/-- A literal says where it ends, is flagged exactly if coding saves bytes, and is the shortest from
which its text is read. A machine appends it to its buffer and reads it back, as long as a word can
count the bits of what it holds. -/
theorem literal_selfDelimiting (coder : Coder) (before text after : Bytes) :
    let written := Literal.encode coder text
    let saves := (coder.encode text).length < text.length
    (text.length < 2 ^ 63 →
      Reader.readLiteral ⟨before.length, written ++ after⟩ coder =
        .ok (text, ⟨before.length + written.length, after⟩) ∧
      (∃ head middle, Reader.readVarint ⟨before.length, written ++ after⟩ = .ok (head, middle) ∧
        (head % 2 ≠ 0 ↔ saves)) ∧
      ∀ bytes, Reader.readLiteral (.ofSection bytes) coder = .ok (text, ⟨bytes.length, []⟩) →
        written.length ≤ bytes.length) ∧
    ((before ++ text ++ after).length < 2 ^ 59 →
      let buffer := before ++ written ++ after
      (codedSizeWith coder text : Checked Misjudged Nat) = .ok (coder.encode text).length ∧
      writeLiteral coder before text = .ok (before ++ written) ∧
      (Cursor.mk buffer before.length).readLiteral coder =
        .ok (text, ⟨buffer, before.length + written.length⟩) ∧
      (∃ head middle, (Cursor.mk buffer before.length).readVarint = .ok (head, middle) ∧
        (head &&& 1 ≠ 0 ↔ saves)) ∧
      ∀ bytes, (Cursor.ofSection bytes).readLiteral coder = .ok (text, ⟨bytes, bytes.length⟩) →
        written.length ≤ bytes.length) := by
  intro written saves
  constructor
  · intro short
    have recognizes := Reader.recognizes_readLiteral coder
    obtain ⟨head, middle, announced, -, flag⟩ :=
      Reader.readVarint_literal coder short before.length after
    refine ⟨recognizes.read_append (Literal.spells_encode_of_length short) _ _,
      ⟨head, middle, announced, flag⟩, ?_⟩
    intro bytes read
    obtain ⟨piece, spelled, passes⟩ := (recognizes _ _ _).mp read
    have whole : bytes = piece ++ [] := passes.rest_eq
    rw [whole, List.append_nil]
    exact spelled.length_encode_le
  · intro held buffer
    have small : text.length < 2 ^ 59 := by
      rw [List.length_append, List.length_append] at held
      omega
    refine ⟨?_, writeLiteral_eq coder before small, readLiteral_between coder held,
      readVarint_between coder held, fun _ => length_le_of_readLiteral small⟩
    rw [codedSizeWith_eq coder small, coder.length_encode]

theorem literal_selfDelimiting_between :
    Reader.readLiteral ⟨1, [5, 24, 199, 255]⟩ .huffman = .ok ([97, 97, 97], ⟨4, [255]⟩) ∧
      writeLiteral .huffman [7] [97, 97, 97] = .ok [7, 5, 24, 199] ∧
      (Cursor.mk [7, 5, 24, 199, 255] 1).readLiteral .huffman =
        .ok ([97, 97, 97], ⟨[7, 5, 24, 199, 255], 4⟩) ∧
      ∀ bytes, (Cursor.ofSection bytes).readLiteral .huffman =
        .ok ([97, 97, 97], ⟨bytes, bytes.length⟩) → 3 ≤ bytes.length := by
  have literal : Literal.encode .huffman [97, 97, 97] = [5, 24, 199] := by
    cbv
  obtain ⟨short, held⟩ := literal_selfDelimiting .huffman [7] [97, 97, 97] [255]
  rw [literal] at short held
  obtain ⟨read, -, -⟩ := short (by decide)
  obtain ⟨-, written, again, -, shortest⟩ := held (by decide)
  exact ⟨read, written, again, shortest⟩

end HeaderCodec.Machine
