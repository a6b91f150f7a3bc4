import HeaderCodec.Proofs.Offsets

/-! Where a reading step stands shows only in the places that its errors name. So what follows the
fields of a body is read as if it were a body of its own. -/

namespace HeaderCodec

namespace DecodeError

/-- The same fault with `distance` more bytes in front of it. Places move; indexes and lengths do
not say where they were found. -/
def moved (distance : Nat) : DecodeError → DecodeError
  | unknownFieldKind tag offset => unknownFieldKind tag (offset + distance)
  | truncatedField offset => truncatedField (offset + distance)
  | emptyLiteral offset => emptyLiteral (offset + distance)
  | varintOverflow offset => varintOverflow (offset + distance)
  | invalidEntropyCoding offset => invalidEntropyCoding (offset + distance)
  | cause => cause

/-- A fault of a field, and not of a frame as a whole or of a dump. -/
def OfField : DecodeError → Prop
  | unknownFieldKind .. | unknownNameIndex .. | unknownPairIndex .. | truncatedField ..
  | truncatedLiteral .. | emptyLiteral .. | varintOverflow .. | invalidEntropyCoding .. => True
  | _ => False

end DecodeError

namespace Reader

variable {α : Type} {reader : Reader} {coder : Coder} {cause : DecodeError}

def moved (distance : Nat) (reader : Reader) : Reader :=
  { reader with offset := reader.offset + distance }

def movedOutcome (distance : Nat) :
    Except DecodeError (α × Reader) → Except DecodeError (α × Reader)
  | .ok (value, after) => .ok (value, after.moved distance)
  | .error cause => .error (cause.moved distance)

/-- The step does the same wherever it stands. -/
def Portable (read : Reader → Except DecodeError (α × Reader)) : Prop :=
  ∀ distance reader, read (reader.moved distance) = movedOutcome distance (read reader)

theorem portable_readVarint : Portable readVarint := by
  intro distance reader
  have rest : (reader.moved distance).rest = reader.rest := rfl
  rw [readVarint, readVarint, rest]
  cases Varint.decode reader.rest with
  | ok result =>
    simp only [movedOutcome, moved, advance, Nat.add_right_comm]
  | error error => cases error <;> rfl

theorem portable_readLiteral (coder : Coder) : Portable (readLiteral · coder) := by
  intro distance reader
  dsimp only [readLiteral]
  rw [portable_readVarint]
  cases reader.readVarint with
  | error cause => rfl
  | ok result =>
    obtain ⟨head, after⟩ := result
    have behind : (after.moved distance).offset + head / 2 = after.offset + head / 2 + distance :=
      Nat.add_right_comm _ _ _
    have rest : (after.moved distance).rest = after.rest := rfl
    simp only [movedOutcome, rest, behind]
    split
    · rfl
    split
    · rfl
    cases coder.decode _ <;> rfl

theorem portable_readNonEmpty (coder : Coder) : Portable (readNonEmpty · coder) := by
  intro distance reader
  have literal := portable_readLiteral coder distance reader
  dsimp only at literal
  dsimp only [readNonEmpty]
  rw [literal]
  cases reader.readLiteral coder with
  | error cause => rfl
  | ok result =>
    simp only [movedOutcome]
    split <;> rfl

theorem Portable.loop {read : Reader → Except DecodeError (α × Reader)}
    {spells : Bytes → α → Prop} (portable : Portable read) (recognizes : Recognizes read spells)
    (productive : Productive spells) {loop : List α → Reader → Except DecodeError (List α)}
    (repeats : Repeats loop read) (distance : Nat) (done : List α) (reader : Reader) :
    loop done (reader.moved distance) = (loop done reader).mapError (.moved distance) := by
  induction reader using recognizes.read_induction productive generalizing done with
  | step reader ih =>
  have rest : (reader.moved distance).rest = reader.rest := rfl
  rw [repeats done (reader.moved distance), repeats done reader, rest, portable]
  split
  · rfl
  cases stepped : read reader with
  | error cause => rfl
  | ok result =>
    obtain ⟨value, after⟩ := result
    exact ih value after stepped (value :: done)

theorem Finds.ofField (finds : reader.Finds cause) : cause.OfField := by
  obtain ⟨-, place, -, found⟩ := finds
  cases cause <;> trivial

end Reader

namespace Codec

variable {codec : Codec} {reader : Reader} {cause : DecodeError}

theorem portable_readField (codec : Codec) (kind : FieldKind) :
    Reader.Portable (codec.readField kind) := by
  intro distance reader
  have varint := Reader.portable_readVarint distance reader
  have literal : ∀ reader : Reader, (reader.moved distance).readNonEmpty codec.coder =
      Reader.movedOutcome distance (reader.readNonEmpty codec.coder) :=
    Reader.portable_readNonEmpty codec.coder distance
  cases kind with
  | indexed =>
    simp only [readField, varint]
    cases reader.readVarint with
    | error cause => rfl
    | ok result =>
      simp only [Reader.movedOutcome]
      cases codec.dictionary.get? result.1 with
      | none => rfl
      | some entry => cases alone : entry.isNameOnly <;> simp [alone, DecodeError.moved]
  | nameReference =>
    simp only [readField, varint]
    cases reader.readVarint with
    | error cause => rfl
    | ok result =>
      simp only [Reader.movedOutcome, literal]
      cases codec.dictionary.get? result.1 with
      | none => rfl
      | some entry =>
        cases alone : entry.isNameOnly with
        | false => simp [alone, DecodeError.moved]
        | true =>
          simp only [alone, if_true]
          cases result.2.readNonEmpty codec.coder <;> rfl
  | literal =>
    simp only [readField, literal]
    cases reader.readNonEmpty codec.coder with
    | error cause => rfl
    | ok result =>
      simp only [Reader.movedOutcome, literal]
      cases result.2.readNonEmpty codec.coder <;> rfl

theorem portable_readTagged (codec : Codec) : Reader.Portable codec.readTagged := by
  rintro distance ⟨offset, bytes⟩
  cases bytes with
  | nil => rfl
  | cons tag rest =>
    have field := fun kind => portable_readField codec kind distance ⟨offset + 1, rest⟩
    simp only [Reader.moved, Nat.add_right_comm offset 1] at field
    simp only [Reader.moved, readTagged]
    cases FieldKind.ofTag? tag with
    | none => rfl
    | some kind => exact field kind

theorem decodeBody_append {pieces : List Bytes} {fields : List Field}
    (spelled : List.Forall₂ codec.Spells pieces fields) {back : Bytes}
    (fits : (pieces.flatten ++ back).length ≤ codec.maxFrameSize) :
    codec.decodeBody (pieces.flatten ++ back) =
      ((codec.decodeBody back).map (fields ++ ·)).mapError (.moved pieces.flatten.length) := by
  have shorter : back.length ≤ codec.maxFrameSize := by
    rw [List.length_append] at fits
    omega
  have recognizes := recognizes_readTagged codec
  have productive := productive_spells codec
  have repeats := repeats_readFields codec
  have passed := recognizes.loop_append productive repeats spelled [] 0 back
  -- Behind the pieces stands a reader of `back` alone, only further on.
  have stands : (⟨0 + pieces.flatten.length, back⟩ : Reader) =
      Reader.moved pieces.flatten.length (.ofSection back) := rfl
  unfold decodeBody
  dsimp only
  rw [if_neg (Nat.not_lt.mpr fits), if_neg (Nat.not_lt.mpr shorter), Reader.ofSection, passed,
    stands, (portable_readTagged codec).loop recognizes productive repeats,
    recognizes.loop_done productive repeats, List.append_nil, List.reverse_reverse]

/-- If the front of a body is accepted, the body is accepted exactly if what follows is, with the
fields of both. Otherwise it fails for the fault in what follows, which is one of a field: a place
that the error names lies as much further back as there is in front. -/
theorem decodeBody_compositional {front back : Bytes} {fields : List Field}
    (fits : (front ++ back).length ≤ codec.maxFrameSize)
    (decoded : codec.decodeBody front = .ok fields) :
    (∀ others, codec.decodeBody (front ++ back) = .ok (fields ++ others) ↔
      codec.decodeBody back = .ok others) ∧
    ∀ cause, codec.decodeBody back = .error cause →
      cause.OfField ∧ codec.decodeBody (front ++ back) = .error (cause.moved front.length) := by
  obtain ⟨-, pieces, rfl, spelled⟩ := decodeBody_eq_ok_iff.mp decoded
  have whole := decodeBody_append spelled fits
  constructor
  · intro others
    rw [whole, Outcome.mapError_eq_ok_iff, Outcome.map_eq_ok_iff]
    simp only [List.append_cancel_left_eq, exists_eq_right]
  · intro cause failed
    rw [failed] at whole
    refine ⟨(finds_of_decodeBody ?_ failed).ofField, whole⟩
    rw [List.length_append] at fits
    omega

theorem decodeBody_compositional_cut :
    sample.decodeBody [1, 2, 97, 2, 98] = .ok [⟨[97], [98]⟩] ∧
      sample.decodeBody [3, 2, 1, 2, 97] = .error (.truncatedField 5) ∧
      sample.decodeBody [1, 2, 97, 2, 98, 3, 2, 1, 2, 97] = .error (.truncatedField 10) := by
  have front : sample.decodeBody [1, 2, 97, 2, 98] = .ok [⟨[97], [98]⟩] := by
    cbv
  have back : sample.decodeBody [3, 2, 1, 2, 97] = .error (.truncatedField 5) := by
    cbv
  have fits : ([1, 2, 97, 2, 98] ++ [3, 2, 1, 2, 97] : Bytes).length ≤ sample.maxFrameSize := by
    decide
  exact ⟨front, back, ((decodeBody_compositional fits front).2 _ back).2⟩

end Codec

end HeaderCodec
