import HeaderCodec.Machine.Decoding
import HeaderCodec.Proofs.Machine.Cursor
import HeaderCodec.Proofs.Offsets

/-! Whatever a frame, a body or a dump consists of, the machine decodes it without a trap, in no
more rounds than it has bytes, to what the codec decodes it to. -/

namespace HeaderCodec.Machine

variable {α : Type} {codec : Codec} {cursor after : Cursor}

private theorem toNat_index {bytes : Bytes} {index : Nat} (spelled : Varint.Spells bytes index) :
    index.toUInt64.toNat = index :=
  UInt64.toNat_ofNat_of_lt spelled.lt

theorem readField_eq (fits : cursor.Fits) (codec : Codec) (kind : FieldKind) :
    readField codec kind cursor = cursor.resume (codec.readField kind cursor.reader) := by
  cases kind with
  | indexed =>
    rw [readField, Codec.readField, Cursor.readVarint_eq fits]
    cases varint : cursor.reader.readVarint with
    | error error => rfl
    | ok result =>
      obtain ⟨index, after⟩ := result
      obtain ⟨bytes, spelled, -⟩ := (Reader.recognizes_readVarint _ _ _).mp varint
      have number := toNat_index spelled
      simp only [Except.map, Cursor.resume, Outcome.ok_bind, number]
      cases codec.dictionary.get? index with
      | none => rfl
      | some entry => cases alone : entry.isNameOnly <;> simp [alone, Option.filter]
  | nameReference =>
    rw [readField, Codec.readField, Cursor.readVarint_eq fits]
    cases varint : cursor.reader.readVarint with
    | error error => rfl
    | ok result =>
      obtain ⟨index, after⟩ := result
      obtain ⟨bytes, spelled, passes⟩ := (Reader.recognizes_readVarint _ _ _).mp varint
      obtain ⟨stands, fits⟩ := Cursor.reader_of_passes fits passes
      have number := toNat_index spelled
      simp only [Except.map, Cursor.resume, Outcome.ok_bind, number]
      cases codec.dictionary.get? index with
      | none => rfl
      | some entry =>
        cases alone : entry.isNameOnly with
        | false => simp [alone, Option.filter]
        | true =>
          simp only [alone, Option.filter, if_true, Cursor.readNonEmpty_eq fits, stands]
          cases after.readNonEmpty codec.coder <;> rfl
  | literal =>
    rw [readField, Codec.readField, Cursor.readNonEmpty_eq fits]
    cases name : cursor.reader.readNonEmpty codec.coder with
    | error error => rfl
    | ok result =>
      obtain ⟨text, after⟩ := result
      obtain ⟨bytes, -, passes⟩ := (Reader.recognizes_readNonEmpty codec.coder _ _ _).mp name
      obtain ⟨stands, fits⟩ := Cursor.reader_of_passes fits passes
      simp only [Cursor.resume, Outcome.ok_bind, Cursor.readNonEmpty_eq fits, stands]
      cases after.readNonEmpty codec.coder <;> rfl

theorem readEntry_eq (fits : cursor.Fits) (coder : Coder) :
    readEntry coder cursor = cursor.resume (Codec.readEntry coder cursor.reader) := by
  rw [readEntry, Codec.readEntry, Cursor.readLiteral_eq fits]
  cases name : cursor.reader.readLiteral coder with
  | error error => rfl
  | ok result =>
    obtain ⟨text, after⟩ := result
    obtain ⟨bytes, -, passes⟩ := (Reader.recognizes_readLiteral coder _ _ _).mp name
    obtain ⟨stands, fits⟩ := Cursor.reader_of_passes fits passes
    simp only [Cursor.resume, Outcome.ok_bind, Cursor.readLiteral_eq fits, stands]
    split
    · rfl
    · cases after.readLiteral coder <;> rfl

/-- At the end of a section there is no next item. Elsewhere the cursor reads what the reader
reads. -/
def Mirrors (next : Cursor → Checked DecodeError (Option (α × Cursor)))
    (read : Reader → Except DecodeError (α × Reader)) : Prop :=
  ∀ cursor : Cursor, cursor.Fits → next cursor =
    if cursor.reader.rest.isEmpty then .ok none
    else (cursor.resume (read cursor.reader)).map some

theorem mirrors_nextEntry (coder : Coder) : Mirrors (nextEntry coder) (Codec.readEntry coder) := by
  intro cursor fits
  have atEnd : cursor.isEmpty = cursor.reader.rest.isEmpty := by
    rw [Bool.eq_iff_iff]
    simp [Cursor.isEmpty, Cursor.reader]
  rw [nextEntry, atEnd, readEntry_eq fits]

theorem mirrors_nextField (codec : Codec) : Mirrors (nextField codec) codec.readTagged := by
  intro cursor fits
  rw [nextField, Cursor.nextByte]
  cases here : cursor.buffer[cursor.position]? with
  | none =>
    have outside : cursor.reader = ⟨cursor.position, []⟩ := by
      rw [Cursor.reader, List.drop_eq_nil_iff.mpr (List.getElem?_eq_none_iff.mp here)]
    rw [outside]
    rfl
  | some tag =>
    obtain ⟨inside, rfl⟩ := List.getElem?_eq_some_iff.mp here
    have sum : cursor.position + 1 < UInt64.size := by
      have length := fits.length_lt
      exact lt_word (by omega)
    have behind : { cursor with position := cursor.position + 1 }.Fits := ⟨inside, fits.length_lt⟩
    rw [Cursor.reader, List.drop_eq_getElem_cons inside]
    simp only [add, if_pos sum, subtract, Nat.le_add_left, if_true, Nat.add_sub_cancel,
      Outcome.ok_bind, List.isEmpty_cons, Bool.false_eq_true, if_false, Codec.readTagged]
    cases FieldKind.ofTag? cursor.buffer[cursor.position] with
    | none => rfl
    | some kind =>
      dsimp only
      rw [readField_eq behind, Cursor.reader]
      cases codec.readField kind _ <;> rfl

/-- A loop is done after as many rounds as there are bytes left, and one more to find that out. -/
theorem collect_eq {next : Cursor → Checked DecodeError (Option (α × Cursor))}
    {read : Reader → Except DecodeError (α × Reader)} {spells : Bytes → α → Prop}
    {loop : List α → Reader → Except DecodeError (List α)} (mirrors : Mirrors next read)
    (recognizes : Reader.Recognizes read spells) (productive : Reader.Productive spells)
    (repeats : Reader.Repeats loop read) (fits : cursor.Fits) {rounds : Nat}
    (enough : cursor.reader.rest.length < rounds) (done : List α) :
    collect next rounds done cursor = (loop done cursor.reader).mapError .refused := by
  induction rounds generalizing cursor done with
  | zero => exact absurd enough (Nat.not_lt_zero _)
  | succ rounds ih =>
    rw [collect, mirrors cursor fits, repeats done cursor.reader]
    split
    · rfl
    cases step : read cursor.reader with
    | error error => rfl
    | ok result =>
      obtain ⟨item, after⟩ := result
      obtain ⟨bytes, spelled, passes⟩ := (recognizes _ _ _).mp step
      obtain ⟨stands, fits⟩ := Cursor.reader_of_passes fits passes
      have shorter : after.rest.length < rounds :=
        Nat.lt_of_lt_of_le (recognizes.length_lt_of_read productive step) (Nat.le_of_lt_succ enough)
      rw [← stands] at shorter
      simp only [Cursor.resume, Except.map, Outcome.ok_bind]
      rw [ih fits shorter, stands]

section

variable {rounds : Nat}

theorem decodeBody_eq (sound : codec.Sound) {body : Bytes} (enough : body.length < rounds) :
    decodeBody rounds codec body = (codec.decodeBody body).mapError .refused := by
  unfold decodeBody Codec.decodeBody
  dsimp only
  split
  · rfl
  next fits =>
    have small : body.length ≤ Limits.maxDumpEntriesSize := by
      have := sound.le_max
      simp only [Limits.maxMaxFrameSize, Limits.maxDumpEntriesSize] at this ⊢
      omega
    exact collect_eq (mirrors_nextField codec) (Codec.recognizes_readTagged codec)
      (Codec.productive_spells codec) (Codec.repeats_readFields codec)
      (Cursor.fits_ofSection small) enough []

theorem decode_eq (sound : codec.Sound) {frame : Bytes} (enough : frame.length < rounds) :
    decode rounds codec frame = (codec.decode frame).mapError .refused := by
  match frame with
  | [] => rfl
  | [_] => rfl
  | low :: high :: body =>
    unfold decode Codec.decode
    dsimp only
    split
    · rfl
    split
    · rfl
    · refine decodeBody_eq sound ?_
      simp only [List.length_cons] at enough
      omega

theorem loadEntries_eq {entries : Bytes} (small : entries.length ≤ Limits.maxDumpEntriesSize)
    (enough : entries.length < rounds) (maxFrameSize : Nat) :
    loadEntries rounds codec maxFrameSize entries =
      (codec.loadEntries maxFrameSize entries).mapError .refused := by
  unfold loadEntries Codec.loadEntries
  rw [collect_eq (mirrors_nextEntry codec.coder) (Codec.recognizes_readEntry codec.coder)
    (Codec.productive_spellsEntry codec.coder) (Codec.repeats_readEntries codec.coder)
    (Cursor.fits_ofSection small) enough, Cursor.reader_ofSection]
  cases Codec.readEntries codec.coder [] (.ofSection entries) with
  | error cause => rfl
  | ok fields =>
    simp only [Except.mapError, Outcome.ok_bind]
    cases Codec.checkContent (.ofFields fields) <;> rfl

theorem load_eq {bytes : Bytes} (enough : bytes.length < rounds) :
    load rounds codec bytes = (codec.load bytes).mapError .refused := by
  unfold load Codec.load
  dsimp only
  split
  · rfl
  cases checked : (Codec.DumpHeader.ofBytes (bytes.take Limits.dumpHeaderSize)).check with
  | error cause => rfl
  | ok done =>
    simp only [Except.mapError, Outcome.ok_bind]
    split
    · rfl
    next announced =>
      have small := (Codec.DumpHeader.check_eq_ok_iff.mp checked).2
      rw [not_not.mp announced] at small
      refine loadEntries_eq small ?_ _
      rw [List.length_drop]
      omega

end

section

open Relation (TransGen)

theorem moves_of_readNonEmpty {coder : Coder} {text : Bytes}
    (read : cursor.readNonEmpty coder = .ok (text, after)) : Cursor.Moves coder cursor after := by
  obtain ⟨⟨literal, middle⟩, literal_read, read⟩ := Outcome.bind_eq_ok_iff.mp read
  dsimp only at read
  split at read
  · cases read
  · cases read
    exact .literal literal_read

theorem moves_of_readField {kind : FieldKind} {field : Field}
    (read : readField codec kind cursor = .ok (field, after)) :
    TransGen (Cursor.Moves codec.coder) cursor after := by
  cases kind with
  | indexed =>
    obtain ⟨⟨index, middle⟩, varint, read⟩ := Outcome.bind_eq_ok_iff.mp read
    dsimp only at read
    split at read
    · cases read
    · cases read
      exact .single (.varint varint)
  | nameReference =>
    obtain ⟨⟨index, middle⟩, varint, read⟩ := Outcome.bind_eq_ok_iff.mp read
    dsimp only at read
    split at read
    · cases read
    · obtain ⟨⟨value, last⟩, literal, read⟩ := Outcome.bind_eq_ok_iff.mp read
      cases read
      exact .tail (.single (.varint varint)) (moves_of_readNonEmpty literal)
  | literal =>
    obtain ⟨⟨name, middle⟩, name_read, read⟩ := Outcome.bind_eq_ok_iff.mp read
    obtain ⟨⟨value, last⟩, value_read, read⟩ := Outcome.bind_eq_ok_iff.mp read
    cases read
    exact .tail (.single (moves_of_readNonEmpty name_read)) (moves_of_readNonEmpty value_read)

theorem moves_of_nextField {field : Field}
    (read : nextField codec cursor = .ok (some (field, after))) :
    TransGen (Cursor.Moves codec.coder) cursor after := by
  obtain ⟨tagged, byte, read⟩ := Outcome.bind_eq_ok_iff.mp read
  split at read
  · cases read
  · obtain ⟨offset, -, read⟩ := Outcome.bind_eq_ok_iff.mp read
    split at read
    · cases read
    · obtain ⟨result, field_read, same⟩ := Outcome.map_eq_ok_iff.mp read
      cases same
      exact .head (.byte byte) (moves_of_readField field_read)

theorem moves_of_nextEntry {coder : Coder} {entry : Field}
    (read : nextEntry coder cursor = .ok (some (entry, after))) :
    TransGen (Cursor.Moves coder) cursor after := by
  unfold nextEntry at read
  split at read
  · cases read
  obtain ⟨result, entry_read, same⟩ := Outcome.map_eq_ok_iff.mp read
  cases same
  obtain ⟨⟨name, middle⟩, name_read, entry_read⟩ := Outcome.bind_eq_ok_iff.mp entry_read
  dsimp only at entry_read
  split at entry_read
  · cases entry_read
  obtain ⟨⟨value, last⟩, value_read, entry_read⟩ := Outcome.bind_eq_ok_iff.mp entry_read
  cases entry_read
  exact .tail (.single (.literal name_read)) (.literal value_read)

end

/-- Whatever the bytes are, they are decoded without a trap and in no more rounds than their number,
and refused only at places inside of them. Coded literals are decoded inside of the array of nodes,
which has no empty slots. -/
theorem adversarial_input_handled {codec : Codec} (reachable : codec.Reachable) (bytes : Bytes) :
    (∀ rounds, bytes.length < rounds →
        decode rounds codec bytes = (codec.decode bytes).mapError .refused ∧
        decodeBody rounds codec bytes = (codec.decodeBody bytes).mapError .refused ∧
        load rounds codec bytes = (codec.load bytes).mapError .refused) ∧
      (∀ cursor, Cursor.Reached codec.coder bytes cursor →
        cursor.buffer = bytes ∧ cursor.position ≤ bytes.length ∧
        (∀ field after, nextField codec cursor = .ok (some (field, after)) →
          cursor.position < after.position ∧ Cursor.Reached codec.coder bytes after) ∧
        (∀ entry after, nextEntry codec.coder cursor = .ok (some (entry, after)) →
          cursor.position < after.position ∧ Cursor.Reached codec.coder bytes after)) ∧
      (∀ coded, decodeWith codec.coder coded = (codec.coder.decode coded).mapError .refused ∧
        decodeWith codec.coder coded ≠ .error (.refused .invalidCode)) ∧
      (∀ cause, codec.decode bytes = .error cause →
        cause.Inside (bytes.length - Limits.frameLengthSize)) ∧
      (∀ cause, codec.decodeBody bytes = .error cause → cause.Inside bytes.length) ∧
      (∀ cause, codec.load bytes = .error (.decode cause) →
        cause.Inside (bytes.length - Limits.dumpHeaderSize)) := by
  refine ⟨?_, ?_, ?_, fun _ => Codec.inside_of_decode, fun _ => Codec.inside_of_decodeBody,
    fun _ => Codec.inside_of_load⟩
  · intro rounds enough
    exact ⟨decode_eq reachable.sound enough, decodeBody_eq reachable.sound enough,
      load_eq enough⟩
  · intro cursor reached
    refine ⟨reached.inside.1, reached.inside.2, ?_, ?_⟩
    · intro field after read
      have moves := moves_of_nextField read
      exact ⟨(Cursor.ahead_of_moves moves).lt, reached.trans moves.to_reflTransGen⟩
    · intro entry after read
      have moves := moves_of_nextEntry read
      exact ⟨(Cursor.ahead_of_moves moves).lt, reached.trans moves.to_reflTransGen⟩
  · intro coded
    exact ⟨decodeWith_eq codec.coder coded, decodeWith_ne_invalidCode codec.coder coded⟩

def hugeClaim : Bytes := [1, 254, 255, 255, 255, 255, 255, 255, 255, 255, 1]

theorem adversarial_input_handled_huge :
    Codec.sample.Reachable ∧
      decodeBody 12 Codec.sample hugeClaim =
        .error (.refused (.truncatedLiteral (2 ^ 63 - 1) 0)) ∧
      DecodeError.Inside hugeClaim.length (.truncatedLiteral (2 ^ 63 - 1) 0) := by
  have refused : Codec.sample.decodeBody hugeClaim =
      .error (.truncatedLiteral (2 ^ 63 - 1) 0) := by
    cbv
  have handled := adversarial_input_handled Codec.reachable_sample hugeClaim
  have decoded := (handled.1 12 (by decide)).2.1
  rw [refused] at decoded
  exact ⟨Codec.reachable_sample, decoded, handled.2.2.2.2.1 _ refused⟩

end HeaderCodec.Machine
