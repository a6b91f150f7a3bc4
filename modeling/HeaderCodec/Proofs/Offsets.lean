import HeaderCodec.Proofs.Dump
import HeaderCodec.Proofs.Grammar

/-! Each error of a reading step is found at a place that the step comes to. What a reader has
passed and what is left make up its section, so the places that its errors name are ones of the
section. -/

namespace HeaderCodec

/-- Places that the error names are inside of a section of that size, its end included. A literal
that is cut off claims more than what is left of the section. -/
def DecodeError.Inside (size : Nat) : DecodeError → Prop
  | unknownFieldKind _ offset => offset ≤ size
  | truncatedField offset => offset ≤ size
  | truncatedLiteral claimed remaining => remaining < claimed ∧ remaining ≤ size
  | emptyLiteral offset => offset ≤ size
  | varintOverflow offset => offset ≤ size
  | invalidEntropyCoding offset => offset ≤ size
  | _ => True

/-- What is wrong is wrong with the bytes at this place: the place that the error names is this one,
and a literal that is cut off claims more than what is left. An index says only itself. -/
def DecodeError.FoundAt (place : Reader) : DecodeError → Prop
  | unknownFieldKind _ offset => offset = place.offset
  | unknownNameIndex _ | unknownPairIndex _ => True
  | truncatedField offset => offset = place.offset
  | truncatedLiteral claimed remaining => remaining < claimed ∧ remaining ≤ place.rest.length
  | emptyLiteral offset => offset = place.offset
  | varintOverflow offset => offset = place.offset
  | invalidEntropyCoding offset => offset = place.offset
  | _ => False

namespace Reader

variable {α : Type} {size : Nat} {reader after : Reader} {coder : Coder} {cause : DecodeError}

def Spans (size : Nat) (reader : Reader) : Prop :=
  reader.offset + reader.rest.length = size

theorem spans_ofSection (bytes : Bytes) : Spans bytes.length (ofSection bytes) :=
  Nat.zero_add _

theorem Spans.passes {bytes : Bytes} (spans : reader.Spans size)
    (passes : reader.Passes bytes after) : after.Spans size := by
  rw [Spans, passes.rest_eq, List.length_append] at spans
  rw [Spans, passes.offset_eq]
  omega

theorem Spans.offset_le (spans : reader.Spans size) : reader.offset ≤ size := by
  rw [Spans] at spans
  omega

/-- Reading on from here comes to the place where the error is found. -/
def Finds (reader : Reader) (cause : DecodeError) : Prop :=
  ∃ passed place, reader.Passes passed place ∧ cause.FoundAt place

theorem Finds.here (found : cause.FoundAt reader) : reader.Finds cause :=
  ⟨[], reader, ⟨rfl, rfl⟩, found⟩

theorem Finds.behind {bytes : Bytes} (passes : reader.Passes bytes after)
    (finds : after.Finds cause) : reader.Finds cause := by
  obtain ⟨passed, place, further, found⟩ := finds
  exact ⟨bytes ++ passed, place, passes.append further, found⟩

theorem Finds.inside (finds : reader.Finds cause) (spans : reader.Spans size) :
    cause.Inside size := by
  obtain ⟨passed, place, passes, found⟩ := finds
  have spans := spans.passes passes
  have offset := spans.offset_le
  cases cause with
  | unknownFieldKind | truncatedField | emptyLiteral | varintOverflow | invalidEntropyCoding =>
    exact le_of_eq_of_le found offset
  | truncatedLiteral claimed remaining =>
    rw [Spans] at spans
    exact ⟨found.1, found.2.trans (by omega)⟩
  | _ => trivial

theorem finds_of_readVarint (failed : reader.readVarint = .error cause) : reader.Finds cause := by
  unfold readVarint at failed
  split at failed
  · cases failed
  · cases failed
    exact .here rfl
  · cases failed
    exact .here rfl

theorem finds_of_readLiteral (failed : reader.readLiteral coder = .error cause) :
    reader.Finds cause := by
  unfold readLiteral at failed
  split at failed
  next varint =>
    cases failed
    exact finds_of_readVarint varint
  next head after varint =>
    obtain ⟨bytes, -, passes⟩ := (recognizes_readVarint _ _ _).mp varint
    simp only [Bytes.split_eq] at failed
    split at failed
    next short =>
      cases failed
      exact .behind passes (.here ⟨short, List.length_take_le' _ _⟩)
    split at failed
    · cases failed
    split at failed
    · cases failed
    · cases failed
      exact .here rfl

theorem finds_of_readNonEmpty (failed : reader.readNonEmpty coder = .error cause) :
    reader.Finds cause := by
  unfold readNonEmpty at failed
  split at failed
  next literal =>
    cases failed
    exact finds_of_readLiteral literal
  · split at failed
    · cases failed
      exact .here rfl
    · cases failed

end Reader

namespace Codec

variable {codec : Codec} {size : Nat} {reader : Reader} {coder : Coder} {cause : DecodeError}

theorem finds_of_readField {kind : FieldKind}
    (failed : codec.readField kind reader = .error cause) : reader.Finds cause := by
  unfold readField at failed
  split at failed
  · split at failed
    next varint =>
      cases failed
      exact Reader.finds_of_readVarint varint
    · split at failed
      · split at failed
        · cases failed
          exact .here trivial
        · cases failed
      · cases failed
        exact .here trivial
  · split at failed
    next varint =>
      cases failed
      exact Reader.finds_of_readVarint varint
    next varint =>
      obtain ⟨bytes, -, passes⟩ := (Reader.recognizes_readVarint _ _ _).mp varint
      split at failed
      · split at failed
        · split at failed
          next value =>
            cases failed
            exact .behind passes (Reader.finds_of_readNonEmpty value)
          · cases failed
        · cases failed
          exact .here trivial
      · cases failed
        exact .here trivial
  · split at failed
    next name =>
      cases failed
      exact Reader.finds_of_readNonEmpty name
    next name =>
      obtain ⟨bytes, -, passes⟩ := (Reader.recognizes_readNonEmpty codec.coder _ _ _).mp name
      split at failed
      next value =>
        cases failed
        exact .behind passes (Reader.finds_of_readNonEmpty value)
      · cases failed

theorem finds_of_readTagged (failed : codec.readTagged reader = .error cause) :
    reader.Finds cause := by
  obtain ⟨offset, bytes⟩ := reader
  cases bytes with
  | nil =>
    cases failed
    exact .here rfl
  | cons tag rest =>
    unfold readTagged at failed
    dsimp only at failed
    split at failed
    · cases failed
      exact .here rfl
    · exact .behind (Reader.passes_mk offset [tag] rest) (finds_of_readField failed)

theorem finds_of_decodeBody {body : Bytes} (fits : body.length ≤ codec.maxFrameSize)
    (failed : codec.decodeBody body = .error cause) : (Reader.ofSection body).Finds cause := by
  unfold decodeBody at failed
  dsimp only at failed
  rw [if_neg (Nat.not_lt.mpr fits)] at failed
  obtain ⟨passed, before, passes, here⟩ := (recognizes_readTagged codec).read_of_loop_error
    (productive_spells codec) (repeats_readFields codec) failed
  exact .behind passes (finds_of_readTagged here)

theorem inside_of_readEntry (failed : readEntry coder reader = .error cause)
    (spans : reader.Spans size) : cause.Inside size := by
  unfold readEntry at failed
  split at failed
  next name =>
    cases failed
    exact (Reader.finds_of_readLiteral name).inside spans
  next name =>
    obtain ⟨bytes, -, passes⟩ := (Reader.recognizes_readLiteral coder _ _ _).mp name
    split at failed
    · cases failed
      trivial
    split at failed
    next value =>
      cases failed
      exact (Reader.finds_of_readLiteral value).inside (spans.passes passes)
    · cases failed

theorem inside_of_decodeBody {body : Bytes} (failed : codec.decodeBody body = .error cause) :
    cause.Inside body.length := by
  by_cases fits : body.length ≤ codec.maxFrameSize
  · exact (finds_of_decodeBody fits failed).inside (Reader.spans_ofSection body)
  · unfold decodeBody at failed
    dsimp only at failed
    rw [if_pos (Nat.lt_of_not_le fits)] at failed
    cases failed
    trivial

theorem inside_of_decode {frame : Bytes} (failed : codec.decode frame = .error cause) :
    cause.Inside (frame.length - Limits.frameLengthSize) := by
  unfold decode at failed
  split at failed
  · dsimp only at failed
    split at failed
    · cases failed
      trivial
    split at failed
    · cases failed
      trivial
    · exact inside_of_decodeBody failed
  · cases failed
    trivial

theorem inside_of_check {header : DumpHeader} (failed : header.check = .error (.decode cause)) :
    cause.Inside size := by
  unfold DumpHeader.check at failed
  rcases Outcome.bind_eq_error_iff.mp failed with maximum | ⟨_, -, length⟩
  · obtain ⟨inner, -, same⟩ := Outcome.mapError_eq_error_iff.mp maximum
    cases same
  · unfold DumpHeader.checkEntriesLength at length
    split at length
    · cases length
    · cases length
      trivial

theorem inside_of_loadEntries {maxFrameSize : Nat} {entries : Bytes}
    (failed : codec.loadEntries maxFrameSize entries = .error (.decode cause)) :
    cause.Inside entries.length := by
  unfold loadEntries at failed
  rcases Outcome.bind_eq_error_iff.mp failed with read | ⟨fields, -, checked⟩
  · obtain ⟨inner, read, same⟩ := Outcome.mapError_eq_error_iff.mp read
    cases same
    obtain ⟨passed, before, passes, here⟩ :=
      (recognizes_readEntry codec.coder).read_of_loop_error (productive_spellsEntry codec.coder)
        (repeats_readEntries codec.coder) read
    exact inside_of_readEntry here ((Reader.spans_ofSection entries).passes passes)
  · rcases Outcome.bind_eq_error_iff.mp checked with checked | ⟨_, -, made⟩
    · obtain ⟨inner, -, same⟩ := Outcome.mapError_eq_error_iff.mp checked
      cases same
    · cases made

theorem inside_of_load {bytes : Bytes} (failed : codec.load bytes = .error (.decode cause)) :
    cause.Inside (bytes.length - Limits.dumpHeaderSize) := by
  unfold load at failed
  dsimp only at failed
  split at failed
  · cases failed
    trivial
  rcases Outcome.bind_eq_error_iff.mp failed with checked | ⟨_, -, failed⟩
  · exact inside_of_check checked
  · split at failed
    · cases failed
      trivial
    · rw [← List.length_drop]
      exact inside_of_loadEntries failed

end Codec

end HeaderCodec
