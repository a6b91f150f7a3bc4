import HeaderCodec.Codec.Dump
import HeaderCodec.Frame.Decoding
import HeaderCodec.Machine.Cursor

/-! Fields and entries are read in a loop, which is given a number of rounds and stopped by the
machine when it takes more. -/

namespace HeaderCodec.Machine

def readField (codec : Codec) (kind : FieldKind) (cursor : Cursor) :
    Checked DecodeError (Field × Cursor) :=
  match kind with
  | .indexed => do
    let (index, cursor) ← cursor.readVarint
    match (codec.dictionary.get? index.toNat).filter (!·.isNameOnly) with
    | none => .error (.refused (.unknownPairIndex index.toNat))
    | some entry => .ok (entry, cursor)
  | .nameReference => do
    let (index, cursor) ← cursor.readVarint
    match (codec.dictionary.get? index.toNat).filter (·.isNameOnly) with
    | none => .error (.refused (.unknownNameIndex index.toNat))
    | some entry =>
      let (value, cursor) ← cursor.readNonEmpty codec.coder
      .ok (⟨entry.name, value⟩, cursor)
  | .literal => do
    let (name, cursor) ← cursor.readNonEmpty codec.coder
    let (value, cursor) ← cursor.readNonEmpty codec.coder
    .ok (⟨name, value⟩, cursor)

def nextField (codec : Codec) (cursor : Cursor) : Checked DecodeError (Option (Field × Cursor)) := do
  match ← cursor.nextByte with
  | none => .ok none
  | some (tag, cursor) =>
    let offset ← subtract cursor.position 1
    match FieldKind.ofTag? tag with
    | none => .error (.refused (.unknownFieldKind tag offset))
    | some kind => (readField codec kind cursor).map some

def readEntry (coder : Coder) (cursor : Cursor) : Checked DecodeError (Field × Cursor) := do
  let (name, cursor) ← cursor.readLiteral coder
  if name.isEmpty then .error (.refused (.invalidDump .emptyEntryName))
  else
    let (value, cursor) ← cursor.readLiteral coder
    .ok (⟨name, value⟩, cursor)

def nextEntry (coder : Coder) (cursor : Cursor) : Checked DecodeError (Option (Field × Cursor)) :=
  if cursor.isEmpty then .ok none else (readEntry coder cursor).map some

/-- Takes steps as long as there is a next item. The items `done` come first, last one first. -/
def collect {α : Type} (next : Cursor → Checked DecodeError (Option (α × Cursor))) :
    (rounds : Nat) → (done : List α) → Cursor → Checked DecodeError (List α)
  | 0, _, _ => .error (.trapped .endless)
  | rounds + 1, done, cursor => do
    match ← next cursor with
    | none => .ok done.reverse
    | some (item, cursor) => collect next rounds (item :: done) cursor

def decodeBody (rounds : Nat) (codec : Codec) (body : Bytes) : Checked DecodeError (List Field) :=
  let actual := body.length
  if codec.maxFrameSize < actual then
    .error (.refused (.frameTooLarge codec.maxFrameSize actual))
  else collect (nextField codec) rounds [] (.ofSection body)

def decode (rounds : Nat) (codec : Codec) (frame : Bytes) : Checked DecodeError (List Field) :=
  match frame with
  | low :: high :: body =>
    let declared := Bytes.toNatLE [low, high]
    let available := body.length
    if codec.maxFrameSize < declared then
      .error (.refused (.frameTooLarge codec.maxFrameSize declared))
    else if declared ≠ available then .error (.refused (.lengthMismatch declared available))
    else decodeBody rounds codec body
  | _ => .error (.refused .missingLengthPrefix)

def loadEntries (rounds : Nat) (codec : Codec) (maxFrameSize : Nat) (entries : Bytes) :
    Checked CodecError Codec := do
  let fields ← (collect (nextEntry codec.coder) rounds [] (.ofSection entries)).mapError
    (.map .decode)
  let dictionary := Dictionary.ofFields fields
  (Codec.checkContent dictionary).mapError (.refused <| .config ·)
  return { codec with maxFrameSize, dictionary }

def load (rounds : Nat) (codec : Codec) (bytes : Bytes) : Checked CodecError Codec :=
  let opening := bytes.take Limits.dumpHeaderSize
  if opening.length < Limits.dumpHeaderSize then
    .error (.refused (.decode (.invalidDump .truncatedHeader)))
  else do
    let header := Codec.DumpHeader.ofBytes opening
    let entries := bytes.drop Limits.dumpHeaderSize
    header.check.mapError .refused
    if header.entriesLength ≠ entries.length then
      .error (.refused (.decode (.invalidDump .entriesLengthMismatch)))
    else loadEntries rounds codec header.maxFrameSize entries

end HeaderCodec.Machine
