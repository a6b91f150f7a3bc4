import HeaderCodec.Codec.Basic
import HeaderCodec.Frame.Literal

/-! A dump provisions another codec with the maximum frame size and the dictionary of this one. A
codec that cannot load a dump stays as it was. -/

namespace HeaderCodec.Codec

def dumpEntry (codec : Codec) (entry : Field) : Bytes :=
  Literal.encode codec.coder entry.name ++ Literal.encode codec.coder entry.value

def dumpEntries (codec : Codec) : Bytes :=
  codec.dictionary.entries.foldr (fun entry rest => codec.dumpEntry entry ++ rest) []

theorem dumpEntries_eq (codec : Codec) :
    codec.dumpEntries = codec.dictionary.entries.flatMap codec.dumpEntry := by
  unfold dumpEntries
  induction codec.dictionary.entries with
  | nil => rfl
  | cons entry rest ih => rw [List.foldr_cons, ih, List.flatMap_cons]

def dump (codec : Codec) : Bytes :=
  let entries := codec.dumpEntries
  Bytes.ofNatLE 2 codec.maxFrameSize ++ Bytes.ofNatLE 4 entries.length ++ entries

structure DumpHeader where
  maxFrameSize : Nat
  entriesLength : Nat
  deriving Repr, DecidableEq

namespace DumpHeader

def ofBytes (bytes : Bytes) : DumpHeader :=
  ⟨Bytes.toNatLE (bytes.take 2), Bytes.toNatLE ((bytes.drop 2).take 4)⟩

def checkEntriesLength (header : DumpHeader) : Except CodecError Unit :=
  if header.entriesLength ≤ Limits.maxDumpEntriesSize then .ok ()
  else .error (.decode (.invalidDump .entriesTooLarge))

def check (header : DumpHeader) : Except CodecError Unit := do
  (checkMaxFrameSize header.maxFrameSize).mapError .config
  header.checkEntriesLength

end DumpHeader

def readEntry (coder : Coder) (reader : Reader) : Except DecodeError (Field × Reader) :=
  match reader.readLiteral coder with
  | .error error => .error error
  | .ok (name, after) =>
    if name.isEmpty then .error (.invalidDump .emptyEntryName)
    else
      match after.readLiteral coder with
      | .error error => .error error
      | .ok (value, after) => .ok (⟨name, value⟩, after)

theorem length_lt_of_readEntry {coder : Coder} {reader after : Reader} {entry : Field}
    (read : readEntry coder reader = .ok (entry, after)) :
    after.rest.length < reader.rest.length := by
  unfold readEntry at read
  split at read
  · cases read
  next name =>
    have := Reader.length_lt_of_readLiteral name
    split at read
    · cases read
    split at read
    · cases read
    next value =>
      have := Reader.length_lt_of_readLiteral value
      cases read
      omega

/-- Reads entries up to the end of their section, after the entries `done`, last one first. -/
def readEntries (coder : Coder) (done : List Field) (reader : Reader) :
    Except DecodeError (List Field) :=
  if reader.rest.isEmpty then .ok done.reverse
  else
    match read : readEntry coder reader with
    | .error error => .error error
    | .ok (entry, after) =>
      have := length_lt_of_readEntry read
      readEntries coder (entry :: done) after
termination_by reader.rest.length

/-- Takes over the maximum and the entries of a dump whose header was checked. The dictionary is
registered anew, so entries that a foreign dump leaves out or repeats do no harm. -/
def loadEntries (codec : Codec) (maxFrameSize : Nat) (entries : Bytes) :
    Except CodecError Codec := do
  let fields ← (readEntries codec.coder [] (.ofSection entries)).mapError .decode
  let dictionary := Dictionary.ofFields fields
  (checkContent dictionary).mapError .config
  return { codec with maxFrameSize, dictionary }

def load (codec : Codec) (bytes : Bytes) : Except CodecError Codec :=
  let opening := bytes.take Limits.dumpHeaderSize
  if opening.length < Limits.dumpHeaderSize then
    .error (.decode (.invalidDump .truncatedHeader))
  else do
    let header := DumpHeader.ofBytes opening
    let entries := bytes.drop Limits.dumpHeaderSize
    header.check
    if header.entriesLength ≠ entries.length then
      .error (.decode (.invalidDump .entriesLengthMismatch))
    else codec.loadEntries header.maxFrameSize entries

end HeaderCodec.Codec
