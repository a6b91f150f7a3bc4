import HeaderCodec.Codec.Basic
import HeaderCodec.Frame.Literal

/-! A body is read field by field up to its end. Reading needs no trust in its source, and the first
fault ends it. -/

namespace HeaderCodec.Codec

def readField (codec : Codec) (kind : FieldKind) (reader : Reader) :
    Except DecodeError (Field × Reader) :=
  match kind with
  | .indexed =>
    match reader.readVarint with
    | .error error => .error error
    | .ok (index, after) =>
      match codec.dictionary.get? index with
      | some entry =>
        if entry.isNameOnly then .error (.unknownPairIndex index) else .ok (entry, after)
      | none => .error (.unknownPairIndex index)
  | .nameReference =>
    match reader.readVarint with
    | .error error => .error error
    | .ok (index, after) =>
      match codec.dictionary.get? index with
      | some entry =>
        if entry.isNameOnly then
          match after.readNonEmpty codec.coder with
          | .error error => .error error
          | .ok (value, after) => .ok (⟨entry.name, value⟩, after)
        else .error (.unknownNameIndex index)
      | none => .error (.unknownNameIndex index)
  | .literal =>
    match reader.readNonEmpty codec.coder with
    | .error error => .error error
    | .ok (name, after) =>
      match after.readNonEmpty codec.coder with
      | .error error => .error error
      | .ok (value, after) => .ok (⟨name, value⟩, after)

theorem length_lt_of_readField {codec : Codec} {kind : FieldKind} {reader after : Reader}
    {field : Field} (read : codec.readField kind reader = .ok (field, after)) :
    after.rest.length < reader.rest.length := by
  unfold readField at read
  split at read
  · split at read
    · cases read
    next varint =>
      have := Reader.length_lt_of_readVarint varint
      split at read
      · split at read
        · cases read
        · cases read
          exact this
      · cases read
  · split at read
    · cases read
    next varint =>
      have := Reader.length_lt_of_readVarint varint
      split at read
      · split at read
        · split at read
          · cases read
          next literal =>
            have := Reader.length_lt_of_readNonEmpty literal
            cases read
            omega
        · cases read
      · cases read
  · split at read
    · cases read
    next name =>
      have := Reader.length_lt_of_readNonEmpty name
      split at read
      · cases read
      next value =>
        have := Reader.length_lt_of_readNonEmpty value
        cases read
        omega

/-- Reads fields up to the end of the section, after the fields `done`, last one first. -/
def readFields (codec : Codec) (done : List Field) (reader : Reader) :
    Except DecodeError (List Field) :=
  match reader with
  | ⟨_, []⟩ => .ok done.reverse
  | ⟨offset, tag :: rest⟩ =>
    match FieldKind.ofTag? tag with
    | none => .error (.unknownFieldKind tag offset)
    | some kind =>
      match read : codec.readField kind ⟨offset + 1, rest⟩ with
      | .error error => .error error
      | .ok (field, after) =>
        have : after.rest.length < rest.length := length_lt_of_readField read
        readFields codec (field :: done) after
termination_by reader.rest.length
decreasing_by
  simp_wf
  omega

def decodeBody (codec : Codec) (body : Bytes) : Except DecodeError (List Field) :=
  let actual := body.length
  if codec.maxFrameSize < actual then .error (.frameTooLarge codec.maxFrameSize actual)
  else codec.readFields [] (.ofSection body)

def decode (codec : Codec) (frame : Bytes) : Except DecodeError (List Field) :=
  match frame with
  | low :: high :: body =>
    let declared := Bytes.toNatLE [low, high]
    let available := body.length
    if codec.maxFrameSize < declared then .error (.frameTooLarge codec.maxFrameSize declared)
    else if declared ≠ available then .error (.lengthMismatch declared available)
    else codec.decodeBody body
  | _ => .error .missingLengthPrefix

/-- Decodes a frame behind fields collected before, and counts its own; a frame with a fault
adds none. -/
def decodeOnto (codec : Codec) (frame : Bytes) (collected : List Field) :
    Except DecodeError (Nat × List Field) :=
  (codec.decode frame).map fun fields => (fields.length, collected ++ fields)

end HeaderCodec.Codec
