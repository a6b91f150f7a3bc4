import HeaderCodec.Codec.Error
import HeaderCodec.Coder
import HeaderCodec.Varint

/-! A literal is a number and a payload: half the number is the length of the payload, and an odd
number says that the payload is entropy coded. -/

namespace HeaderCodec

namespace Literal

/-- What the number in front of a coded payload has on top of twice its length. -/
def codedFlag : Nat := 1

def encode (coder : Coder) (payload : Bytes) : Bytes :=
  let length := payload.length
  let codedSize := coder.codedSize payload
  if codedSize < length then Varint.encode (2 * codedSize + codedFlag) ++ coder.encode payload
  else Varint.encode (2 * length) ++ payload

end Literal

/-- A place inside a section, and the bytes from there on. -/
structure Reader where
  offset : Nat
  rest : Bytes
  deriving Repr, DecidableEq

namespace Reader

def ofSection (bytes : Bytes) : Reader := ⟨0, bytes⟩

def advance (reader : Reader) (count : Nat) : Reader :=
  ⟨reader.offset + count, reader.rest.drop count⟩

def readVarint (reader : Reader) : Except DecodeError (Nat × Reader) :=
  match Varint.decode reader.rest with
  | .ok (value, size) => .ok (value, reader.advance size)
  | .error .unexpectedEof => .error (.truncatedField reader.offset)
  | .error .overflow => .error (.varintOverflow reader.offset)

/-- Reads one literal. A payload shorter than it claims to be is all that remains. -/
def readLiteral (reader : Reader) (coder : Coder) : Except DecodeError (Bytes × Reader) :=
  let start := reader.offset
  match reader.readVarint with
  | .error error => .error error
  | .ok (head, after) =>
    let claimed := head / 2
    let (payload, rest) := after.rest.split claimed
    let size := payload.length
    if size < claimed then .error (.truncatedLiteral claimed size)
    else if head % 2 = 0 then .ok (payload, ⟨after.offset + claimed, rest⟩)
    else
      match coder.decode payload with
      | .ok decoded => .ok (decoded, ⟨after.offset + claimed, rest⟩)
      | .error _ => .error (.invalidEntropyCoding start)

/-- A literal that stands for a name or a value of a frame is not empty. -/
def readNonEmpty (reader : Reader) (coder : Coder) : Except DecodeError (Bytes × Reader) :=
  match reader.readLiteral coder with
  | .error error => .error error
  | .ok (literal, after) =>
    if literal.isEmpty then .error (.emptyLiteral reader.offset) else .ok (literal, after)

/-! Everything that is read takes at least one byte, so a section is read to its end. -/

theorem length_lt_of_readVarint {reader after : Reader} {value : Nat}
    (read : reader.readVarint = .ok (value, after)) :
    after.rest.length < reader.rest.length := by
  unfold readVarint at read
  split at read
  next decoded =>
    cases read
    have := Varint.size_of_decodeFrom decoded
    simp only [advance, List.length_drop]
    omega
  · cases read
  · cases read

theorem length_lt_of_readLiteral {reader after : Reader} {coder : Coder} {literal : Bytes}
    (read : reader.readLiteral coder = .ok (literal, after)) :
    after.rest.length < reader.rest.length := by
  unfold readLiteral at read
  split at read
  · cases read
  next head next varint =>
    have shorter := length_lt_of_readVarint varint
    have further : (next.rest.drop (head / 2)).length ≤ next.rest.length := by simp
    simp only [Bytes.split_eq] at read
    split at read
    · cases read
    split at read
    · cases read
      exact Nat.lt_of_le_of_lt further shorter
    split at read
    · cases read
      exact Nat.lt_of_le_of_lt further shorter
    · cases read

theorem length_lt_of_readNonEmpty {reader after : Reader} {coder : Coder} {literal : Bytes}
    (read : reader.readNonEmpty coder = .ok (literal, after)) :
    after.rest.length < reader.rest.length := by
  unfold readNonEmpty at read
  split at read
  · cases read
  next varint =>
    split at read
    · cases read
    · cases read
      exact length_lt_of_readLiteral varint

end Reader

end HeaderCodec
