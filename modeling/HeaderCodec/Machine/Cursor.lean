import HeaderCodec.Codec.Error
import HeaderCodec.Machine.Nodes
import HeaderCodec.Varint

/-! A cursor is a place in a section that stays in its buffer. What is read is taken out of the
buffer at the place of the cursor, with the sums and the slices that this takes. -/

namespace HeaderCodec.Machine

/-- Reads the groups of a varint from the byte at `position` on. The bits of a group are put into
the word at their place. -/
def scanFrom (position shift : Nat) (value : UInt64) :
    Bytes → Checked Varint.Error (UInt64 × Nat)
  | [] => .error (.refused .unexpectedEof)
  | byte :: rest => do
    let group := (byte &&& 0x7f).toUInt64
    if shift = Varint.maxShift ∧ (1 < group ∨ byte &&& 0x80 ≠ 0) then
      .error (.refused .overflow)
    else
      let bits ← shiftLeft group shift
      let size ← add UInt64.size position 1
      if byte &&& 0x80 = 0 then .ok (value ||| bits, size)
      else
        let shift ← add UInt32.size shift 7
        scanFrom size shift (value ||| bits) rest

def scan (bytes : Bytes) : Checked Varint.Error (UInt64 × Nat) :=
  scanFrom 0 0 0 bytes

structure Cursor where
  buffer : Bytes
  position : Nat
  deriving DecidableEq, Repr

namespace Cursor

def ofSection (bytes : Bytes) : Cursor := ⟨bytes, 0⟩

def isEmpty (cursor : Cursor) : Bool := cursor.buffer.length ≤ cursor.position

def remaining (cursor : Cursor) : Nat := cursor.buffer.length - cursor.position

def nextByte (cursor : Cursor) : Checked DecodeError (Option (UInt8 × Cursor)) :=
  match cursor.buffer[cursor.position]? with
  | none => .ok none
  | some byte => do
    let position ← add UInt64.size cursor.position 1
    .ok (some (byte, { cursor with position }))

def varintError (offset : Nat) : Varint.Error → DecodeError
  | .unexpectedEof => .truncatedField offset
  | .overflow => .varintOverflow offset

def readVarint (cursor : Cursor) : Checked DecodeError (UInt64 × Cursor) := do
  let rest := cursor.buffer.drop cursor.position
  let (value, size) ← (scan rest).mapError (.map (varintError cursor.position))
  let position ← add UInt64.size cursor.position size
  .ok (value, { cursor with position })

def readLiteral (cursor : Cursor) (coder : Coder) : Checked DecodeError (Bytes × Cursor) := do
  let offset := cursor.position
  let (head, cursor) ← cursor.readVarint
  let claimed := (head >>> 1).toNat
  let remaining := cursor.remaining
  if remaining < claimed then .error (.refused (.truncatedLiteral claimed remaining))
  else
    let stop ← add UInt64.size cursor.position claimed
    let payload ← slice cursor.buffer cursor.position stop
    let cursor := { cursor with position := stop }
    if head &&& 1 = 0 then .ok (payload, cursor)
    else
      -- Room for the decoded bytes is set aside first. No code is shorter than five bits.
      let bits ← multiply UInt64.size payload.length 8
      let _ ← add (UInt64.size / 2) (bits / 5) 1
      let decoded ← (decodeWith coder payload).mapError (.map fun _ => .invalidEntropyCoding offset)
      .ok (decoded, cursor)

def readNonEmpty (cursor : Cursor) (coder : Coder) : Checked DecodeError (Bytes × Cursor) := do
  let offset := cursor.position
  let (literal, cursor) ← cursor.readLiteral coder
  if literal.isEmpty then .error (.refused (.emptyLiteral offset)) else .ok (literal, cursor)

end Cursor

end HeaderCodec.Machine
