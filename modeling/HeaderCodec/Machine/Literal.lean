import HeaderCodec.Frame.Literal
import HeaderCodec.Machine.Varint

/-! Bits that do not fill a byte yet wait at the lower end of a word. How many bytes a coder will
write is foretold from the lengths of the codes, and stands in front of what it writes. -/

namespace HeaderCodec.Machine

variable {ε : Type}

/-- A buffer and the `count` lowest bits of a word, highest first, that wait to follow it. -/
structure Packer where
  buffer : Bytes
  word : UInt64
  count : Nat
  deriving DecidableEq, Repr

namespace Packer

def behind (buffer : Bytes) : Packer := ⟨buffer, 0, 0⟩

/-- Moves whole bytes into the buffer. The bits that were moved stay in the word, above those that
count. -/
def drain (packer : Packer) : Checked ε Packer :=
  if 8 ≤ packer.count then do
    let count := packer.count - 8
    let high ← shiftRight packer.word count
    drain { packer with buffer := packer.buffer ++ [high.toUInt8], count }
  else .ok packer
termination_by packer.count

def push (packer : Packer) (code : Huffman.Code) : Checked ε Packer := do
  let word ← shiftLeft packer.word code.length
  let count ← add UInt32.size packer.count code.length
  let packer ← drain { packer with word := word ||| code.bits.toUInt64, count }
  let room ← shiftLeft 1 packer.count
  .ok { packer with word := packer.word &&& (room - 1) }

/-- Fills an open byte with ones. -/
def finish (packer : Packer) : Checked ε Bytes :=
  if 0 < packer.count then do
    let room ← subtract 8 packer.count
    let word ← shiftLeft packer.word room
    let ones ← shiftByteRight 0xff packer.count
    .ok (packer.buffer ++ [word.toUInt8 ||| ones])
  else .ok packer.buffer

/-- `Huffman.encodeOnto` with the open bits in a word. -/
def encodeOnto (buffer payload : Bytes) : Checked ε Bytes := do
  let packer ← payload.foldlM (fun packer byte => packer.push (Huffman.codeOf byte)) (behind buffer)
  packer.finish

def codedSize (payload : Bytes) : Checked ε Nat := do
  let bits ← payload.foldlM
    (fun bits byte => add UInt64.size bits (Huffman.codeOf byte).length) 0
  .ok ((bits + 7) / 8)

end Packer

def codedSizeWith : Coder → Bytes → Checked ε Nat
  | .huffman, payload => Packer.codedSize payload
  | .passthrough, payload => .ok payload.length

def encodeWith : Coder → (buffer payload : Bytes) → Checked ε Bytes
  | .huffman, buffer, payload => Packer.encodeOnto buffer payload
  | .passthrough, buffer, payload => .ok (buffer ++ payload)

structure Misjudged where
  foretold : Nat
  written : Nat
  deriving DecidableEq, Repr

/-- Puts a literal behind the bytes of a buffer. What a coder writes is counted once more behind the
number that announces it. -/
def writeLiteral (coder : Coder) (buffer payload : Bytes) : Checked Misjudged Bytes := do
  let length := payload.length
  let size ← if length = 0 then .ok length else codedSizeWith coder payload
  if size < length then
    let (buffer, _) ← writeVarint buffer (size.toUInt64 <<< 1 ||| Literal.codedFlag.toUInt64)
    let start := buffer.length
    let buffer ← encodeWith coder buffer payload
    let written ← subtract buffer.length start
    if written = size then .ok buffer else .error (.refused ⟨size, written⟩)
  else
    let (buffer, _) ← writeVarint buffer (length.toUInt64 <<< 1)
    .ok (buffer ++ payload)

end HeaderCodec.Machine
