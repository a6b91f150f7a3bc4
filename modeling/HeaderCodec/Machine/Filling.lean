import HeaderCodec.Machine.Nodes
import HeaderCodec.Pool.Buffer

/-! A byte goes into the buffer as soon as its code is complete. When decoding fails, the bytes that
were complete before are in the buffer all the same, and so is whatever was there at first. -/

namespace HeaderCodec.Machine

namespace Nodes

/-- A walk over the array that keeps its bytes in a buffer. -/
structure Filling where
  buffer : Buffer
  place : Nat
  depth : Nat
  allOnes : Bool
  deriving DecidableEq, Repr

structure Leftover where
  stop : Stop Huffman.Error
  buffer : Buffer
  deriving DecidableEq, Repr

namespace Filling

def atRoot (buffer : Buffer) : Filling := ⟨buffer, 0, 0, true⟩

def walk (filling : Filling) (decoded : Bytes) : Walk :=
  ⟨decoded, filling.place, filling.depth, filling.allOnes⟩

/-- Takes the step of a walk that has no bytes yet. The byte that it completes goes into the
buffer. -/
def step (nodes : Nodes) (filling : Filling) (bit : Bool) : Except Leftover Filling :=
  match (filling.walk []).step nodes bit with
  | .error stop => .error ⟨stop, filling.buffer⟩
  | .ok walk =>
    .ok ⟨filling.buffer.append walk.decoded.reverse, walk.place, walk.depth, walk.allOnes⟩

def finish (filling : Filling) : Except Leftover Buffer :=
  match (filling.walk []).finish with
  | .error stop => .error ⟨stop, filling.buffer⟩
  | .ok _ => .ok filling.buffer

end Filling

def fill (coded : Bytes) (buffer : Buffer) : Except Leftover Buffer := do
  let nodes ← build.mapError (⟨·, buffer⟩)
  let filling ← (coded.flatMap Huffman.bitsOf).foldlM (Filling.step nodes) (.atRoot buffer)
  filling.finish

/-- The buffer is there however filling ended. -/
def outcome : Except Leftover Buffer → Checked Huffman.Error Unit × Buffer
  | .error leftover => (.error leftover.stop, leftover.buffer)
  | .ok buffer => (.ok (), buffer)

def decodeInto (coded : Bytes) (buffer : Buffer) : Checked Huffman.Error Unit × Buffer :=
  outcome (fill coded buffer)

end Nodes

end HeaderCodec.Machine
