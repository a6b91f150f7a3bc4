import HeaderCodec.Coder
import HeaderCodec.Machine.Checked

/-! The nodes of the code tree stand in one array. Each holds two slots of 16 bits: a marked one is
a leaf, zero says that there is nothing below, and any other number is the place of a node. -/

namespace HeaderCodec.Machine

open Huffman (Symbol)

namespace Slot

def empty : UInt16 := 0

/-- The bit that tells a leaf from the place of a node. -/
def leafMark : UInt16 := 0x8000

def number : Symbol → UInt16
  | .byte value => value.toUInt16
  | .endOfString => 256

def leaf (symbol : Symbol) : UInt16 := leafMark ||| number symbol

end Slot

structure Node where
  zero : UInt16
  one : UInt16
  deriving DecidableEq, Repr

namespace Node

def new : Node := ⟨Slot.empty, Slot.empty⟩

def slot (node : Node) (bit : Bool) : UInt16 :=
  if bit then node.one else node.zero

def put (node : Node) (bit : Bool) (slot : UInt16) : Node :=
  if bit then { node with one := slot } else { node with zero := slot }

end Node

abbrev Nodes := List Node

namespace Nodes

variable {ε : Type}

def putSlot (nodes : Nodes) (place : Nat) (bit : Bool) (slot : UInt16) : Checked ε Nodes := do
  let node ← fetch nodes place
  store nodes place (node.put bit slot)

/-- Follows a code from the node at `place` on, with new nodes where there are none, and puts its
symbol into the last slot. -/
def insert (symbol : Symbol) (nodes : Nodes) (place : Nat) : List Bool → Checked ε Nodes
  | [] => .ok nodes
  | [bit] => nodes.putSlot place bit (Slot.leaf symbol)
  | bit :: path => do
    let node ← fetch nodes place
    let slot := node.slot bit
    if slot = Slot.empty then
      let nodes := nodes ++ [.new]
      let next ← subtract nodes.length 1
      let nodes ← nodes.putSlot place bit next.toUInt16
      insert symbol nodes next path
    else insert symbol nodes slot.toNat path

/-- The array of the whole code, from a root that has nothing below. -/
def build : Checked ε Nodes :=
  Huffman.symbolPaths.foldlM (fun nodes (symbol, path) => nodes.insert symbol 0 path) [.new]

/-- Where decoding stands: the bytes decoded so far, last one first, the place of a node, and what
the bits on the way from the root to it were. -/
structure Walk where
  decoded : Bytes
  place : Nat
  depth : Nat
  allOnes : Bool
  deriving DecidableEq, Repr

namespace Walk

def atRoot (decoded : Bytes) : Walk := ⟨decoded, 0, 0, true⟩

def step (nodes : Nodes) (walk : Walk) (bit : Bool) : Checked Huffman.Error Walk := do
  let depth ← add UInt32.size walk.depth 1
  let node ← fetch nodes walk.place
  let slot := node.slot bit
  if slot = Slot.empty then .error (.refused .invalidCode)
  else if slot &&& Slot.leafMark ≠ 0 then
    let symbol := slot &&& ~~~Slot.leafMark
    if symbol = Slot.number .endOfString then .error (.refused .endOfStringInside)
    else .ok (.atRoot (symbol.toUInt8 :: walk.decoded))
  else .ok ⟨walk.decoded, slot.toNat, depth, walk.allOnes && bit⟩

def finish (walk : Walk) : Checked Huffman.Error Bytes :=
  if 7 < walk.depth || !walk.allOnes then .error (.refused .invalidPadding)
  else .ok walk.decoded.reverse

end Walk

def decode (coded : Bytes) : Checked Huffman.Error Bytes := do
  let nodes ← build
  let walk ← (coded.flatMap Huffman.bitsOf).foldlM (Walk.step nodes) (.atRoot [])
  walk.finish

end Nodes

def decodeWith : Coder → Bytes → Checked Huffman.Error Bytes
  | .huffman, coded => Nodes.decode coded
  | .passthrough, coded => .ok coded

end HeaderCodec.Machine
