import HeaderCodec.Huffman.Tree

/-! The codes of all bytes are put one after the other, highest bit first, and the last byte is
filled with ones, which are the first bits of the end-of-string code. -/

namespace HeaderCodec.Huffman

inductive Error
  | invalidCode
  | invalidPadding
  | endOfStringInside
  deriving DecidableEq, Repr

def Error.message : Error → String
  | .invalidCode => "invalid entropy code"
  | .invalidPadding => "invalid entropy coding padding"
  | .endOfStringInside => "end-of-string symbol inside entropy coded data"

/-- The bytes that the codes of `payload` take, rounded up. -/
def codedSize (payload : Bytes) : Nat :=
  (payload.foldl (fun bits byte => bits + (codeOf byte).length) 0 + 7) / 8

/-- Whole bytes, last one first, and the number that the `count` bits after them spell. -/
structure Packing where
  done : Bytes
  value : Nat
  count : Nat
  deriving DecidableEq, Repr

namespace Packing

def behind (buffer : Bytes) : Packing := ⟨buffer.reverse, 0, 0⟩

def push (packing : Packing) (bit : Bool) : Packing :=
  let value := 2 * packing.value + bit.toNat
  if packing.count = 7 then ⟨value.toUInt8 :: packing.done, 0, 0⟩
  else ⟨packing.done, value, packing.count + 1⟩

/-- Pushes the `length` lowest bits of `bits`, highest first, with the parts of the packing at
hand. This is what is run: a packing for every bit would be made only to be taken apart. -/
def pushBits (done : Bytes) (value count bits : Nat) : (length : Nat) → Packing
  | 0 => ⟨done, value, count⟩
  | length + 1 =>
    let value := value + value + (bits >>> length) % 2
    if count = 7 then pushBits (value.toUInt8 :: done) 0 0 bits length
    else pushBits done value (count + 1) bits length

theorem pushBits_eq (done : Bytes) (value count bits length : Nat) :
    pushBits done value count bits length =
      (Code.mk bits length).path.foldl push ⟨done, value, count⟩ := by
  induction length generalizing done value count with
  | zero => rfl
  | succ length ih =>
    have digit : (bits >>> length) % 2 = (bits.testBit length).toNat := by
      rw [Nat.toNat_testBit, Nat.shiftRight_eq_div_pow]
    have double : value + value = 2 * value := by omega
    simp only [pushBits, Code.path_succ, List.foldl_cons, push, digit, double]
    split <;> exact ih ..

/-- Fills an open byte with ones. -/
def finish : Packing → Bytes
  | ⟨done, value, count⟩ =>
    if count = 0 then done.reverse
    else
      let room := 1 <<< (8 - count)
      ((value * room + (room - 1)).toUInt8 :: done).reverse

end Packing

/-- Appends the codes of a payload to a buffer, from a new byte on. -/
def encodeOnto (buffer payload : Bytes) : Bytes :=
  (payload.foldl (fun packing byte =>
    let code := codeOf byte
    Packing.pushBits packing.done packing.value packing.count code.bits code.length)
    (.behind buffer)).finish

def encode (payload : Bytes) : Bytes :=
  encodeOnto [] payload

theorem encodeOnto_eq (buffer payload : Bytes) :
    encodeOnto buffer payload =
      ((payload.flatMap pathOf).foldl Packing.push (.behind buffer)).finish := by
  simp only [encodeOnto, Packing.pushBits_eq, List.foldl_flatMap, pathOf]

/-- Why decoding stopped, and the bytes that were complete before. -/
structure Failure where
  error : Error
  decoded : Bytes
  deriving DecidableEq, Repr

/-- A place in the code tree, the way to it, and the bytes read so far, last one first. -/
structure Walk where
  decoded : Bytes
  tree : Tree
  depth : Nat
  allOnes : Bool

namespace Walk

def atRoot (decoded : Bytes) : Walk := ⟨decoded, codeTree, 0, true⟩

def step (walk : Walk) (bit : Bool) : Except Failure Walk :=
  match walk.tree.child bit with
  | .missing => .error ⟨.invalidCode, walk.decoded.reverse⟩
  | .leaf .endOfString => .error ⟨.endOfStringInside, walk.decoded.reverse⟩
  | .leaf (.byte value) => .ok (atRoot (value :: walk.decoded))
  | tree => .ok ⟨walk.decoded, tree, walk.depth + 1, walk.allOnes && bit⟩

/-- Steps along the `length` lowest bits of `bits`, highest first, with the parts of the walk at
hand, as `Packing.pushBits` does. -/
def stepBits (decoded : Bytes) (tree : Tree) (depth : Nat) (allOnes : Bool) (bits : Nat) :
    (length : Nat) → Except Failure Walk
  | 0 => .ok ⟨decoded, tree, depth, allOnes⟩
  | length + 1 =>
    let bit := (bits >>> length) % 2 == 1
    match tree.child bit with
    | .missing => .error ⟨.invalidCode, decoded.reverse⟩
    | .leaf .endOfString => .error ⟨.endOfStringInside, decoded.reverse⟩
    | .leaf (.byte value) => stepBits (value :: decoded) codeTree 0 true bits length
    | tree => stepBits decoded tree (depth + 1) (allOnes && bit) bits length

theorem stepBits_eq (walk : Walk) (bits length : Nat) :
    stepBits walk.decoded walk.tree walk.depth walk.allOnes bits length =
      (Code.mk bits length).path.foldlM step walk := by
  induction length generalizing walk with
  | zero => rfl
  | succ length ih =>
    have digit : ((bits >>> length) % 2 == 1) = bits.testBit length := by
      rw [Nat.testBit_eq_decide_div_mod_eq, Nat.shiftRight_eq_div_pow]
      rfl
    rw [Code.path_succ, List.foldlM_cons, stepBits, step, digit]
    cases walk.tree.child (bits.testBit length) with
    | missing => rfl
    | leaf symbol =>
      cases symbol with
      | endOfString => rfl
      | byte value =>
        have tail := ih (atRoot (value :: walk.decoded))
        simp only [atRoot] at tail
        simp only [tail, atRoot, bind, Except.bind]
    | node zero one =>
      have tail := ih ⟨walk.decoded, .node zero one, walk.depth + 1,
        walk.allOnes && bits.testBit length⟩
      simp only at tail
      simp only [tail, bind, Except.bind]

def read : Bytes → Walk → Except Failure Walk
  | [], walk => .ok walk
  | byte :: rest, ⟨decoded, tree, depth, allOnes⟩ =>
    match stepBits decoded tree depth allOnes byte.toNat 8 with
    | .error failure => .error failure
    | .ok walk => read rest walk

theorem read_eq (coded : Bytes) (walk : Walk) :
    read coded walk = (coded.flatMap bitsOf).foldlM step walk := by
  induction coded generalizing walk with
  | nil => rfl
  | cons byte rest ih =>
    rw [List.flatMap_cons, List.foldlM_append, bitsOf, ← stepBits_eq, read]
    cases stepBits walk.decoded walk.tree walk.depth walk.allOnes byte.toNat 8 with
    | error failure => rfl
    | ok walk => simp only [ih, bind, Except.bind]

/-- Padding is shorter than a byte and all ones. -/
def finish : Walk → Except Failure Bytes
  | ⟨decoded, _, depth, allOnes⟩ =>
    if 7 < depth || !allOnes then .error ⟨.invalidPadding, decoded.reverse⟩
    else .ok decoded.reverse

end Walk

def decodeOnto (buffer coded : Bytes) : Except Failure Bytes :=
  (Walk.read coded (.atRoot buffer.reverse)).bind Walk.finish

def decode (coded : Bytes) : Except Failure Bytes :=
  decodeOnto [] coded

end HeaderCodec.Huffman
