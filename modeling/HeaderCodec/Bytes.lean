/-! Names, values, frames and dumps are lists of bytes, so every size and every offset of the
library counts bytes. Text enters only through its UTF-8 form. -/

namespace HeaderCodec

abbrev Bytes := List UInt8

namespace Bytes

/-- The first `count` bytes of an array, put in front of `rest`. They are taken from the last to
the first, so the list is made in one go however long it is. -/
def ofArrayTake (array : ByteArray) :
    (count : Nat) → (bound : count ≤ array.size) → (rest : Bytes) → Bytes
  | 0, _, rest => rest
  | count + 1, bound, rest =>
    ofArrayTake array count (Nat.le_of_succ_le bound) (array[count] :: rest)

def ofArray (array : ByteArray) : Bytes :=
  ofArrayTake array array.size (Nat.le_refl _) []

theorem ofArrayTake_eq (array : ByteArray) (count : Nat) (bound : count ≤ array.size)
    (rest : Bytes) : ofArrayTake array count bound rest = array.data.toList.take count ++ rest := by
  induction count generalizing rest with
  | zero => simp [ofArrayTake]
  | succ count ih =>
    have inside : count < array.data.toList.length := by
      rw [Array.length_toList, ByteArray.size_data]
      exact bound
    rw [ofArrayTake, ih, List.take_succ_eq_append_getElem inside, List.append_assoc]
    simp only [ByteArray.getElem_eq_getElem_data, Array.getElem_toList, List.singleton_append]

@[simp] theorem ofArray_eq (array : ByteArray) : ofArray array = array.data.toList := by
  have whole : array.data.toList.length = array.size := by
    rw [Array.length_toList, ByteArray.size_data]
  rw [ofArray, ofArrayTake_eq, List.append_nil, List.take_of_length_le (Nat.le_of_eq whole)]

def ofText (text : String) : Bytes :=
  ofArray text.toUTF8

/-- Only the ASCII letters change: a name is compared byte by byte, whatever text it spells. -/
def lowerByte (byte : UInt8) : UInt8 :=
  if 65 ≤ byte ∧ byte ≤ 90 then byte + 32 else byte

def lower (name : Bytes) : Bytes :=
  name.map lowerByte

/-- The `width` lowest bytes of a number, lowest first. -/
def ofNatLE : (width : Nat) → (value : Nat) → Bytes
  | 0, _ => []
  | width + 1, value => value.toUInt8 :: ofNatLE width (value / 256)

def toNatLE (bytes : Bytes) : Nat :=
  bytes.foldr (fun byte high => byte.toNat + 256 * high) 0

/-- Moves up to `count` bytes from the front of a list behind the bytes `done`, last one first. -/
def splitOnto (done : Bytes) : (count : Nat) → (bytes : Bytes) → Bytes × Bytes
  | 0, rest => (done.reverse, rest)
  | _ + 1, [] => (done.reverse, [])
  | count + 1, byte :: rest => splitOnto (byte :: done) count rest

def split (bytes : Bytes) (count : Nat) : Bytes × Bytes :=
  splitOnto [] count bytes

theorem splitOnto_eq (done : Bytes) (count : Nat) (bytes : Bytes) :
    splitOnto done count bytes = (done.reverse ++ bytes.take count, bytes.drop count) := by
  fun_induction splitOnto done count bytes with
  | case1 => simp
  | case2 => simp
  | case3 done count byte rest ih => simp [ih]

@[simp] theorem split_eq (bytes : Bytes) (count : Nat) :
    bytes.split count = (bytes.take count, bytes.drop count) := by
  simp [split, splitOnto_eq]

@[simp] theorem length_ofNatLE (width value : Nat) : (ofNatLE width value).length = width := by
  induction width generalizing value with
  | zero => rfl
  | succ width ih => simp [ofNatLE, ih]

end Bytes

end HeaderCodec
