import HeaderCodec.Bytes

/-! A number travels as groups of seven bits, lowest group first; every byte but the last has its
high bit set. Numbers below `2 ^ 64` fit into ten bytes, of which the tenth carries one bit. -/

namespace HeaderCodec.Varint

def maxSize : Nat := 10

/-- The number of bits in front of the last group of the longest form. -/
def maxShift : Nat := 7 * (maxSize - 1)

inductive Error
  | overflow
  | unexpectedEof
  deriving DecidableEq, Repr

def Error.message : Error → String
  | .overflow => "varint integer overflow"
  | .unexpectedEof => "varint ended before its last byte"

def encode (value : Nat) : Bytes :=
  if value < 128 then [value.toUInt8]
  else (value % 128 + 128).toUInt8 :: encode (value / 128)

/-- The length of the encoding, one byte for every seven significant bits. -/
def size (value : Nat) : Nat :=
  value.log2 / 7 + 1

/-- Reads the groups from the byte at `position` of a varint on. The tenth byte ends every
varint and holds at most one bit, so a larger one cannot be part of a 64-bit number. -/
def decodeFrom (position : Nat) : Bytes → Except Error (Nat × Nat)
  | [] => .error .unexpectedEof
  | byte :: rest =>
    if position + 1 = maxSize ∧ 1 < byte then .error .overflow
    else if byte < 128 then .ok (byte.toNat, 1)
    else (decodeFrom (position + 1) rest).map fun (high, size) =>
      (byte.toNat % 128 + 128 * high, size + 1)

def decode (bytes : Bytes) : Except Error (Nat × Nat) :=
  decodeFrom 0 bytes

theorem encode_of_lt {value : Nat} (small : value < 128) : encode value = [value.toUInt8] := by
  rw [encode, if_pos small]

theorem encode_of_le {value : Nat} (large : 128 ≤ value) :
    encode value = (value % 128 + 128).toUInt8 :: encode (value / 128) := by
  rw [encode, if_neg (by omega)]

theorem size_of_decodeFrom {position value size : Nat} {bytes : Bytes}
    (decoded : decodeFrom position bytes = .ok (value, size)) :
    0 < size ∧ size ≤ bytes.length := by
  induction bytes generalizing position value size with
  | nil => cases decoded
  | cons byte rest ih =>
    unfold decodeFrom at decoded
    split at decoded
    · cases decoded
    split at decoded
    · cases decoded
      simp
    cases tail : decodeFrom (position + 1) rest with
    | error error => simp [tail, Except.map] at decoded
    | ok high =>
      have bound := ih tail
      simp only [tail, Except.map, Except.ok.injEq, Prod.mk.injEq] at decoded
      simp only [List.length_cons]
      omega

end HeaderCodec.Varint
