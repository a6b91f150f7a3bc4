import HeaderCodec.Machine.Checked
import HeaderCodec.Varint

/-! Groups are cut off the lower end of a word until what is left of it fits into one byte. How many
bytes this will take is told beforehand by the zeros at the upper end. -/

namespace HeaderCodec.Machine

variable {ε : Type}

theorem toNat_shiftRight_seven (word : UInt64) : (word >>> 7).toNat = word.toNat / 128 := by
  have width : (7 : UInt64).toNat % 64 = 7 := rfl
  rw [UInt64.toNat_shiftRight, width, Nat.shiftRight_eq_div_pow]

/-- Puts the groups of a word behind the bytes of a buffer, and a mark on all but the last. -/
def pushGroups (buffer : Bytes) (word : UInt64) : Bytes :=
  if word < 0x80 then buffer ++ [word.toUInt8]
  else pushGroups (buffer ++ [0x80 ||| (word.toUInt8 &&& 0x7f)]) (word >>> 7)
termination_by word.toNat
decreasing_by
  next large =>
  rw [UInt64.lt_iff_toNat_lt] at large
  have limit : (0x80 : UInt64).toNat = 128 := rfl
  rw [toNat_shiftRight_seven]
  omega

/-- The buffer with a word behind it, and the number of bytes that this took. -/
def writeVarint (buffer : Bytes) (word : UInt64) : Checked ε (Bytes × Nat) := do
  let after := pushGroups buffer word
  let written ← subtract after.length buffer.length
  .ok (after, written)

/-- The number of bytes that a word takes. Zero has no significant bit and takes one all the
same. -/
def varintSize (word : UInt64) : Checked ε Nat := do
  let significant ← subtract 64 word.toBitVec.clz.toNat
  .ok (min ((max significant 1 + 6) / 7) Varint.maxSize)

end HeaderCodec.Machine
