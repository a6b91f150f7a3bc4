import HeaderCodec.Machine.Checked
import Mathlib

/-! What the checked operations of a machine do to the numbers of its words, as long as nothing
leaves them. -/

namespace HeaderCodec.Machine

theorem lt_word {number : Nat} (small : number < 2 ^ 62) : number < UInt64.size :=
  Nat.lt_trans small (by decide)

section

variable {ε : Type} {count : Nat}

theorem add_eq_ok_iff {size first second sum : Nat} :
    (add size first second : Checked ε Nat) = .ok sum ↔
      first + second < size ∧ first + second = sum := by
  unfold add
  split <;> simp [*]

theorem slice_eq_ok_iff {bytes cut : Bytes} {start stop : Nat} :
    (slice bytes start stop : Checked ε Bytes) = .ok cut ↔
      (start ≤ stop ∧ stop ≤ bytes.length) ∧ (bytes.drop start).take (stop - start) = cut := by
  unfold slice
  split <;> simp [*]

theorem shiftLeft_eq_ok (narrow : count < 64) (word : UInt64) :
    (shiftLeft word count : Checked ε UInt64) = .ok (word <<< count.toUInt64) :=
  if_pos narrow

theorem shiftRight_eq_ok (narrow : count < 64) (word : UInt64) :
    (shiftRight word count : Checked ε UInt64) = .ok (word >>> count.toUInt64) :=
  if_pos narrow

theorem toNat_shiftCount (narrow : count < 64) : count.toUInt64.toNat = count :=
  UInt64.toNat_ofNat_of_lt' (Nat.lt_trans narrow (by decide))

theorem toNat_shiftRight (narrow : count < 64) (word : UInt64) :
    (word >>> count.toUInt64).toNat = word.toNat / 2 ^ count := by
  rw [UInt64.toNat_shiftRight, toNat_shiftCount narrow, Nat.mod_eq_of_lt narrow,
    Nat.shiftRight_eq_div_pow]

theorem toNat_shiftLeft (narrow : count < 64) {word : UInt64}
    (fits : word.toNat * 2 ^ count < 2 ^ 64) :
    (word <<< count.toUInt64).toNat = word.toNat * 2 ^ count := by
  rw [UInt64.toNat_shiftLeft, toNat_shiftCount narrow, Nat.mod_eq_of_lt narrow, Nat.shiftLeft_eq,
    Nat.mod_eq_of_lt fits]

theorem toNat_or_shiftLeft {value group : UInt64} (low : value.toNat < 2 ^ count)
    (narrow : count < 64) (fits : group.toNat * 2 ^ count < 2 ^ 64) :
    (value ||| group <<< count.toUInt64).toNat = value.toNat + 2 ^ count * group.toNat := by
  rw [UInt64.toNat_or, toNat_shiftLeft narrow fits, Nat.or_comm, Nat.mul_comm,
    ← Nat.two_pow_add_eq_or_of_lt low, Nat.add_comm]

theorem toNat_and_mask (narrow : count < 64) (word : UInt64) :
    (word &&& (1 <<< count.toUInt64 - 1)).toNat = word.toNat % 2 ^ count := by
  have fits : (1 : UInt64).toNat * 2 ^ count < 2 ^ 64 := by
    rw [UInt64.toNat_one, Nat.one_mul]
    exact Nat.pow_lt_pow_right (by decide) narrow
  have power : ((1 : UInt64) <<< count.toUInt64).toNat = 2 ^ count := by
    rw [toNat_shiftLeft narrow fits, UInt64.toNat_one, Nat.one_mul]
  have positive : (1 : UInt64) ≤ 1 <<< count.toUInt64 := by
    rw [UInt64.le_iff_toNat_le, power]
    exact Nat.one_le_two_pow
  rw [UInt64.toNat_and, UInt64.toNat_sub_of_le _ _ positive, power, UInt64.toNat_one,
    Nat.and_two_pow_sub_one_eq_mod]

end

end HeaderCodec.Machine
