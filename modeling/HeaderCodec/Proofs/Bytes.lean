import HeaderCodec.Bytes
import Mathlib

/-! Text, numbers in a fixed width, names in lower case, and the pieces between separators. -/

namespace HeaderCodec.Bytes

theorem ofText_eq_nil_iff {text : String} : ofText text = [] ↔ text = "" := by
  rw [ofText, ofArray_eq, Array.toList_eq_nil_iff]
  constructor
  · intro empty
    exact String.toByteArray_inj.mp (ByteArray.ext empty)
  · rintro rfl
    rfl

theorem toNatLE_ofNatLE (width value : Nat) :
    toNatLE (ofNatLE width value) = value % 256 ^ width := by
  induction width generalizing value with
  | zero => simp [ofNatLE, toNatLE, Nat.mod_one]
  | succ width ih =>
    have low : value.toUInt8.toNat = value % 256 := by simp
    have step : toNatLE (ofNatLE (width + 1) value) =
        value.toUInt8.toNat + 256 * toNatLE (ofNatLE width (value / 256)) := rfl
    rw [step, ih, low, Nat.pow_succ, Nat.mul_comm (256 ^ width), Nat.mod_mul]

theorem ofNatLE_toNatLE (bytes : Bytes) : ofNatLE bytes.length (toNatLE bytes) = bytes := by
  induction bytes with
  | nil => rfl
  | cons byte rest ih =>
    have small : byte.toNat < 256 := byte.toNat_lt
    have whole : toNatLE (byte :: rest) = byte.toNat + 256 * toNatLE rest := rfl
    have low : (byte.toNat + 256 * toNatLE rest).toUInt8 = byte := by
      apply UInt8.toNat.inj
      simp
    have high : (byte.toNat + 256 * toNatLE rest) / 256 = toNatLE rest := by omega
    rw [whole, List.length_cons, ofNatLE, low, high, ih]

theorem toNatLE_lt (bytes : Bytes) : toNatLE bytes < 256 ^ bytes.length := by
  have whole := toNatLE_ofNatLE bytes.length (toNatLE bytes)
  rw [ofNatLE_toNatLE] at whole
  rw [whole]
  exact Nat.mod_lt _ (Nat.pow_pos (by decide))

theorem length_flatMap_le {α : Type} {write write' : α → Bytes} (items : List α)
    (shorter : ∀ item, (write item).length ≤ (write' item).length) :
    (items.flatMap write).length ≤ (items.flatMap write').length := by
  rw [List.length_flatMap, List.length_flatMap]
  exact List.sum_le_sum fun item _ => shorter item

theorem lowerByte_lowerByte (byte : UInt8) : lowerByte (lowerByte byte) = lowerByte byte := by
  unfold lowerByte
  split
  next upper =>
    have lower : ¬(65 ≤ byte + 32 ∧ byte + 32 ≤ 90) := by
      simp only [UInt8.le_iff_toNat_le, UInt8.toNat_add] at upper ⊢
      simp at upper ⊢
      omega
    rw [if_neg lower]
  next => rfl

@[simp] theorem lower_lower (name : Bytes) : name.lower.lower = name.lower := by
  simp only [lower, List.map_map]
  apply List.map_congr_left
  intro byte _
  exact lowerByte_lowerByte byte

@[simp] theorem lower_eq_nil_iff {name : Bytes} : name.lower = [] ↔ name = [] := by
  simp [lower]

theorem lowerByte_eq_self_iff {byte : UInt8} :
    lowerByte byte = byte ↔ ¬(65 ≤ byte ∧ byte ≤ 90) := by
  unfold lowerByte
  split
  next upper =>
    have moved : byte + 32 ≠ byte := by simp
    exact iff_of_false moved (not_not.mpr upper)
  next other => exact iff_of_true rfl other

theorem lower_eq_self_iff {name : Bytes} :
    name.lower = name ↔ ∀ byte ∈ name, ¬(65 ≤ byte ∧ byte ≤ 90) := by
  have bytewise := List.map_inj_left (l := name) (f := lowerByte) (g := id)
  rw [List.map_id] at bytewise
  simp only [lower, bytewise, id, lowerByte_eq_self_iff]

theorem length_splitOn (separator : UInt8) (value : Bytes) :
    (value.splitOn separator).length = value.count separator + 1 := by
  induction value with
  | nil => rw [List.splitOn_nil, List.length_singleton, List.count_nil]
  | cons byte rest ih =>
    rw [List.splitOn_cons_eq_if_modifyHead, List.count_cons]
    split
    · rw [List.length_cons, ih]
    · rw [List.length_modifyHead, ih, Nat.add_zero]

theorem not_mem_of_mem_splitOn {separator : UInt8} {value piece : Bytes}
    (listed : piece ∈ value.splitOn separator) : separator ∉ piece := by
  induction value generalizing piece with
  | nil =>
    rw [List.splitOn_nil, List.mem_singleton] at listed
    rw [listed]
    exact List.not_mem_nil
  | cons byte rest ih =>
    rw [List.splitOn_cons_eq_if_modifyHead] at listed
    split at listed
    · rcases List.mem_cons.mp listed with rfl | later
      · exact List.not_mem_nil
      · exact ih later
    next other =>
      have different : separator ≠ byte := fun same => other (beq_iff_eq.mpr same.symm)
      cases pieces : rest.splitOn separator with
      | nil => exact absurd pieces (List.splitOn_ne_nil _ _)
      | cons first others =>
        rw [pieces, List.modifyHead_cons] at listed
        rw [pieces] at ih
        rcases List.mem_cons.mp listed with rfl | later
        · rw [List.mem_cons, not_or]
          exact ⟨different, ih List.mem_cons_self⟩
        · exact ih (List.mem_cons_of_mem _ later)

end HeaderCodec.Bytes
