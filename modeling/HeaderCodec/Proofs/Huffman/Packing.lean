import HeaderCodec.Huffman.Coding
import Mathlib

/-! A packing stands for the bits that were pushed onto it. Pushing appends one bit and finishing
appends ones, so the coded form of a byte string is its codes in a row and at most seven ones. -/

namespace HeaderCodec.Huffman

theorem Code.path_concat (bits length : Nat) (bit : Bool) :
    (mk (2 * bits + bit.toNat) (length + 1)).path = (mk bits length).path ++ [bit] := by
  induction length with
  | zero => cases bit <;> simp [path_succ, path_zero, Nat.testBit_zero]
  | succ length ih =>
    have half : (2 * bits + bit.toNat) / 2 = bits := by
      have digit : bit.toNat < 2 := Bool.toNat_lt bit
      omega
    rw [path_succ, Nat.testBit_succ, half, ih, path_succ bits, List.cons_append]

theorem Code.path_ones (bits length count : Nat) :
    (mk (bits * 2 ^ count + (2 ^ count - 1)) (length + count)).path =
      (mk bits length).path ++ List.replicate count true := by
  induction count with
  | zero => simp
  | succ count ih =>
    have room := Nat.two_pow_pos count
    have double : bits * 2 ^ (count + 1) + (2 ^ (count + 1) - 1) =
        2 * (bits * 2 ^ count + (2 ^ count - 1)) + true.toNat := by
      rw [Nat.pow_succ, ← Nat.mul_assoc, Bool.toNat_true]
      omega
    rw [double, ← Nat.add_assoc, path_concat, ih, List.append_assoc,
      ← List.replicate_succ']

theorem Code.path_mod (bits length : Nat) :
    (mk (bits % 2 ^ length) length).path = (mk bits length).path := by
  apply List.map_congr_left
  intro i listed
  have counted : i < length := List.mem_range.mp listed
  have inside : length - 1 - i < length := by omega
  rw [Nat.testBit_mod_two_pow, decide_eq_true inside, Bool.true_and]

theorem Code.path_add (bits high low : Nat) :
    (mk bits (high + low)).path = (mk (bits / 2 ^ low) high).path ++ (mk bits low).path := by
  induction high with
  | zero => rw [Nat.zero_add, path_zero, List.nil_append]
  | succ high ih =>
    rw [Nat.succ_add, path_succ, ih, path_succ, Nat.testBit_div_two_pow, List.cons_append]

theorem Code.path_join {low : Nat} (high count : Nat) {length : Nat} (small : low < 2 ^ length) :
    (mk (low + 2 ^ length * high) (count + length)).path =
      (mk high count).path ++ (mk low length).path := by
  have upper : (low + 2 ^ length * high) / 2 ^ length = high := by
    rw [Nat.add_mul_div_left _ _ (Nat.two_pow_pos _), Nat.div_eq_of_lt small, Nat.zero_add]
  have lower : (mk (low + 2 ^ length * high) length).path = (mk low length).path := by
    rw [← path_mod, Nat.add_mul_mod_self_left, Nat.mod_eq_of_lt small]
  rw [path_add, upper, lower]

@[simp] theorem length_bitsOf (byte : UInt8) : (bitsOf byte).length = 8 := by
  rw [bitsOf, Code.length_path]

theorem length_flatMap_bitsOf (bytes : Bytes) :
    (bytes.flatMap bitsOf).length = 8 * bytes.length := by
  induction bytes with
  | nil => rfl
  | cons byte rest ih =>
    rw [List.flatMap_cons, List.length_append, ih, length_bitsOf, List.length_cons]
    omega

theorem bitsOf_toUInt8 {value : Nat} (small : value < 256) :
    bitsOf value.toUInt8 = (Code.mk value 8).path := by
  have same : value.toUInt8.toNat = value := by
    simpa using small
  rw [bitsOf, same]

namespace Packing

def bits (packing : Packing) : List Bool :=
  packing.done.reverse.flatMap bitsOf ++ (Code.mk packing.value packing.count).path

/-- The byte that is being filled has room left, and its number has no bits but those counted. -/
structure Partial (packing : Packing) : Prop where
  count_lt : packing.count < 8
  value_lt : packing.value < 2 ^ packing.count

theorem partial_behind (buffer : Bytes) : (behind buffer).Partial :=
  ⟨Nat.zero_lt_succ 7, Nat.one_pos⟩

@[simp] theorem bits_behind (buffer : Bytes) : (behind buffer).bits = buffer.flatMap bitsOf := by
  rw [bits, behind, List.reverse_reverse, Code.path_zero, List.append_nil]

theorem Partial.push {packing : Packing} (unfilled : packing.Partial) (bit : Bool) :
    (packing.push bit).Partial := by
  unfold Packing.push
  dsimp only
  split
  · exact ⟨Nat.zero_lt_succ 7, Nat.one_pos⟩
  next =>
    have room := unfilled.count_lt
    have value := unfilled.value_lt
    refine ⟨by dsimp only; omega, ?_⟩
    dsimp only
    rw [Nat.pow_succ]
    have := bit.toNat_lt
    omega

theorem bits_push {packing : Packing} (unfilled : packing.Partial) (bit : Bool) :
    (packing.push bit).bits = packing.bits ++ [bit] := by
  unfold Packing.push bits
  dsimp only
  split
  next filled =>
    have value := unfilled.value_lt
    rw [filled] at value ⊢
    have small : 2 * packing.value + bit.toNat < 256 := by
      have := bit.toNat_lt
      omega
    rw [Code.path_zero, List.append_nil, List.reverse_cons, List.flatMap_append,
      List.flatMap_singleton, bitsOf_toUInt8 small, Code.path_concat, List.append_assoc]
  next =>
    rw [Code.path_concat, List.append_assoc]

theorem Partial.foldl_push {packing : Packing} (unfilled : packing.Partial) (path : List Bool) :
    (path.foldl Packing.push packing).Partial ∧
      (path.foldl Packing.push packing).bits = packing.bits ++ path := by
  induction path generalizing packing with
  | nil => exact ⟨unfilled, by simp⟩
  | cons bit path ih =>
    obtain ⟨after, bits⟩ := ih (unfilled.push bit)
    refine ⟨after, ?_⟩
    rw [List.foldl_cons, bits, bits_push unfilled, List.append_assoc, List.singleton_append]

theorem Partial.bitsOf_finish {packing : Packing} (unfilled : packing.Partial) :
    ∃ padding < 8, packing.finish.flatMap bitsOf =
      packing.bits ++ List.replicate padding true := by
  obtain ⟨done, value, count⟩ := packing
  have room := unfilled.count_lt
  have small := unfilled.value_lt
  dsimp only at room small
  unfold finish bits
  simp only [Nat.one_shiftLeft]
  split
  next empty =>
    refine ⟨0, by decide, ?_⟩
    rw [empty, Code.path_zero, List.replicate_zero, List.append_nil, List.append_nil]
  next =>
    refine ⟨8 - count, by omega, ?_⟩
    have full : 2 ^ count * 2 ^ (8 - count) = 256 := by
      rw [← Nat.pow_add, Nat.add_sub_cancel' (Nat.le_of_lt room)]
    have fits : value * 2 ^ (8 - count) + (2 ^ (8 - count) - 1) < 256 := by
      have space := Nat.two_pow_pos (8 - count)
      have product : (value + 1) * 2 ^ (8 - count) ≤ 256 :=
        full ▸ Nat.mul_le_mul_right _ small
      rw [Nat.succ_mul] at product
      omega
    have ones := Code.path_ones value count (8 - count)
    rw [Nat.add_sub_cancel' (Nat.le_of_lt room)] at ones
    rw [List.reverse_cons, List.flatMap_append, List.flatMap_singleton, bitsOf_toUInt8 fits,
      ones, List.append_assoc]

end Packing

theorem bitsOf_encodeOnto (buffer payload : Bytes) :
    ∃ padding < 8, (encodeOnto buffer payload).flatMap bitsOf =
      buffer.flatMap bitsOf ++ payload.flatMap pathOf ++ List.replicate padding true := by
  obtain ⟨unfilled, bits⟩ := (Packing.partial_behind buffer).foldl_push (payload.flatMap pathOf)
  obtain ⟨padding, short, packed⟩ := unfilled.bitsOf_finish
  refine ⟨padding, short, ?_⟩
  rw [encodeOnto_eq, packed, bits, Packing.bits_behind]

theorem bitsOf_encode (payload : Bytes) :
    ∃ padding < 8, (encode payload).flatMap bitsOf =
      payload.flatMap pathOf ++ List.replicate padding true := by
  obtain ⟨padding, short, bits⟩ := bitsOf_encodeOnto [] payload
  rw [List.flatMap_nil, List.nil_append] at bits
  exact ⟨padding, short, bits⟩

theorem codedSize_eq (payload : Bytes) :
    codedSize payload = ((payload.flatMap pathOf).length + 7) / 8 := by
  have total (start : Nat) : payload.foldl (fun bits byte => bits + (codeOf byte).length) start =
      start + (payload.flatMap pathOf).length := by
    induction payload generalizing start with
    | nil => rfl
    | cons byte rest ih =>
      rw [List.foldl_cons, ih, List.flatMap_cons, List.length_append, pathOf, Code.length_path,
        Nat.add_assoc]
  rw [codedSize, total, Nat.zero_add]

theorem length_encode (payload : Bytes) : (encode payload).length = codedSize payload := by
  obtain ⟨padding, short, bits⟩ := bitsOf_encode payload
  have lengths := congrArg List.length bits
  rw [length_flatMap_bitsOf, List.length_append, List.length_replicate] at lengths
  rw [codedSize_eq]
  omega

end HeaderCodec.Huffman
