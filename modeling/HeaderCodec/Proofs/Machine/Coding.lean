import HeaderCodec.Machine.Literal
import HeaderCodec.Proofs.Huffman.Canonical
import HeaderCodec.Proofs.Machine.Nodes
import HeaderCodec.Proofs.Machine.Words

/-! A packer stands for the bits of its buffer and those that wait, so it does to whole codes what
packing does bit by bit. With the tree in an array, coding on words is the bijection that it is on
bits. -/

namespace HeaderCodec

namespace Machine

open Huffman (Code bitsOf codeOf pathOf)

variable {ε : Type}

theorem codeOf_fits (byte : UInt8) :
    (codeOf byte).length ≤ 30 ∧ (codeOf byte).bits < 2 ^ (codeOf byte).length := by
  have all : ∀ code ∈ Huffman.byteCodes.toList,
      code.length ≤ 30 ∧ code.bits < 2 ^ code.length := by decide +kernel
  exact all _ (Vector.mem_toList_iff.mpr (Vector.getElem_mem _))

namespace Packer

/-- The bits of the buffer and those that wait. -/
def bits (packer : Packer) : List Bool :=
  packer.buffer.flatMap bitsOf ++ (Code.mk packer.word.toNat packer.count).path

/-- Fewer bits wait than a byte has, and the word holds no others. -/
structure Settled (packer : Packer) : Prop where
  count_lt : packer.count < 8
  word_lt : packer.word.toNat < 2 ^ packer.count

variable {packer : Packer} {code : Code}

theorem settled_behind (buffer : Bytes) : (behind buffer).Settled :=
  ⟨Nat.zero_lt_succ 7, Nat.one_pos⟩

@[simp] theorem bits_behind (buffer : Bytes) : (behind buffer).bits = buffer.flatMap bitsOf :=
  List.append_nil _

theorem drain_eq_ok (packer : Packer) (narrow : packer.count < 64) :
    ∃ after, (packer.drain : Checked ε Packer) = .ok after ∧ after.count < 8 ∧
      after.bits = packer.bits := by
  induction waiting : packer.count using Nat.strongRecOn generalizing packer with
  | ind count ih =>
    rw [drain]
    split
    next full =>
      let high := packer.word >>> (packer.count - 8).toUInt64
      have narrower : packer.count - 8 < 64 := by omega
      have byte : bitsOf high.toUInt8 =
          (Code.mk (packer.word.toNat / 2 ^ (packer.count - 8)) 8).path := by
        rw [bitsOf, UInt64.toNat_toUInt8, toNat_shiftRight narrower, Code.path_mod]
      have cut := Code.path_add packer.word.toNat 8 (packer.count - 8)
      rw [Nat.add_sub_cancel' full] at cut
      obtain ⟨after, drained, few, same⟩ := ih (packer.count - 8) (by omega)
        ⟨packer.buffer ++ [high.toUInt8], packer.word, packer.count - 8⟩ narrower rfl
      refine ⟨after, ?_, few, same.trans ?_⟩
      · dsimp only
        rw [shiftRight_eq_ok narrower, Outcome.ok_bind, drained]
      · simp only [bits, List.flatMap_append, List.flatMap_singleton, byte, cut, List.append_assoc]
    next few => exact ⟨packer, rfl, Nat.lt_of_not_le few, rfl⟩

theorem Settled.toNat_joined (settled : packer.Settled)
    (fits : code.length ≤ 30 ∧ code.bits < 2 ^ code.length) :
    (packer.word <<< code.length.toUInt64 ||| code.bits.toUInt64).toNat =
      code.bits + 2 ^ code.length * packer.word.toNat := by
  obtain ⟨short, small⟩ := fits
  have power : 2 ^ code.length ≤ 2 ^ 30 := Nat.pow_le_pow_right (by decide) short
  have low : code.bits.toUInt64.toNat = code.bits :=
    UInt64.toNat_ofNat_of_lt' (Nat.lt_of_lt_of_le small (power.trans (by decide)))
  have high : packer.word.toNat ≤ 2 ^ 7 :=
    settled.word_lt.le.trans (Nat.pow_le_pow_right (by decide) (Nat.le_of_lt_succ settled.count_lt))
  have room : packer.word.toNat * 2 ^ code.length < 2 ^ 64 :=
    calc packer.word.toNat * 2 ^ code.length ≤ 2 ^ 7 * 2 ^ 30 := Nat.mul_le_mul high power
      _ < 2 ^ 64 := by decide
  rw [UInt64.or_comm, toNat_or_shiftLeft (by rwa [low]) (by omega) room, low]

theorem Settled.push (settled : packer.Settled)
    (fits : code.length ≤ 30 ∧ code.bits < 2 ^ code.length) :
    ∃ after, (packer.push code : Checked ε Packer) = .ok after ∧ after.Settled ∧
      after.bits = packer.bits ++ code.path := by
  have waiting := settled.count_lt
  have short := fits.1
  have counted : packer.count + code.length < UInt32.size := by
    rw [UInt32.size]
    omega
  let joined := packer.word <<< code.length.toUInt64 ||| code.bits.toUInt64
  have number : joined.toNat = code.bits + 2 ^ code.length * packer.word.toNat :=
    settled.toNat_joined fits
  -- Bits that were moved stay in the word until the mask takes them off, so only the bits of the
  -- middle state are known, and not its word.
  obtain ⟨middle, drained, few, same⟩ := drain_eq_ok (ε := ε)
    ⟨packer.buffer, joined, packer.count + code.length⟩ (by dsimp only; omega)
  have masked := toNat_and_mask (by omega : middle.count < 64) middle.word
  refine ⟨{ middle with word := middle.word &&& (1 <<< middle.count.toUInt64 - 1) }, ?_,
    ⟨few, ?_⟩, ?_⟩
  · rw [Packer.push, shiftLeft_eq_ok (by omega), Outcome.ok_bind, add, if_pos counted,
      Outcome.ok_bind, drained, Outcome.ok_bind, shiftLeft_eq_ok (by omega), Outcome.ok_bind]
  · rw [masked]
    exact Nat.mod_lt _ (Nat.two_pow_pos _)
  · calc bits { middle with word := middle.word &&& (1 <<< middle.count.toUInt64 - 1) }
        = middle.bits := by rw [bits, masked, Code.path_mod, bits]
      _ = packer.bits ++ code.path := by
          rw [same, bits, number, Code.path_join _ _ fits.2, bits, List.append_assoc]

theorem Settled.foldlM_push (settled : packer.Settled) (payload : Bytes) :
    ∃ after, (payload.foldlM (fun packer byte => packer.push (codeOf byte)) packer :
        Checked ε Packer) = .ok after ∧ after.Settled ∧
      after.bits = packer.bits ++ payload.flatMap pathOf := by
  induction payload generalizing packer with
  | nil => exact ⟨packer, rfl, settled, (List.append_nil _).symm⟩
  | cons byte rest ih =>
    obtain ⟨middle, pushed, settled, first⟩ := settled.push (ε := ε) (codeOf_fits byte)
    obtain ⟨after, packed, settled, others⟩ := ih settled
    refine ⟨after, ?_, settled, ?_⟩
    · rw [List.foldlM_cons, pushed, Outcome.ok_bind, packed]
    · rw [others, first, List.flatMap_cons, List.append_assoc, pathOf]

theorem toNat_ones {count : Nat} (few : count < 8) :
    ((0xff : UInt8) >>> count.toUInt8).toNat = 2 ^ (8 - count) - 1 := by
  have all : ∀ count : Fin 8, ((0xff : UInt8) >>> count.val.toUInt8).toNat =
      2 ^ (8 - count.val) - 1 := by decide
  exact all ⟨count, few⟩

theorem Settled.bitsOf_filled (settled : packer.Settled) :
    bitsOf ((packer.word <<< (8 - packer.count).toUInt64).toUInt8 |||
        0xff >>> packer.count.toUInt8) =
      (Code.mk packer.word.toNat packer.count).path ++
        List.replicate (8 - packer.count) true := by
  have few := settled.count_lt
  have whole : packer.count + (8 - packer.count) = 8 := Nat.add_sub_cancel' (Nat.le_of_lt few)
  have small : packer.word.toNat * 2 ^ (8 - packer.count) < 2 ^ 8 :=
    calc packer.word.toNat * 2 ^ (8 - packer.count)
        < 2 ^ packer.count * 2 ^ (8 - packer.count) :=
          Nat.mul_lt_mul_of_pos_right settled.word_lt (Nat.two_pow_pos _)
      _ = 2 ^ 8 := by rw [← Nat.pow_add, whole]
  have fits : packer.word.toNat * 2 ^ (8 - packer.count) < 2 ^ 64 :=
    Nat.lt_trans small (by decide)
  have below : 2 ^ (8 - packer.count) - 1 < 2 ^ (8 - packer.count) :=
    Nat.sub_one_lt (Nat.two_pow_pos _).ne'
  have ones := Code.path_ones packer.word.toNat packer.count (8 - packer.count)
  rw [whole] at ones
  rw [bitsOf, UInt8.toNat_or, UInt64.toNat_toUInt8, toNat_shiftLeft (by omega) fits,
    Nat.mod_eq_of_lt small, toNat_ones few, Nat.mul_comm, ← Nat.two_pow_add_eq_or_of_lt below,
    Nat.mul_comm, ones]

theorem Settled.finish (settled : packer.Settled) :
    ∃ bytes, (packer.finish : Checked ε Bytes) = .ok bytes ∧
      ∃ padding < 8, bytes.flatMap bitsOf = packer.bits ++ List.replicate padding true := by
  have few := settled.count_lt
  rw [Packer.finish]
  split
  next waiting =>
    have inside : packer.count ≤ 8 := Nat.le_of_lt few
    rw [subtract, if_pos inside, Outcome.ok_bind, shiftLeft_eq_ok (by omega), Outcome.ok_bind,
      shiftByteRight, if_pos few, Outcome.ok_bind]
    refine ⟨_, rfl, 8 - packer.count, by omega, ?_⟩
    rw [List.flatMap_append, List.flatMap_singleton, settled.bitsOf_filled, bits,
      List.append_assoc]
  next idle =>
    have none : packer.count = 0 := Nat.eq_zero_of_not_pos idle
    refine ⟨packer.buffer, rfl, 0, by decide, ?_⟩
    rw [bits, none, Code.path_zero, List.replicate_zero, List.append_nil, List.append_nil]

theorem encodeOnto_eq (buffer payload : Bytes) :
    (encodeOnto buffer payload : Checked ε Bytes) = .ok (Huffman.encodeOnto buffer payload) := by
  obtain ⟨packer, packed, settled, bits⟩ :=
    (settled_behind buffer).foldlM_push (ε := ε) payload
  obtain ⟨bytes, finished, padding, short, filled⟩ := settled.finish (ε := ε)
  obtain ⟨padding', short', filled'⟩ := Huffman.bitsOf_encodeOnto buffer payload
  rw [bits, bits_behind] at filled
  rw [encodeOnto, packed, Outcome.ok_bind, finished,
    Huffman.eq_of_bits_padded short short' filled filled']

theorem foldlM_add_eq {payload : Bytes} {start : Nat}
    (room : start + 30 * payload.length < UInt64.size) :
    (payload.foldlM (fun bits byte => add UInt64.size bits (codeOf byte).length) start :
        Checked ε Nat) =
      .ok (payload.foldl (fun bits byte => bits + (codeOf byte).length) start) := by
  induction payload generalizing start with
  | nil => rfl
  | cons byte rest ih =>
    have short := (codeOf_fits byte).1
    rw [List.length_cons] at room
    rw [List.foldlM_cons, add, if_pos (by omega), Outcome.ok_bind, ih (by omega), List.foldl_cons]

theorem codedSize_eq {payload : Bytes} (small : payload.length < 2 ^ 59) :
    (codedSize payload : Checked ε Nat) = .ok (Huffman.codedSize payload) := by
  have room : 0 + 30 * payload.length < UInt64.size := by
    rw [UInt64.size]
    omega
  rw [codedSize, foldlM_add_eq room, Outcome.ok_bind, Huffman.codedSize]

end Packer

end Machine

namespace Huffman

/-- Every byte string has one coded form, of the predicted length, which decoding turns back into
it; and decoding accepts nothing else. Whatever a buffer holds before stays in front. Coding with
the open bits in a word and decoding on the array of nodes do the same. -/
theorem coding_bijective :
    (∀ buffer payload, ∃ coded, encodeOnto buffer payload = buffer ++ coded ∧
      coded.length = codedSize payload ∧
      ∀ target, decodeOnto target coded = .ok (target ++ payload)) ∧
    (∀ target coded result, decodeOnto target coded = .ok result →
      ∃ payload, result = target ++ payload ∧
        ∀ buffer, encodeOnto buffer payload = buffer ++ coded) ∧
    (∀ buffer payload, (Machine.Packer.encodeOnto buffer payload : Machine.Checked Error Bytes) =
      .ok (encodeOnto buffer payload)) ∧
    (∀ payload, payload.length < 2 ^ 59 →
      (Machine.Packer.codedSize payload : Machine.Checked Error Nat) = .ok (codedSize payload)) ∧
    ∀ coded, Machine.Nodes.decode coded = (decodeOnto [] coded).mapError (.refused ·.error) := by
  refine ⟨?_, ?_, Machine.Packer.encodeOnto_eq, fun _ => Machine.Packer.codedSize_eq,
    fun coded => (Machine.Nodes.decode_eq coded).1⟩
  · intro buffer payload
    refine ⟨encode payload, encodeOnto_eq_append buffer payload, length_encode payload, ?_⟩
    intro target
    exact decodeOnto_encode target payload
  · intro target coded result decoded
    obtain ⟨payload, rfl, rfl⟩ := decodeOnto_eq_ok_iff.mp decoded
    exact ⟨payload, rfl, fun buffer => encodeOnto_eq_append buffer payload⟩

theorem coding_bijective_padded :
    decodeOnto [7] [12, 191] = .ok [7, 49, 102] ∧ encodeOnto [9] [49, 102] = [9, 12, 191] ∧
      (Machine.Packer.encodeOnto [9] [49, 102] : Machine.Checked Error Bytes) =
        .ok [9, 12, 191] ∧
      (Machine.Packer.codedSize [49, 102] : Machine.Checked Error Nat) = .ok 2 := by
  have decoded : decodeOnto [7] [12, 191] = .ok [7, 49, 102] := by
    decide +kernel
  obtain ⟨-, back, packed, sized, -⟩ := coding_bijective
  obtain ⟨payload, whole, unique⟩ := back _ _ _ decoded
  have read : [49, 102] = payload := List.cons_injective whole
  rw [← read] at unique
  have size : codedSize [49, 102] = 2 := by
    decide
  refine ⟨decoded, unique [9], ?_, ?_⟩
  · rw [packed, unique [9]]
    rfl
  · rw [sized [49, 102] (by decide), size]

end Huffman

end HeaderCodec
