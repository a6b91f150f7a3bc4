import HeaderCodec.Machine.Varint
import HeaderCodec.Proofs.Machine.Cursor

/-! A machine writes the groups that a number has without any bound, reads back what was spelled and
nothing else, and refuses what is cut off or too large whatever follows. -/

namespace HeaderCodec.Machine

section

variable {ε : Type}

private theorem marked_group (word : UInt64) :
    0x80 ||| (word.toUInt8 &&& 0x7f) = (word.toNat % 128 + 128).toUInt8 := by
  have low : (word.toUInt8 &&& 0x7f).toNat = word.toNat % 128 := by
    rw [toNat_and_low, UInt64.toNat_toUInt8]
    omega
  have mark : (0x80 : UInt8).toNat = 2 ^ 7 * 1 := rfl
  have below : word.toNat % 128 < 2 ^ 7 := Nat.mod_lt _ (by decide)
  apply UInt8.toNat_inj.mp
  rw [UInt8.toNat_or, low, mark, ← Nat.two_pow_add_eq_or_of_lt below]
  simp
  omega

theorem pushGroups_eq (buffer : Bytes) (word : UInt64) :
    pushGroups buffer word = buffer ++ Varint.encode word.toNat := by
  have limit : (0x80 : UInt64).toNat = 128 := rfl
  fun_induction pushGroups buffer word with
  | case1 buffer word small =>
    rw [UInt64.lt_iff_toNat_lt, limit] at small
    have byte : word.toUInt8 = word.toNat.toUInt8 := by
      apply UInt8.toNat_inj.mp
      simp
    rw [Varint.encode_of_lt small, byte]
  | case2 buffer word large ih =>
    rw [UInt64.lt_iff_toNat_lt, limit] at large
    rw [ih, toNat_shiftRight_seven, marked_group, Varint.encode_of_le (Nat.le_of_not_lt large),
      List.append_assoc, List.singleton_append]

theorem writeVarint_eq (buffer : Bytes) (word : UInt64) :
    (writeVarint buffer word : Checked ε (Bytes × Nat)) =
      .ok (buffer ++ Varint.encode word.toNat, (Varint.encode word.toNat).length) := by
  simp [writeVarint, pushGroups_eq, subtract]

theorem varintSize_eq (word : UInt64) :
    (varintSize word : Checked ε Nat) = .ok (Varint.size word.toNat) := by
  have inside : word.toBitVec.clz.toNat ≤ 64 := BitVec.clz_le
  have above : word.toNat < 2 ^ (64 - word.toBitVec.clz.toNat) := BitVec.toNat_lt_two_pow_sub_clz
  rw [varintSize, subtract, if_pos inside, Outcome.ok_bind]
  by_cases zero : word = 0
  · rw [zero]
    rfl
  · have nonzero : word.toNat ≠ 0 := fun none => zero (UInt64.toNat_inj.mp none)
    have below : 2 ^ (64 - 1 - word.toBitVec.clz.toNat) ≤ word.toNat :=
      BitVec.two_pow_sub_clz_le_toNat_of_ne_zero (by decide) (mt UInt64.toBitVec_inj.mp zero)
    have small := (Nat.log2_lt nonzero).mpr above
    have large := (Nat.le_log2 nonzero).mpr below
    rw [Varint.size, Varint.maxSize, Except.ok.injEq]
    omega

end

theorem scan_eq_ok_iff {bytes : Bytes} {word : UInt64} {count : Nat} :
    scan bytes = .ok (word, count) ↔ Varint.decode bytes = .ok (word.toNat, count) := by
  rw [scan_eq, Outcome.mapError_eq_ok_iff, Outcome.map_eq_ok_iff]
  constructor
  · rintro ⟨⟨value, size⟩, decoded, same⟩
    have small : value < 2 ^ 64 := (Varint.decode_eq_ok_iff.mp decoded).2.lt
    cases same
    rw [decoded, UInt64.toNat_ofNat_of_lt' small]
  · intro decoded
    exact ⟨_, decoded, by simp⟩

/-- The encoding of a word is read off the front of any bytes, and writing it and foretelling its
length agree. Whatever is read is the sum of its groups and takes at least as many bytes as the
encoding; it is the encoding unless it ends with an idle group. -/
theorem varint_exact_shortest :
    (∀ (word : UInt64) (rest : Bytes),
      let coded := Varint.encode word.toNat
      (∀ buffer, (writeVarint buffer word : Checked Varint.Error _) =
        .ok (buffer ++ coded, coded.length)) ∧
      (varintSize word : Checked Varint.Error _) = .ok coded.length ∧
      Varint.size word.toNat = coded.length ∧ 1 ≤ coded.length ∧ coded.length ≤ 10 ∧
      Varint.decode (coded ++ rest) = .ok (word.toNat, coded.length) ∧
      scan (coded ++ rest) = .ok (word, coded.length)) ∧
    (∀ bytes word count,
      scan bytes = .ok (word, count) ↔ Varint.decode bytes = .ok (word.toNat, count)) ∧
    ∀ bytes value count, Varint.decode bytes = .ok (value, count) →
      value < 2 ^ 64 ∧ 1 ≤ count ∧ count ≤ 10 ∧ count ≤ bytes.length ∧
      value = ((bytes.take count).mapIdx fun place byte =>
        byte.toNat % 128 * 2 ^ (7 * place)).sum ∧
      Varint.size value ≤ count ∧
      (bytes.take count = Varint.encode value ↔ count = 1 ∨ bytes[count - 1]? ≠ some 0) := by
  refine ⟨?_, fun _ _ _ => scan_eq_ok_iff, ?_⟩
  · intro word rest coded
    have spells : Varint.Spells coded word.toNat := Varint.spells_encode word.toNat_lt
    have decoded := spells.decode_append rest
    refine ⟨fun buffer => writeVarint_eq buffer word, ?_, ?_, spells.groups.length_pos,
      spells.length_le, decoded, scan_eq_ok_iff.mpr decoded⟩
    · rw [varintSize_eq, Varint.length_encode]
    · rw [Varint.length_encode]
  · intro bytes value count decoded
    obtain ⟨inside, spells⟩ := Varint.decode_eq_ok_iff.mp decoded
    have length : (bytes.take count).length = count := List.length_take_of_le inside
    have short := spells.length_le
    have shortest := spells.groups.length_encode_le
    have positive := (Varint.size_of_decodeFrom decoded).1
    rw [length] at short shortest
    rw [Varint.length_encode] at shortest
    refine ⟨spells.lt, positive, short, inside, spells.groups.eq_sum, shortest, ?_⟩
    have last : (bytes.take count).getLast? = bytes[count - 1]? := by
      rw [List.getLast?_eq_getElem?, length, List.getElem?_take_of_lt (by omega)]
    rw [spells.groups.eq_encode_iff, length, last]

theorem varint_exact_shortest_idle :
    Varint.decode [255, 129, 0, 7] = .ok (255, 3) ∧ Varint.size 255 ≤ 3 ∧
      [255, 129, 0] ≠ Varint.encode 255 := by
  have decoded : Varint.decode [255, 129, 0, 7] = .ok (255, 3) := by
    decide
  obtain ⟨-, -, -, -, -, shortest, canonical⟩ := varint_exact_shortest.2.2 _ _ _ decoded
  exact ⟨decoded, shortest, mt canonical.mp (by decide)⟩

/-- Bytes end too early exactly if no part of them at the front is a number and some bytes behind
them make one. They are too large exactly if nine bytes each announce another and the tenth is more
than the one bit that is left. A machine decides alike. -/
theorem refusals_separate (bytes : Bytes) :
    (Varint.decode bytes = .error .unexpectedEof ↔
      (∀ front, front <+: bytes → ∀ result, Varint.decode front ≠ .ok result) ∧
        ∃ more result, Varint.decode (bytes ++ more) = .ok result) ∧
    (Varint.decode bytes = .error .overflow →
      ∀ more, Varint.decode (bytes ++ more) = .error .overflow) ∧
    (∀ result, Varint.decode bytes = .ok result →
      ∀ more, Varint.decode (bytes ++ more) = .ok result) ∧
    (Varint.decode bytes = .error .overflow ↔
      ∃ nine tenth rest, bytes = nine ++ tenth :: rest ∧ nine.length = 9 ∧
        (∀ byte ∈ nine, 128 ≤ byte) ∧ 1 < tenth) ∧
    scan bytes = ((Varint.decode bytes).map fun (value, size) => (value.toUInt64, size)).mapError
      .refused := by
  refine ⟨⟨?_, ?_⟩, Varint.decode_append_of_overflow, fun result => Varint.decode_append_of_ok,
    Varint.decode_eq_overflow_iff, scan_eq bytes⟩
  · intro ended
    constructor
    · intro front opens result decoded
      rw [Varint.decode_front_of_unexpectedEof ended opens] at decoded
      cases decoded
    · exact ⟨[0], Varint.exists_decode_concat_zero ended⟩
  · rintro ⟨unread, more, result, decoded⟩
    cases outcome : Varint.decode bytes with
    | ok result => exact absurd outcome (unread bytes List.prefix_rfl result)
    | error cause =>
      cases cause with
      | unexpectedEof => rfl
      | overflow =>
        rw [Varint.decode_append_of_overflow outcome more] at decoded
        cases decoded

theorem refusals_separate_tenth :
    Varint.decode (List.replicate 9 128 ++ [2]) = .error .overflow ∧
      Varint.decode (List.replicate 9 128 ++ [2] ++ [0]) = .error .overflow ∧
      Varint.decode (List.replicate 9 128) = .error .unexpectedEof := by
  have refused : Varint.decode (List.replicate 9 128 ++ [2]) = .error .overflow := by
    decide
  refine ⟨refused, (refusals_separate _).2.1 refused [0], ?_⟩
  rw [(refusals_separate _).1]
  refine ⟨?_, [1], (2 ^ 63, 10), by decide⟩
  intro front opens result decoded
  have longer := (refusals_separate front).2.2.1 result decoded
  obtain ⟨more, whole⟩ := opens
  have stays := longer (more ++ [2])
  rw [← List.append_assoc, whole, refused] at stays
  cases stays

end HeaderCodec.Machine
