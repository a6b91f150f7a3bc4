import HeaderCodec.Proofs.Outcome
import HeaderCodec.Varint

/-! `Groups` reads groups of seven bits without any bound, and `Spells` adds the two bounds of a
64-bit number. Decoding accepts exactly what spells a number, and the encoder writes one of
these. -/

namespace HeaderCodec.Varint

/-- Groups of seven bits, lowest first; every byte but the last has its high bit set. -/
inductive Groups : Bytes → Nat → Prop
  | last {byte : UInt8} (closed : byte < 128) : Groups [byte] byte.toNat
  | more {byte : UInt8} {rest : Bytes} {high : Nat} (continued : ¬byte < 128)
    (tail : Groups rest high) : Groups (byte :: rest) (byte.toNat % 128 + 128 * high)

/-- The bytes are a varint of at most ten bytes whose number fits into 64 bits. Groups that add
nothing are allowed. -/
structure Spells (bytes : Bytes) (value : Nat) : Prop where
  groups : Groups bytes value
  length_le : bytes.length ≤ maxSize
  lt : value < 2 ^ 64

theorem Groups.length_pos {bytes : Bytes} {value : Nat} (groups : Groups bytes value) :
    0 < bytes.length := by
  cases groups <;> simp

theorem toNat_le_one {byte : UInt8} (small : ¬1 < byte) : byte.toNat ≤ 1 := by
  rw [UInt8.not_lt, UInt8.le_iff_toNat_le] at small
  exact small

theorem continued_inside {position : Nat} {byte : UInt8} (inside : position < maxSize)
    (fits : ¬(position + 1 = maxSize ∧ 1 < byte)) (continued : ¬byte < 128) :
    position + 1 < maxSize := by
  apply Nat.lt_of_not_le
  intro last
  have tiny : byte.toNat ≤ 1 := toNat_le_one fun large => fits ⟨by omega, large⟩
  apply continued
  rw [UInt8.lt_iff_toNat_lt]
  exact Nat.lt_of_le_of_lt tiny (by decide)

private theorem two_pow_room {position : Nat} (inside : position + 1 < maxSize) :
    2 ^ (64 - 7 * position) = 128 * 2 ^ (64 - 7 * (position + 1)) := by
  have room : 64 - 7 * position = 7 + (64 - 7 * (position + 1)) := by
    simp only [maxSize] at inside
    omega
  rw [room, Nat.pow_add]

theorem Groups.decodeFrom_append {bytes : Bytes} {value position : Nat}
    (groups : Groups bytes value) (short : position + bytes.length ≤ maxSize)
    (small : value < 2 ^ (64 - 7 * position)) (rest : Bytes) :
    decodeFrom position (bytes ++ rest) = .ok (value, bytes.length) := by
  induction groups generalizing position with
  | @last byte closed =>
    have fits : ¬(position + 1 = maxSize ∧ 1 < byte) := by
      rintro ⟨tenth, large⟩
      have ninth : position = 9 := Nat.succ.inj tenth
      have above : 1 < byte.toNat := UInt8.lt_iff_toNat_lt.mp large
      rw [ninth] at small
      omega
    rw [List.cons_append, decodeFrom, if_neg fits, if_pos closed]
    rfl
  | @more byte tail high continued groups ih =>
    have inside : position + 1 < maxSize := by
      have := groups.length_pos
      simp only [List.length_cons] at short
      omega
    have fits : ¬(position + 1 = maxSize ∧ 1 < byte) := by omega
    have shorter : position + 1 + tail.length ≤ maxSize := by
      simp only [List.length_cons] at short
      omega
    rw [two_pow_room inside] at small
    rw [List.cons_append, decodeFrom, if_neg fits, if_neg continued, ih shorter (by omega)]
    rfl

theorem groups_of_decodeFrom {bytes : Bytes} {value size position : Nat}
    (inside : position < maxSize) (decoded : decodeFrom position bytes = .ok (value, size)) :
    Groups (bytes.take size) value ∧ position + size ≤ maxSize ∧
      value < 2 ^ (64 - 7 * position) := by
  induction bytes generalizing position value size with
  | nil => cases decoded
  | cons byte rest ih =>
    unfold decodeFrom at decoded
    split at decoded
    · cases decoded
    next fits =>
    split at decoded
    next closed =>
      cases decoded
      refine ⟨.last closed, by omega, ?_⟩
      have below : byte.toNat < 128 := UInt8.lt_iff_toNat_lt.mp closed
      by_cases tenth : position + 1 = maxSize
      · have ninth : position = 9 := Nat.succ.inj tenth
        have tiny : byte.toNat ≤ 1 := toNat_le_one fun large => fits ⟨tenth, large⟩
        rw [ninth]
        omega
      · rw [two_pow_room (by omega)]
        have := Nat.two_pow_pos (64 - 7 * (position + 1))
        omega
    next continued =>
      cases tail : decodeFrom (position + 1) rest with
      | error error => simp [tail, Except.map] at decoded
      | ok result =>
        obtain ⟨high, length⟩ := result
        simp only [tail, Except.map, Except.ok.injEq, Prod.mk.injEq] at decoded
        obtain ⟨rfl, rfl⟩ := decoded
        have more := continued_inside inside fits continued
        obtain ⟨groups, short, small⟩ := ih more tail
        refine ⟨.more continued groups, by omega, ?_⟩
        rw [two_pow_room more]
        omega

theorem Spells.decode_append {bytes : Bytes} {value : Nat} (spells : Spells bytes value)
    (rest : Bytes) : decode (bytes ++ rest) = .ok (value, bytes.length) :=
  spells.groups.decodeFrom_append (by simpa using spells.length_le) spells.lt rest

theorem decode_eq_ok_iff {bytes : Bytes} {value size : Nat} :
    decode bytes = .ok (value, size) ↔ size ≤ bytes.length ∧ Spells (bytes.take size) value := by
  constructor
  · intro decoded
    obtain ⟨groups, short, small⟩ := groups_of_decodeFrom (by decide) decoded
    have inside := (size_of_decodeFrom decoded).2
    refine ⟨inside, groups, ?_, small⟩
    simp only [List.length_take]
    omega
  · rintro ⟨inside, spells⟩
    have decoded := spells.decode_append (bytes.drop size)
    rwa [List.take_append_drop, List.length_take_of_le inside] at decoded

theorem groups_encode (value : Nat) : Groups (encode value) value := by
  induction value using Nat.strongRecOn with
  | ind value ih =>
    by_cases small : value < 128
    · have byte : value.toUInt8.toNat = value := by
        simp
        omega
      have groups : Groups [value.toUInt8] value.toUInt8.toNat :=
        .last (UInt8.lt_iff_toNat_lt.mpr (by simpa [byte] using small))
      rwa [byte, ← encode_of_lt small] at groups
    · have byte : (value % 128 + 128).toUInt8.toNat = value % 128 + 128 := by
        simp
        omega
      have continued : ¬(value % 128 + 128).toUInt8 < 128 := by
        rw [UInt8.lt_iff_toNat_lt, byte]
        simp
      have groups := Groups.more continued (ih (value / 128) (by omega))
      have whole : (value % 128 + 128) % 128 + 128 * (value / 128) = value := by omega
      rwa [byte, whole, ← encode_of_le (by omega)] at groups

theorem length_encode_le {value count : Nat} (small : value < 128 ^ (count + 1)) :
    (encode value).length ≤ count + 1 := by
  induction count generalizing value with
  | zero => rw [encode_of_lt (by simpa using small)]; simp
  | succ count ih =>
    by_cases tiny : value < 128
    · rw [encode_of_lt tiny]
      simp
    · rw [encode_of_le (by omega), List.length_cons]
      rw [Nat.pow_succ] at small
      have smaller : value / 128 < 128 ^ (count + 1) := by omega
      exact Nat.succ_le_succ (ih smaller)

theorem length_encode_le_div (value : Nat) : (encode value).length ≤ 1 + value / 128 := by
  induction value using Nat.strongRecOn with
  | ind value ih =>
    by_cases small : value < 128
    · rw [encode_of_lt small]
      simp
    · have shorter := ih (value / 128) (by omega)
      rw [encode_of_le (by omega), List.length_cons]
      omega

theorem length_encode_mono {value larger : Nat} (le : value ≤ larger) :
    (encode value).length ≤ (encode larger).length := by
  induction larger using Nat.strongRecOn generalizing value with
  | ind larger ih =>
    by_cases small : value < 128
    · rw [encode_of_lt small, encode]
      split <;> simp
    · have shorter := ih (larger / 128) (by omega) (Nat.div_le_div_right le)
      have large : 128 ≤ larger := by omega
      rw [encode_of_le (Nat.le_of_not_lt small), encode_of_le large]
      exact Nat.succ_le_succ shorter

/-- Of all groups that make a number the encoder's are the fewest. -/
theorem Groups.length_encode_le {bytes : Bytes} {value : Nat} (groups : Groups bytes value) :
    (encode value).length ≤ bytes.length := by
  induction groups with
  | @last byte closed =>
    rw [encode_of_lt (UInt8.lt_iff_toNat_lt.mp closed)]
    simp
  | @more byte rest high continued tail ih =>
    by_cases small : byte.toNat % 128 + 128 * high < 128
    · rw [encode_of_lt small]
      simp
    · have shifted : (byte.toNat % 128 + 128 * high) / 128 = high := by omega
      rw [encode_of_le (by omega), shifted, List.length_cons, List.length_cons]
      exact Nat.succ_le_succ ih

theorem length_encode (value : Nat) : (encode value).length = size value := by
  induction value using Nat.strongRecOn with
  | ind value ih =>
    by_cases small : value < 128
    · have narrow : value.log2 / 7 = 0 := by
        rw [Nat.div_eq_zero_iff_lt (by decide)]
        by_cases zero : value = 0
        · rw [zero]
          decide
        · exact (Nat.log2_lt zero).mpr small
      rw [encode_of_lt small, size, narrow]
      rfl
    · have wide : 7 ≤ value.log2 := (Nat.le_log2 (by omega)).mpr (by omega)
      have cut : (value / 128).log2 = value.log2 - 7 := by
        rw [Nat.log2_eq_log_two, Nat.log2_eq_log_two]
        exact Nat.log_div_base_pow 2 value 7
      rw [encode_of_le (by omega), List.length_cons, ih (value / 128) (by omega), size, size, cut]
      omega

theorem Groups.eq_sum {bytes : Bytes} {value : Nat} (groups : Groups bytes value) :
    value = (bytes.mapIdx fun place byte => byte.toNat % 128 * 2 ^ (7 * place)).sum := by
  induction groups with
  | @last byte closed =>
    have below : byte.toNat < 128 := UInt8.lt_iff_toNat_lt.mp closed
    simp [Nat.mod_eq_of_lt below]
  | @more byte rest high continued tail ih =>
    have higher : (rest.mapIdx fun place byte => byte.toNat % 128 * 2 ^ (7 * (place + 1))).sum =
        128 * high := by
      rw [ih, List.mapIdx_eq_zipIdx_map, List.mapIdx_eq_zipIdx_map, ← List.sum_map_mul_left]
      congr 2
      funext entry
      ring
    rw [List.mapIdx_cons, List.sum_cons, higher]
    simp

theorem Groups.getLast?_of_zero {bytes : Bytes} (groups : Groups bytes 0) :
    bytes.getLast? = some 0 := by
  generalize zero : 0 = value at groups
  induction groups with
  | @last byte closed =>
    have same : byte = 0 := UInt8.toNat_inj.mp zero.symm
    rw [same]
    rfl
  | @more byte rest high continued tail ih =>
    rw [List.getLast?_cons, ih (by omega)]
    rfl

/-- The encoder's groups are those whose last one adds something, unless it is the only one. -/
theorem Groups.eq_encode_iff {bytes : Bytes} {value : Nat} (groups : Groups bytes value) :
    bytes = encode value ↔ bytes.length = 1 ∨ bytes.getLast? ≠ some 0 := by
  induction groups with
  | @last byte closed =>
    have small : byte.toNat < 128 := UInt8.lt_iff_toNat_lt.mp closed
    simp [encode_of_lt small]
  | @more byte rest high continued tail ih =>
    have several : (byte :: rest).length ≠ 1 := by
      have := tail.length_pos
      rw [List.length_cons]
      omega
    have last : (byte :: rest).getLast? = rest.getLast? := by
      have filled : rest ≠ [] := List.ne_nil_of_length_pos tail.length_pos
      rw [List.getLast?_cons, List.getLast?_eq_some_getLast filled]
      rfl
    rw [last, or_iff_right several]
    by_cases zero : high = 0
    · rw [zero] at tail ⊢
      have small : byte.toNat % 128 + 128 * 0 < 128 := by omega
      rw [encode_of_lt small, tail.getLast?_of_zero, ne_eq, eq_self, not_true_eq_false,
        iff_false]
      intro same
      exact several (congrArg List.length same)
    · have shifted : (byte.toNat % 128 + 128 * high) / 128 = high := by omega
      have head : ((byte.toNat % 128 + 128 * high) % 128 + 128).toUInt8 = byte := by
        apply UInt8.toNat_inj.mp
        have large := mt UInt8.lt_iff_toNat_lt.mpr continued
        have mark : (128 : UInt8).toNat = 128 := rfl
        have := byte.toNat_lt
        simp
        omega
      rw [encode_of_le (by omega), shifted, head, List.cons_inj_right, ih, or_iff_right_iff_imp]
      intro single ended
      obtain ⟨group, rfl⟩ := List.length_eq_one_iff.mp single
      cases ended
      cases tail with
      | last => exact zero rfl
      | more _ none => cases none

theorem spells_encode {value : Nat} (small : value < 2 ^ 64) : Spells (encode value) value := by
  have length : (encode value).length ≤ 9 + 1 :=
    length_encode_le (Nat.lt_of_lt_of_le small (by decide))
  exact ⟨groups_encode value, length, small⟩

theorem decodeFrom_eq_unexpectedEof_iff {position : Nat} {bytes : Bytes}
    (inside : position < maxSize) :
    decodeFrom position bytes = .error .unexpectedEof ↔
      position + bytes.length < maxSize ∧ ∀ byte ∈ bytes, 128 ≤ byte := by
  induction bytes generalizing position with
  | nil => simpa [decodeFrom] using inside
  | cons byte rest ih =>
    rw [decodeFrom, List.length_cons, List.forall_mem_cons]
    by_cases large : position + 1 = maxSize ∧ 1 < byte
    · rw [if_pos large]
      have full : ¬position + (rest.length + 1) < maxSize := by omega
      simp [full]
    rw [if_neg large]
    by_cases closed : byte < 128
    · rw [if_pos closed]
      simp [UInt8.not_le.mpr closed]
    · have more : position + 1 < maxSize := (continued_inside inside large closed)
      rw [if_neg closed]
      simp only [Outcome.map_eq_error_iff, ih more, UInt8.not_lt.mp closed, true_and,
        Nat.add_assoc, Nat.add_comm 1]

theorem decodeFrom_eq_overflow_iff {position : Nat} {bytes : Bytes} (inside : position < maxSize) :
    decodeFrom position bytes = .error .overflow ↔
      ∃ front tenth rest, bytes = front ++ tenth :: rest ∧
        position + front.length + 1 = maxSize ∧ (∀ byte ∈ front, 128 ≤ byte) ∧ 1 < tenth := by
  induction bytes generalizing position with
  | nil => simp [decodeFrom]
  | cons byte rest ih =>
    rw [decodeFrom]
    by_cases large : position + 1 = maxSize ∧ 1 < byte
    · rw [if_pos large]
      exact iff_of_true rfl ⟨[], byte, rest, rfl, large.1, nofun, large.2⟩
    rw [if_neg large]
    constructor
    · intro refused
      split at refused
      · cases refused
      next continued =>
      have more := continued_inside inside large continued
      rw [Outcome.map_eq_error_iff, ih more] at refused
      obtain ⟨front, tenth, others, rfl, last, announced, above⟩ := refused
      refine ⟨byte :: front, tenth, others, rfl, ?_, ?_, above⟩
      · rw [List.length_cons]
        omega
      · exact List.forall_mem_cons.mpr ⟨UInt8.not_lt.mp continued, announced⟩
    · rintro ⟨front, tenth, others, whole, last, announced, above⟩
      cases front with
      | nil =>
        cases whole
        exact absurd ⟨last, above⟩ large
      | cons first front =>
        rw [List.cons_append, List.cons.injEq] at whole
        obtain ⟨rfl, rfl⟩ := whole
        rw [List.length_cons] at last
        obtain ⟨continued, announced⟩ := List.forall_mem_cons.mp announced
        rw [if_neg (UInt8.not_lt.mpr continued), Outcome.map_eq_error_iff, ih (by omega)]
        exact ⟨front, tenth, others, rfl, by omega, announced, above⟩

theorem decode_eq_unexpectedEof_iff {bytes : Bytes} :
    decode bytes = .error .unexpectedEof ↔
      bytes.length < maxSize ∧ ∀ byte ∈ bytes, 128 ≤ byte := by
  rw [decode, decodeFrom_eq_unexpectedEof_iff (by decide), Nat.zero_add]

theorem decode_eq_overflow_iff {bytes : Bytes} :
    decode bytes = .error .overflow ↔
      ∃ nine tenth rest, bytes = nine ++ tenth :: rest ∧ nine.length = 9 ∧
        (∀ byte ∈ nine, 128 ≤ byte) ∧ 1 < tenth := by
  simp only [decode, decodeFrom_eq_overflow_iff (by decide : 0 < maxSize), maxSize, Nat.zero_add,
    Nat.reduceEqDiff]

variable {bytes : Bytes}

theorem decode_append_of_ok {result : Nat × Nat} (decoded : decode bytes = .ok result)
    (more : Bytes) : decode (bytes ++ more) = .ok result := by
  obtain ⟨inside, spells⟩ := decode_eq_ok_iff.mp decoded
  have longer := spells.decode_append (bytes.drop result.2 ++ more)
  rwa [← List.append_assoc, List.take_append_drop, List.length_take_of_le inside] at longer

theorem decode_append_of_overflow (refused : decode bytes = .error .overflow) (more : Bytes) :
    decode (bytes ++ more) = .error .overflow := by
  obtain ⟨nine, tenth, rest, rfl, above⟩ := decode_eq_overflow_iff.mp refused
  rw [decode_eq_overflow_iff]
  exact ⟨nine, tenth, rest ++ more, by rw [List.append_assoc, List.cons_append], above⟩

theorem decode_front_of_unexpectedEof {front : Bytes}
    (ended : decode bytes = .error .unexpectedEof) (opens : front <+: bytes) :
    decode front = .error .unexpectedEof := by
  obtain ⟨short, announced⟩ := decode_eq_unexpectedEof_iff.mp ended
  exact decode_eq_unexpectedEof_iff.mpr
    ⟨opens.length_le.trans_lt short, fun byte listed => announced byte (opens.mem listed)⟩

theorem exists_decode_concat_zero (ended : decode bytes = .error .unexpectedEof) :
    ∃ result, decode (bytes ++ [0]) = .ok result := by
  obtain ⟨short, -⟩ := decode_eq_unexpectedEof_iff.mp ended
  cases outcome : decode (bytes ++ [0]) with
  | ok result => exact ⟨result, rfl⟩
  | error cause =>
    cases cause with
    | unexpectedEof =>
      have announced := (decode_eq_unexpectedEof_iff.mp outcome).2 0 (by simp)
      exact absurd announced (by decide)
    | overflow =>
      obtain ⟨nine, tenth, rest, whole, nine_length, -, above⟩ :=
        decode_eq_overflow_iff.mp outcome
      have lengths := congrArg List.length whole
      simp only [List.length_append, List.length_cons, List.length_nil] at lengths
      simp only [maxSize] at short
      -- There is room for a tenth byte at most, and zero is not too large for it.
      have alone : rest = [] := List.eq_nil_of_length_eq_zero (by omega)
      rw [alone] at whole
      cases (List.append_inj' whole rfl).2
      exact absurd above (by decide)

end HeaderCodec.Varint
