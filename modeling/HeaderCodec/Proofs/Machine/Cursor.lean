import HeaderCodec.Machine.Cursor
import HeaderCodec.Proofs.Literal
import HeaderCodec.Proofs.Machine.Nodes
import HeaderCodec.Proofs.Machine.Words

/-! A cursor stands where a reader stands. In a section whose bits a word can count, what the one
reads the other reads too, and no sum, shift or slice is trapped. -/

namespace HeaderCodec.Machine

theorem toNat_and_low (byte : UInt8) : (byte &&& 0x7f).toNat = byte.toNat % 128 := by
  rw [UInt8.toNat_and]
  exact Nat.and_two_pow_sub_one_eq_mod byte.toNat 7

private theorem toNat_group (byte : UInt8) : (byte &&& 0x7f).toUInt64.toNat = byte.toNat % 128 := by
  rw [UInt8.toNat_toUInt64, toNat_and_low]

private theorem closed_iff {byte : UInt8} : byte &&& 0x80 = 0 ↔ byte < 128 := by
  have all : ∀ bits : BitVec 8, bits &&& 0x80 = 0 ↔ bits < 128 := by decide +kernel
  rw [← UInt8.toBitVec_inj, UInt8.lt_iff_toBitVec_lt]
  exact all byte.toBitVec

private theorem overflow_iff {position : Nat} {byte : UInt8} :
    (7 * position = Varint.maxShift ∧ (1 < (byte &&& 0x7f).toUInt64 ∨ byte &&& 0x80 ≠ 0)) ↔
      position + 1 = Varint.maxSize ∧ 1 < byte := by
  have place : 7 * position = Varint.maxShift ↔ position + 1 = Varint.maxSize := by
    simp only [Varint.maxShift, Varint.maxSize]
    omega
  rw [place, ne_eq, closed_iff, UInt64.lt_iff_toNat_lt, toNat_group, UInt8.lt_iff_toNat_lt,
    UInt8.lt_iff_toNat_lt]
  have one : (1 : UInt64).toNat = 1 := rfl
  have one' : (1 : UInt8).toNat = 1 := rfl
  have mark : (128 : UInt8).toNat = 128 := rfl
  omega

private theorem group_fits {position : Nat} {byte : UInt8} (inside : position < Varint.maxSize)
    (fits : ¬(position + 1 = Varint.maxSize ∧ 1 < byte)) :
    byte.toNat % 128 * 2 ^ (7 * position) < 2 ^ 64 := by
  have group : byte.toNat % 128 < 128 := Nat.mod_lt _ (by decide)
  by_cases tenth : position + 1 = Varint.maxSize
  · have ninth : position = 9 := Nat.succ.inj tenth
    have tiny : byte.toNat ≤ 1 := Varint.toNat_le_one fun large => fits ⟨tenth, large⟩
    rw [ninth]
    omega
  · have room : 2 ^ (7 * position) ≤ 2 ^ 56 := by
      refine Nat.pow_le_pow_right (by decide) ?_
      simp only [Varint.maxSize] at inside tenth
      omega
    calc byte.toNat % 128 * 2 ^ (7 * position) ≤ 128 * 2 ^ 56 :=
          Nat.mul_le_mul (Nat.le_of_lt group) room
      _ < 2 ^ 64 := by decide

/-- A machine that has read the groups before `position` into `value` reads the number of all. -/
theorem scanFrom_eq {position : Nat} {value : UInt64} (inside : position < Varint.maxSize)
    (low : value.toNat < 2 ^ (7 * position)) (bytes : Bytes) :
    scanFrom position (7 * position) value bytes =
      ((Varint.decodeFrom position bytes).map fun (high, size) =>
        ((value.toNat + 2 ^ (7 * position) * high).toUInt64, position + size)).mapError
          .refused := by
  induction bytes generalizing position value with
  | nil => rfl
  | cons byte rest ih =>
    rw [scanFrom, Varint.decodeFrom]
    dsimp only
    by_cases large : position + 1 = Varint.maxSize ∧ 1 < byte
    · rw [if_pos (overflow_iff.mpr large), if_pos large]
      rfl
    have few : position < 10 := inside
    have narrow : 7 * position < 64 := by omega
    have fits := group_fits inside large
    rw [← toNat_group] at fits
    have number := toNat_or_shiftLeft low narrow fits
    rw [toNat_group] at number
    have counted : position + 1 < UInt64.size := lt_word (by omega)
    rw [if_neg (mt overflow_iff.mp large), if_neg large, shiftLeft_eq_ok narrow,
      Outcome.ok_bind, add, if_pos counted, Outcome.ok_bind]
    by_cases closed : byte < 128
    · have small : byte.toNat < 128 := UInt8.lt_iff_toNat_lt.mp closed
      rw [if_pos (closed_iff.mpr closed), if_pos closed]
      rw [Nat.mod_eq_of_lt small] at number
      simp only [Except.map, Except.mapError, ← number, Nat.toUInt64_eq, UInt64.ofNat_toNat]
    · have more : position + 1 < Varint.maxSize := Varint.continued_inside inside large closed
      have shifted : 7 * position + 7 < UInt32.size := by
        simp only [UInt32.size]
        omega
      have group : byte.toNat % 128 < 128 := Nat.mod_lt _ (by decide)
      have power : 2 ^ (7 * (position + 1)) = 2 ^ (7 * position) * 128 := by
        rw [Nat.mul_add, Nat.pow_add]
      have higher : (value ||| (byte &&& 0x7f).toUInt64 <<< (7 * position).toUInt64).toNat <
          2 ^ (7 * (position + 1)) := by
        rw [number, power]
        nlinarith
      rw [if_neg (mt closed_iff.mp closed), if_neg closed, add, if_pos shifted, Outcome.ok_bind]
      have place : 7 * position + 7 = 7 * (position + 1) := by omega
      rw [place, ih more higher, number, power]
      cases Varint.decodeFrom (position + 1) rest with
      | error error => rfl
      | ok result =>
        simp only [Except.map, Except.mapError, Except.ok.injEq, Prod.mk.injEq]
        constructor
        · congr 1
          ring
        · omega

theorem scan_eq (bytes : Bytes) :
    scan bytes = ((Varint.decode bytes).map fun (value, size) => (value.toUInt64, size)).mapError
      .refused := by
  rw [scan, scanFrom_eq (by decide) (by decide)]
  simp [Varint.decode]

namespace Cursor

variable {α : Type} {cursor : Cursor}

def reader (cursor : Cursor) : Reader := ⟨cursor.position, cursor.buffer.drop cursor.position⟩

/-- The cursor is inside of its section, whose bits a word can count. -/
structure Fits (cursor : Cursor) : Prop where
  position_le : cursor.position ≤ cursor.buffer.length
  length_lt : cursor.buffer.length < 2 ^ 61

theorem fits_ofSection {bytes : Bytes} (small : bytes.length ≤ Limits.maxDumpEntriesSize) :
    (ofSection bytes).Fits := ⟨Nat.zero_le _, Nat.lt_of_le_of_lt small (by decide)⟩

theorem reader_ofSection (bytes : Bytes) : (ofSection bytes).reader = .ofSection bytes := rfl

/-- What a step of the reader is for the cursor. -/
def resume (cursor : Cursor) :
    Except DecodeError (α × Reader) → Checked DecodeError (α × Cursor)
  | .error cause => .error (.refused cause)
  | .ok (value, after) => .ok (value, { cursor with position := after.offset })

theorem eq_ok_of_resume {outcome : Except DecodeError (α × Reader)} {value : α} {after : Cursor}
    (resumed : cursor.resume outcome = .ok (value, after)) :
    ∃ place : Reader, outcome = .ok (value, place) ∧ place.offset = after.position := by
  cases outcome with
  | error cause => cases resumed
  | ok result =>
    cases resumed
    exact ⟨result.2, rfl, rfl⟩

theorem reader_of_passes (fits : cursor.Fits) {bytes : Bytes} {after : Reader}
    (passes : cursor.reader.Passes bytes after) :
    { cursor with position := after.offset }.reader = after ∧
      { cursor with position := after.offset }.Fits := by
  have rest : cursor.buffer.drop cursor.position = bytes ++ after.rest := passes.rest_eq
  have offset : after.offset = cursor.position + bytes.length := passes.offset_eq
  constructor
  · have behind : cursor.buffer.drop after.offset = after.rest := by
      rw [offset, ← List.drop_drop, rest, List.drop_left]
    rw [reader, behind]
  · have inside := congrArg List.length rest
    have := fits.position_le
    rw [List.length_drop, List.length_append] at inside
    exact ⟨by simp only; omega, fits.length_lt⟩

theorem readVarint_eq (fits : cursor.Fits) : cursor.readVarint =
    cursor.resume (cursor.reader.readVarint.map fun (value, after) => (value.toUInt64, after)) := by
  rw [readVarint, Reader.readVarint, scan_eq]
  dsimp only [reader]
  cases decoded : Varint.decode (cursor.buffer.drop cursor.position) with
  | error error => cases error <;> rfl
  | ok result =>
    obtain ⟨value, size⟩ := result
    have inside := (Varint.size_of_decodeFrom decoded).2
    have position := fits.position_le
    have length := fits.length_lt
    rw [List.length_drop] at inside
    have sum : cursor.position + size < UInt64.size := lt_word (by omega)
    simp only [Except.map, Except.mapError, Outcome.ok_bind, add, if_pos sum, resume,
      Reader.advance]

private theorem toNat_claimed {head : Nat} (small : head < 2 ^ 64) :
    (head.toUInt64 >>> 1).toNat = head / 2 := by
  rw [show (1 : UInt64) = (1 : Nat).toUInt64 from rfl, toNat_shiftRight (by decide), Nat.pow_one]
  exact congrArg (· / 2) (UInt64.toNat_ofNat_of_lt' small)

theorem flag_iff {head : Nat} : head.toUInt64 &&& 1 = 0 ↔ head % 2 = 0 := by
  rw [← UInt64.toNat_inj, UInt64.toNat_and]
  have one : (1 : UInt64).toNat = 2 ^ 1 - 1 := rfl
  rw [one, Nat.and_two_pow_sub_one_eq_mod]
  simp

theorem readLiteral_eq (fits : cursor.Fits) (coder : Coder) :
    cursor.readLiteral coder = cursor.resume (cursor.reader.readLiteral coder) := by
  rw [readLiteral, Reader.readLiteral, readVarint_eq fits]
  cases varint : cursor.reader.readVarint with
  | error error => rfl
  | ok result =>
    obtain ⟨head, after⟩ := result
    obtain ⟨bytes, spelled, passes⟩ := (Reader.recognizes_readVarint _ _ _).mp varint
    obtain ⟨stands, fits⟩ := reader_of_passes fits passes
    have rest : cursor.buffer.drop after.offset = after.rest := congrArg Reader.rest stands
    have length : after.rest.length = cursor.buffer.length - after.offset := by
      rw [← rest, List.length_drop]
    have position : after.offset ≤ cursor.buffer.length := fits.position_le
    have small : cursor.buffer.length < 2 ^ 61 := fits.length_lt
    simp only [Except.map, resume, Outcome.ok_bind, remaining, toNat_claimed spelled.lt,
      flag_iff, Bytes.split_eq, List.length_take, ← length]
    by_cases short : after.rest.length < head / 2
    · have less : min (head / 2) after.rest.length = after.rest.length := by omega
      rw [if_pos short, less, if_pos short]
    · have whole : min (head / 2) after.rest.length = head / 2 := by omega
      have sum : after.offset + head / 2 < UInt64.size := lt_word (by omega)
      have range : after.offset ≤ after.offset + head / 2 ∧
          after.offset + head / 2 ≤ cursor.buffer.length := by omega
      have width : after.offset + head / 2 - after.offset = head / 2 := by omega
      have product : head / 2 * 8 < UInt64.size := by
        rw [UInt64.size]
        omega
      have room : head / 2 * 8 / 5 + 1 < UInt64.size / 2 :=
        Nat.lt_trans (by omega : _ < 2 ^ 62) (by decide)
      rw [if_neg short, whole, if_neg (Nat.lt_irrefl _)]
      simp only [add, if_pos sum, slice, if_pos range, width, rest, Outcome.ok_bind]
      split
      · rfl
      · simp only [multiply, List.length_take, whole, if_pos product, if_pos room, Outcome.ok_bind,
          decodeWith_eq]
        cases coder.decode (after.rest.take (head / 2)) <;> rfl

theorem readNonEmpty_eq (fits : cursor.Fits) (coder : Coder) :
    cursor.readNonEmpty coder = cursor.resume (cursor.reader.readNonEmpty coder) := by
  rw [readNonEmpty, Reader.readNonEmpty, readLiteral_eq fits]
  cases cursor.reader.readLiteral coder with
  | error error => rfl
  | ok result =>
    simp only [resume, Outcome.ok_bind]
    split <;> rfl

inductive Moves (coder : Coder) (cursor after : Cursor) : Prop
  | byte {byte : UInt8} (read : cursor.nextByte = .ok (some (byte, after)))
  | varint {value : UInt64} (read : cursor.readVarint = .ok (value, after))
  | literal {text : Bytes} (read : cursor.readLiteral coder = .ok (text, after))

structure Ahead (cursor after : Cursor) : Prop where
  buffer_eq : after.buffer = cursor.buffer
  lt : cursor.position < after.position
  le_length : after.position ≤ cursor.buffer.length

variable {after : Cursor}

theorem ahead_of_nextByte {byte : UInt8} (read : cursor.nextByte = .ok (some (byte, after))) :
    cursor.Ahead after := by
  unfold nextByte at read
  split at read
  · cases read
  next here =>
    have inside := (List.getElem?_eq_some_iff.mp here).1
    obtain ⟨position, sum, same⟩ := Outcome.bind_eq_ok_iff.mp read
    obtain ⟨-, rfl⟩ := add_eq_ok_iff.mp sum
    cases same
    exact ⟨rfl, Nat.lt_succ_self _, inside⟩

theorem ahead_of_readVarint {value : UInt64} (read : cursor.readVarint = .ok (value, after)) :
    cursor.Ahead after := by
  obtain ⟨⟨value, size⟩, scanned, read⟩ := Outcome.bind_eq_ok_iff.mp read
  rw [Outcome.mapError_eq_ok_iff, scan_eq, Outcome.mapError_eq_ok_iff,
    Outcome.map_eq_ok_iff] at scanned
  obtain ⟨⟨number, size⟩, decoded, same⟩ := scanned
  cases same
  obtain ⟨position, sum, same⟩ := Outcome.bind_eq_ok_iff.mp read
  obtain ⟨-, rfl⟩ := add_eq_ok_iff.mp sum
  cases same
  obtain ⟨some, inside⟩ := Varint.size_of_decodeFrom decoded
  rw [List.length_drop] at inside
  refine ⟨rfl, ?_, ?_⟩
  · show cursor.position < cursor.position + size
    omega
  · show cursor.position + size ≤ cursor.buffer.length
    omega

theorem ahead_of_readLiteral {coder : Coder} {text : Bytes}
    (read : cursor.readLiteral coder = .ok (text, after)) : cursor.Ahead after := by
  obtain ⟨⟨head, middle⟩, varint, read⟩ := Outcome.bind_eq_ok_iff.mp read
  have begun := ahead_of_readVarint varint
  dsimp only at read
  split at read
  · cases read
  obtain ⟨stop, sum, read⟩ := Outcome.bind_eq_ok_iff.mp read
  obtain ⟨-, rfl⟩ := add_eq_ok_iff.mp sum
  obtain ⟨payload, cut, read⟩ := Outcome.bind_eq_ok_iff.mp read
  obtain ⟨⟨-, inside⟩, -⟩ := slice_eq_ok_iff.mp cut
  rw [begun.buffer_eq] at inside
  have place : after = { middle with position := middle.position + (head >>> 1).toNat } := by
    split at read
    · cases read
      rfl
    · obtain ⟨_, -, read⟩ := Outcome.bind_eq_ok_iff.mp read
      obtain ⟨_, -, read⟩ := Outcome.bind_eq_ok_iff.mp read
      obtain ⟨_, -, read⟩ := Outcome.bind_eq_ok_iff.mp read
      cases read
      rfl
  rw [place]
  exact ⟨begun.buffer_eq, Nat.lt_of_lt_of_le begun.lt (Nat.le_add_right _ _), inside⟩

theorem Moves.ahead {coder : Coder} (moves : Moves coder cursor after) : cursor.Ahead after := by
  cases moves with
  | byte read => exact ahead_of_nextByte read
  | varint read => exact ahead_of_readVarint read
  | literal read => exact ahead_of_readLiteral read

theorem ahead_of_moves {coder : Coder} (moves : Relation.TransGen (Moves coder) cursor after) :
    cursor.Ahead after := by
  induction moves with
  | single first => exact first.ahead
  | tail _ last ih =>
    have next := last.ahead
    refine ⟨next.buffer_eq.trans ih.buffer_eq, Nat.lt_trans ih.lt next.lt, ?_⟩
    rw [← ih.buffer_eq]
    exact next.le_length

/-- The cursor was moved to where it is from the start of a section. -/
def Reached (coder : Coder) (bytes : Bytes) (cursor : Cursor) : Prop :=
  Relation.ReflTransGen (Moves coder) (.ofSection bytes) cursor

theorem Reached.inside {coder : Coder} {bytes : Bytes} (reached : Reached coder bytes cursor) :
    cursor.buffer = bytes ∧ cursor.position ≤ bytes.length := by
  rcases Relation.reflTransGen_iff_eq_or_transGen.mp reached with rfl | moved
  · exact ⟨rfl, Nat.zero_le _⟩
  · have ahead := ahead_of_moves moved
    exact ⟨ahead.buffer_eq, ahead.le_length⟩

end Cursor

end HeaderCodec.Machine
