import HeaderCodec.Bytes

/-! A buffer is a byte string that is written in place and keeps the room it once had. The room
decides whether a pool keeps the buffer, and nothing else. -/

namespace HeaderCodec

structure Buffer where
  bytes : Bytes
  capacity : Nat
  deriving Repr, DecidableEq

namespace Buffer

def empty : Buffer := ⟨[], 0⟩

/-- Makes room for `count` more bytes: at least twice the room there was. -/
def reserve (buffer : Buffer) (count : Nat) : Buffer :=
  let length := buffer.bytes.length
  if count ≤ buffer.capacity - length then buffer
  else { buffer with capacity := max (max (2 * buffer.capacity) (length + count)) 8 }

def clear (buffer : Buffer) : Buffer :=
  { buffer with bytes := [] }

def append (buffer : Buffer) (bytes : Bytes) : Buffer :=
  let buffer := buffer.reserve bytes.length
  { buffer with bytes := buffer.bytes ++ bytes }

def assign (buffer : Buffer) (bytes : Bytes) : Buffer :=
  buffer.clear.append bytes

/-! Only the capacity depends on the room: the content is that of plain byte strings. -/

@[simp] theorem bytes_reserve (buffer : Buffer) (count : Nat) :
    (buffer.reserve count).bytes = buffer.bytes := by
  simp only [reserve]
  split <;> rfl

@[simp] theorem bytes_clear (buffer : Buffer) : buffer.clear.bytes = [] := rfl

@[simp] theorem bytes_append (buffer : Buffer) (bytes : Bytes) :
    (buffer.append bytes).bytes = buffer.bytes ++ bytes := by
  simp [append]

@[simp] theorem bytes_assign (buffer : Buffer) (bytes : Bytes) :
    (buffer.assign bytes).bytes = bytes := by
  simp [assign]

theorem le_capacity_reserve (buffer : Buffer) (count : Nat) :
    count ≤ (buffer.reserve count).capacity - buffer.bytes.length := by
  simp only [reserve]
  split
  · assumption
  · simp only
    omega

theorem reserve_of_le {buffer : Buffer} {count : Nat}
    (room : count ≤ buffer.capacity - buffer.bytes.length) : buffer.reserve count = buffer :=
  if_pos room

theorem append_append_reserve (buffer : Buffer) (front back : Bytes) :
    ((buffer.reserve (front.length + back.length)).append front).append back =
      buffer.append (front ++ back) := by
  have room := buffer.le_capacity_reserve (front.length + back.length)
  have bytes := buffer.bytes_reserve (front.length + back.length)
  have first : (buffer.reserve (front.length + back.length)).reserve front.length =
      buffer.reserve (front.length + back.length) :=
    reserve_of_le (by rw [bytes]; omega)
  simp only [append, List.length_append, first, bytes, ← List.append_assoc]
  rw [reserve_of_le (by simp only [List.length_append]; omega)]

end Buffer

end HeaderCodec
