import HeaderCodec.Bytes
import HeaderCodec.Stream.Fault

/-! A stream between two programs: bytes are read from the front and written at the back. It may
hold a limited number of unread bytes. -/

namespace HeaderCodec

structure ByteQueue where
  unread : Bytes
  capacity : Option Nat
  deriving Repr, DecidableEq

namespace ByteQueue

def empty : ByteQueue := ⟨[], none⟩

/-- Puts bytes behind the unread ones, whatever the capacity. -/
def push (queue : ByteQueue) (bytes : Bytes) : ByteQueue :=
  { queue with unread := queue.unread ++ bytes }

/-- Reads exactly `count` bytes. Where there are fewer, they are gone. -/
def read (queue : ByteQueue) (count : Nat) : Except Stream.Fault Bytes × ByteQueue :=
  let (front, unread) := queue.unread.split count
  if front.length < count then (.error .unexpectedEof, { queue with unread := [] })
  else (.ok front, { queue with unread })

/-- Reads what is left of `count` bytes and fills up with zeros, for a reader that had already
set the place aside. -/
def readPadded (queue : ByteQueue) (count : Nat) : Bytes :=
  let front := queue.unread.take count
  front ++ List.replicate (count - front.length) 0

/-- Writes all bytes, or as many as there is room for. -/
def write (queue : ByteQueue) (bytes : Bytes) : Except Stream.Fault Unit × ByteQueue :=
  match queue.capacity with
  | none => (.ok (), queue.push bytes)
  | some capacity =>
    let room := capacity - queue.unread.length
    if bytes.length ≤ room then (.ok (), queue.push bytes)
    else (.error .writeZero, queue.push (bytes.take room))

theorem read_length_append (capacity : Option Nat) (front rest : Bytes) :
    read ⟨front ++ rest, capacity⟩ front.length = (.ok front, ⟨rest, capacity⟩) := by
  simp [read]

def readOver (transport : Transport) (queue : ByteQueue) (count : Nat) :
    Except Stream.Error Bytes × ByteQueue :=
  let (result, queue) := queue.read count
  (result.mapError (⟨transport, ·⟩), queue)

theorem readOver_length_append (transport : Transport) (capacity : Option Nat)
    (front rest : Bytes) :
    readOver transport ⟨front ++ rest, capacity⟩ front.length = (.ok front, ⟨rest, capacity⟩) := by
  rw [readOver, read_length_append]
  rfl

def writeOver (transport : Transport) (queue : ByteQueue) (bytes : Bytes) :
    Except Stream.Error Nat × ByteQueue :=
  let (result, queue) := queue.write bytes
  ((result.map fun _ => bytes.length).mapError (⟨transport, ·⟩), queue)

end ByteQueue

end HeaderCodec
