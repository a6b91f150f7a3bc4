import HeaderCodec.Bytes

/-! A machine computes on words of limited width and finds nothing outside of its buffers. A program
that asks for more is stopped by the machine, which is not the same as refusing its input. -/

namespace HeaderCodec.Machine

inductive Trap
  | overflow
  /-- A word is shifted by its whole width or more. -/
  | shift
  /-- A place is read or written that is not in the buffer. -/
  | outside
  /-- A loop takes more rounds than it was given. -/
  | endless
  deriving DecidableEq, Repr

inductive Stop (ε : Type)
  | trapped (trap : Trap)
  | refused (cause : ε)
  deriving DecidableEq, Repr

abbrev Checked (ε α : Type) := Except (Stop ε) α

def Stop.map {ε ε' : Type} (f : ε → ε') : Stop ε → Stop ε'
  | trapped trap => trapped trap
  | refused cause => refused (f cause)

/-! Numbers of a word of some size, such as `UInt64.size`, are those below it. -/

section

variable {ε α : Type}

def add (size first second : Nat) : Checked ε Nat :=
  if first + second < size then .ok (first + second) else .error (.trapped .overflow)

def subtract (first second : Nat) : Checked ε Nat :=
  if second ≤ first then .ok (first - second) else .error (.trapped .overflow)

def multiply (size first second : Nat) : Checked ε Nat :=
  if first * second < size then .ok (first * second) else .error (.trapped .overflow)

/-- Bits that leave the word at its upper end are lost. -/
def shiftLeft (word : UInt64) (count : Nat) : Checked ε UInt64 :=
  if count < 64 then .ok (word <<< count.toUInt64) else .error (.trapped .shift)

def shiftRight (word : UInt64) (count : Nat) : Checked ε UInt64 :=
  if count < 64 then .ok (word >>> count.toUInt64) else .error (.trapped .shift)

def shiftByteRight (byte : UInt8) (count : Nat) : Checked ε UInt8 :=
  if count < 8 then .ok (byte >>> count.toUInt8) else .error (.trapped .shift)

def slice (bytes : Bytes) (start stop : Nat) : Checked ε Bytes :=
  if start ≤ stop ∧ stop ≤ bytes.length then .ok ((bytes.drop start).take (stop - start))
  else .error (.trapped .outside)

def fetch (items : List α) (place : Nat) : Checked ε α :=
  match items[place]? with
  | some item => .ok item
  | none => .error (.trapped .outside)

def store (items : List α) (place : Nat) (item : α) : Checked ε (List α) :=
  if place < items.length then .ok (items.set place item) else .error (.trapped .outside)

end

end HeaderCodec.Machine
