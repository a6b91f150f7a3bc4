import HeaderCodec.Field

/-! Both ends of a connection hold the same list of entries and refer to them by position. A name is
entered alone before its first pair, and nothing is entered twice. -/

namespace HeaderCodec

structure Dictionary where
  entries : List Field
  deriving Repr, DecidableEq

inductive Lookup
  | miss
  | name (nameIndex : Nat)
  | pair (nameIndex pairIndex : Nat)
  deriving DecidableEq, Repr

namespace Lookup

def nameIndex? : Lookup → Option Nat
  | miss => none
  | name nameIndex => some nameIndex
  | pair nameIndex _ => some nameIndex

def pairIndex? : Lookup → Option Nat
  | pair _ pairIndex => some pairIndex
  | _ => none

end Lookup

namespace Dictionary

def empty : Dictionary := ⟨[]⟩

def enter (entries : List Field) (entry : Field) : List Field :=
  if entries.contains entry then entries else entries ++ [entry]

/-- Registers a field after others. A field without a name is skipped. -/
def register (entries : List Field) (field : Field) : List Field :=
  if field.name.isEmpty then entries
  else
    let name := field.name.lower
    enter (enter entries (.nameOnly name)) ⟨name, field.value⟩

def ofFields (fields : List Field) : Dictionary :=
  ⟨fields.foldl register []⟩

def reset (dictionary : Dictionary) : Dictionary :=
  { dictionary with entries := [] }

def load (dictionary : Dictionary) (fields : List Field) : Dictionary :=
  ⟨fields.foldl register dictionary.reset.entries⟩

@[simp] theorem load_eq (dictionary : Dictionary) (fields : List Field) :
    dictionary.load fields = ofFields fields := rfl

def isEmpty (dictionary : Dictionary) : Bool :=
  dictionary.entries.isEmpty

def size (dictionary : Dictionary) : Nat :=
  dictionary.entries.length

def contentSize (dictionary : Dictionary) : Nat :=
  dictionary.entries.foldl (fun sum entry => sum + entry.size) 0

def get? (dictionary : Dictionary) (index : Nat) : Option Field :=
  dictionary.entries[index]?

/-- The name is looked up in lower case; an empty value matches the name alone. -/
def index (dictionary : Dictionary) (name value : Bytes) : Lookup :=
  if name.isEmpty then .miss
  else
    match dictionary.entries.idxOf? (.nameOnly name.lower) with
    | none => .miss
    | some nameIndex =>
      if value.isEmpty then .name nameIndex
      else
        match dictionary.entries.idxOf? ⟨name.lower, value⟩ with
        | none => .name nameIndex
        | some pairIndex => .pair nameIndex pairIndex

/-- Visits entries in order until a visit answers `false`; that one is the last. -/
def visitFrom (visit : σ → Nat → Field → σ × Bool) (position : Nat) :
    List Field → σ → σ
  | [], state => state
  | entry :: rest, state =>
    match visit state position entry with
    | (state, true) => visitFrom visit (position + 1) rest state
    | (state, false) => state

def visit (dictionary : Dictionary) (visit : σ → Nat → Field → σ × Bool) (start : σ) : σ :=
  visitFrom visit 0 dictionary.entries start

def nameOnlyCount (dictionary : Dictionary) : Nat :=
  dictionary.entries.countP Field.isNameOnly

end Dictionary

end HeaderCodec
