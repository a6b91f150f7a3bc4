import HeaderCodec.Bytes

/-! A field is a name with a value. Inside a dictionary a field with an empty value stands for the
name alone, which lets the name be referred to while its value travels in full. -/

namespace HeaderCodec

structure Field where
  name : Bytes
  value : Bytes
  deriving Repr, Inhabited, DecidableEq, BEq, ReflBEq, LawfulBEq

namespace Field

def nameOnly (name : Bytes) : Field := ⟨name, []⟩

def isNameOnly (field : Field) : Bool := field.value.isEmpty

def size (field : Field) : Nat := field.name.length + field.value.length

end Field

inductive FieldKind
  | literal
  | nameReference
  | indexed
  deriving DecidableEq, Repr

namespace FieldKind

def tag : FieldKind → UInt8
  | literal => 1
  | nameReference => 2
  | indexed => 3

def ofTag? (tag : UInt8) : Option FieldKind :=
  if tag = literal.tag then some literal
  else if tag = nameReference.tag then some nameReference
  else if tag = indexed.tag then some indexed
  else none

theorem ofTag?_eq_some_iff {tag : UInt8} {kind : FieldKind} :
    ofTag? tag = some kind ↔ tag = kind.tag := by
  constructor
  · intro known
    unfold ofTag? at known
    split at known
    next literal =>
      cases known
      exact literal
    split at known
    next nameReference =>
      cases known
      exact nameReference
    split at known
    next indexed =>
      cases known
      exact indexed
    · cases known
  · rintro rfl
    cases kind <;> rfl

end FieldKind

end HeaderCodec
