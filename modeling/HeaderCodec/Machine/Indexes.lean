import HeaderCodec.Dictionary
import Mathlib

/-! Beside the list of entries stands an index of the names: for each name the place where it stands
alone, and an index of the values that it was registered with. -/

namespace HeaderCodec.Machine

open Std (ExtHashMap)

/-- Where the entries of one name are: the name alone, and the pairs by their values. -/
structure NamePlaces where
  alone : Nat
  pairs : ExtHashMap Bytes Nat

structure IndexedDictionary where
  entries : List Field
  names : ExtHashMap Bytes NamePlaces

namespace IndexedDictionary

def empty : IndexedDictionary := ⟨[], ∅⟩

def plain (dictionary : IndexedDictionary) : Dictionary := ⟨dictionary.entries⟩

def reset (dictionary : IndexedDictionary) : IndexedDictionary :=
  { dictionary with entries := [], names := ∅ }

def enterName (dictionary : IndexedDictionary) (name : Bytes) : IndexedDictionary :=
  if dictionary.names.contains name then dictionary
  else
    { entries := dictionary.entries ++ [.nameOnly name]
      names := dictionary.names.insert name ⟨dictionary.entries.length, ∅⟩ }

/-- Enters a value of a name that stands alone already, unless it has been entered before. -/
def enterValue (dictionary : IndexedDictionary) (name value : Bytes) : IndexedDictionary :=
  let next := dictionary.entries.length
  match dictionary.names[name]? with
  | none => dictionary
  | some places =>
    if places.pairs.contains value then dictionary
    else
      let places := { places with pairs := places.pairs.insert value next }
      { entries := dictionary.entries ++ [⟨name, value⟩]
        names := dictionary.names.insert name places }

def register (dictionary : IndexedDictionary) (field : Field) : IndexedDictionary :=
  if field.name.isEmpty then dictionary
  else
    let name := field.name.lower
    let dictionary := dictionary.enterName name
    if field.value.isEmpty then dictionary else dictionary.enterValue name field.value

def load (dictionary : IndexedDictionary) (fields : List Field) : IndexedDictionary :=
  fields.foldl register dictionary.reset

def get? (dictionary : IndexedDictionary) (index : Nat) : Option Field :=
  dictionary.entries[index]?

def index (dictionary : IndexedDictionary) (name value : Bytes) : Lookup :=
  if name.isEmpty then .miss
  else
    match dictionary.names[name.lower]? with
    | none => .miss
    | some places =>
      if value.isEmpty then .name places.alone
      else
        match places.pairs[value]? with
        | none => .name places.alone
        | some pairIndex => .pair places.alone pairIndex

@[simp] theorem reset_eq (dictionary : IndexedDictionary) : dictionary.reset = empty := rfl

end IndexedDictionary

end HeaderCodec.Machine
