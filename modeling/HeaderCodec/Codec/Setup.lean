import HeaderCodec.Codec.Basic
import HeaderCodec.Text.Blank

/-! A setup collects names and values as text, in the order in which they shall be numbered, and is
checked as a whole. -/

namespace HeaderCodec

structure Registration where
  name : String
  values : List String
  deriving Repr, DecidableEq

namespace Registration

def key (registration : Registration) : Bytes :=
  (Bytes.ofText (Text.trim registration.name)).lower

def isBlank (registration : Registration) : Bool :=
  registration.key.isEmpty

/-- The name alone, then each value that is not blank. -/
def fields (registration : Registration) : List Field :=
  let key := registration.key
  let values := registration.values.map fun value => Bytes.ofText (Text.trim value)
  .nameOnly key :: (values.filter (!·.isEmpty)).map fun value => ⟨key, value⟩

end Registration

structure Setup where
  maxFrameSize : Nat
  registrations : List Registration
  coder : Coder
  deriving Repr, DecidableEq

namespace Setup

def empty : Setup := ⟨Limits.defaultMaxFrameSize, [], .huffman⟩

def withMaxFrameSize (setup : Setup) (size : Nat) : Setup :=
  { setup with maxFrameSize := size }

def withCoder (setup : Setup) (coder : Coder) : Setup :=
  { setup with coder }

def field (setup : Setup) (name : String) (values : List String) : Setup :=
  { setup with registrations := setup.registrations ++ [⟨name, values⟩] }

def name (setup : Setup) (name : String) : Setup :=
  setup.field name []

/-- The dictionary of all registrations. One blank name spoils them all. -/
def dictionary (setup : Setup) : Except ConfigError Dictionary :=
  if setup.registrations.any Registration.isBlank then .error .emptyFieldName
  else do
    let dictionary := Dictionary.ofFields (setup.registrations.flatMap Registration.fields)
    Codec.checkContent dictionary
    return dictionary

def build (setup : Setup) : Except ConfigError Codec := do
  Codec.checkMaxFrameSize setup.maxFrameSize
  let dictionary ← setup.dictionary
  return ⟨setup.maxFrameSize, dictionary, setup.coder⟩

end Setup

end HeaderCodec
