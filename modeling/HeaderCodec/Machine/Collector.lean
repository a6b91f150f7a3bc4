import HeaderCodec.Codec.Setup
import HeaderCodec.Machine.Indexes

/-! Each call leaves its fields with those of the calls before, in the form in which they are
registered. A blank name leaves a fault instead, which is not reported before a codec is asked
for. -/

namespace HeaderCodec

inductive Setup.Call
  | maxFrameSize (size : Nat)
  | coder (coder : Coder)
  | name (name : String)
  | field (name : String) (values : List String)
  deriving Repr, DecidableEq

def Setup.Call.registration? : Call → Option Registration
  | .name text => some ⟨text, []⟩
  | .field text values => some ⟨text, values⟩
  | _ => none

def Setup.perform (setup : Setup) : Call → Setup
  | .maxFrameSize size => setup.withMaxFrameSize size
  | .coder coder => setup.withCoder coder
  | .name name => setup.name name
  | .field name values => setup.field name values

def Setup.ofCalls (calls : List Call) : Setup :=
  calls.foldl perform empty

namespace Machine

structure Collector where
  maxFrameSize : Nat
  fields : List Field
  coder : Coder
  fault : Option ConfigError
  deriving Repr, DecidableEq

namespace Collector

def empty : Collector := ⟨Limits.defaultMaxFrameSize, [], .huffman, none⟩

def withMaxFrameSize (collector : Collector) (size : Nat) : Collector :=
  { collector with maxFrameSize := size }

def withCoder (collector : Collector) (coder : Coder) : Collector :=
  { collector with coder }

def push (collector : Collector) (field : Field) : Collector :=
  { collector with fields := collector.fields ++ [field] }

/-- A later fault does not take the place of the first one. -/
def blame (collector : Collector) (fault : ConfigError) : Collector :=
  { collector with fault := collector.fault.or (some fault) }

def value (key : Bytes) (collector : Collector) (value : String) : Collector :=
  let value := Bytes.ofText (Text.trim value)
  if value.isEmpty then collector else collector.push ⟨key, value⟩

def field (collector : Collector) (name : String) (values : List String) : Collector :=
  let key := (Bytes.ofText (Text.trim name)).lower
  if key.isEmpty then collector.blame .emptyFieldName
  else values.foldl (value key) (collector.push (.nameOnly key))

def name (collector : Collector) (name : String) : Collector :=
  collector.field name []

def perform (collector : Collector) : Setup.Call → Collector
  | .maxFrameSize size => collector.withMaxFrameSize size
  | .coder coder => collector.withCoder coder
  | .name name => collector.name name
  | .field name values => collector.field name values

def ofCalls (calls : List Setup.Call) : Collector :=
  calls.foldl perform empty

def dictionary (collector : Collector) : Except ConfigError IndexedDictionary :=
  match collector.fault with
  | some fault => .error fault
  | none => do
    let dictionary := IndexedDictionary.empty.load collector.fields
    Codec.checkContent dictionary.plain
    return dictionary

def build (collector : Collector) : Except ConfigError Codec := do
  Codec.checkMaxFrameSize collector.maxFrameSize
  let dictionary ← collector.dictionary
  return ⟨collector.maxFrameSize, dictionary.plain, collector.coder⟩

end Collector

end Machine

end HeaderCodec
