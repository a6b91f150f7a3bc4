import HeaderCodec.Limits
import HeaderCodec.Stream.Fault
import HeaderCodec.Text.Hex

/-! Setting up a codec, packing fields, unpacking bytes, and moving either over a stream fail for
reasons of their own. Offsets count from the start of the section being read. -/

namespace HeaderCodec

inductive ConfigError
  | invalidMaxFrameSize (size : Nat)
  | emptyFieldName
  | dictionaryTooLarge (max actual : Nat)
  deriving DecidableEq, Repr

inductive EncodeError
  | emptyName (position : Nat)
  | emptyValue (position : Nat)
  | frameTooLarge (max actual : Nat)
  deriving DecidableEq, Repr

inductive DumpFault
  | truncatedHeader
  | entriesTooLarge
  | entriesLengthMismatch
  | emptyEntryName
  deriving DecidableEq, Repr

inductive DecodeError
  | missingLengthPrefix
  | lengthMismatch (declared available : Nat)
  | frameTooLarge (max actual : Nat)
  | unknownFieldKind (tag : UInt8) (offset : Nat)
  | unknownNameIndex (index : Nat)
  | unknownPairIndex (index : Nat)
  | truncatedField (offset : Nat)
  | truncatedLiteral (claimed remaining : Nat)
  | emptyLiteral (offset : Nat)
  | varintOverflow (offset : Nat)
  | invalidEntropyCoding (offset : Nat)
  | invalidDump (fault : DumpFault)
  deriving DecidableEq, Repr

def ConfigError.message : ConfigError → String
  | invalidMaxFrameSize size =>
    let min := Limits.minMaxFrameSize
    let max := Limits.maxMaxFrameSize
    s!"max frame size {size} is outside of {min}..={max}"
  | emptyFieldName => "field registration with empty name"
  | dictionaryTooLarge max actual =>
    s!"dictionary content of {actual} bytes exceeds the limit of {max}"

def EncodeError.message : EncodeError → String
  | emptyName position => s!"field {position} has an empty name"
  | emptyValue position => s!"field {position} has an empty value"
  | frameTooLarge max actual =>
    s!"encoded frame of at least {actual} bytes exceeds the maximum of {max}"

def DumpFault.message : DumpFault → String
  | truncatedHeader => "truncated header"
  | entriesTooLarge => "entries section too large"
  | entriesLengthMismatch => "entries length mismatch"
  | emptyEntryName => "entry with empty name"

def DecodeError.message : DecodeError → String
  | missingLengthPrefix => "frame length prefix missing"
  | lengthMismatch declared available =>
    s!"frame declares {declared} bytes but {available} are available"
  | frameTooLarge max actual => s!"frame of {actual} bytes exceeds the maximum of {max}"
  | unknownFieldKind tag offset =>
    "unknown field kind 0x" ++ Text.hex 2 tag.toNat ++ s!" at offset {offset}"
  | unknownNameIndex index => s!"no dictionary name at index {index}"
  | unknownPairIndex index => s!"no dictionary field at index {index}"
  | truncatedField offset => s!"frame ends inside the field at offset {offset}"
  | truncatedLiteral claimed remaining =>
    s!"literal claims {claimed} bytes but only {remaining} remain"
  | emptyLiteral offset => s!"empty literal at offset {offset}"
  | varintOverflow offset => s!"varint overflow at offset {offset}"
  | invalidEntropyCoding offset => s!"invalid entropy coded literal at offset {offset}"
  | invalidDump fault => "invalid dictionary dump: " ++ fault.message

inductive CodecError
  | config (cause : ConfigError)
  | encode (cause : EncodeError)
  | decode (cause : DecodeError)
  | io (cause : Stream.Error)
  deriving DecidableEq, Repr

namespace CodecError

def causeMessage : CodecError → String
  | config cause => cause.message
  | encode cause => cause.message
  | decode cause => cause.message
  | io cause => cause.message

def message (error : CodecError) : String :=
  let stage := match error with
    | config _ => "packer configuration error: "
    | encode _ => "pack failed: "
    | decode _ => "unpack failed: "
    | io _ => "I/O error: "
  stage ++ error.causeMessage

end CodecError

end HeaderCodec
