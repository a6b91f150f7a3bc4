import HeaderCodec.Codec.Error

namespace HeaderCodec

inductive Separated
  | agentId
  | forwardedHop
  deriving DecidableEq, Repr

def Separated.text : Separated → String
  | agentId => "agent id"
  | forwardedHop => "forwarded hop"

inductive HeaderError
  | invalidAgent
  | invalidForwarded
  | invalidContentLength
  | reservedSeparator (part : Separated) (separator : UInt8)
  | parse (cause : CodecError)
  | flush (cause : CodecError)
  deriving DecidableEq, Repr

namespace HeaderError

def message : HeaderError → String
  | invalidAgent => "malformed agent value"
  | invalidForwarded => "malformed forwarded value"
  | invalidContentLength => "malformed content-length value"
  | reservedSeparator part separator =>
    part.text ++ " must not contain the separator '" ++
      String.singleton (Char.ofNat separator.toNat) ++ "'"
  | parse cause => "header parse failed: " ++ cause.message
  | flush cause => "header flush failed: " ++ cause.message

def cause? : HeaderError → Option CodecError
  | parse cause => some cause
  | flush cause => some cause
  | _ => none

end HeaderError

end HeaderCodec
