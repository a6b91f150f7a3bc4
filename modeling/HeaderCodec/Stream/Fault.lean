/-! A transfer fails when the stream ends too early or takes no more bytes. The two transports word
these faults differently. -/

namespace HeaderCodec

inductive Transport
  | blocking
  | asynchronous
  deriving DecidableEq, Repr

namespace Stream

inductive Fault
  | unexpectedEof
  | writeZero
  deriving DecidableEq, Repr

structure Error where
  transport : Transport
  fault : Fault
  deriving DecidableEq, Repr

def Error.message : Error → String
  | ⟨.blocking, .unexpectedEof⟩ => "failed to fill whole buffer"
  | ⟨.blocking, .writeZero⟩ => "failed to write whole buffer"
  | ⟨.asynchronous, .unexpectedEof⟩ => "early eof"
  | ⟨.asynchronous, .writeZero⟩ => "write zero"

end Stream

end HeaderCodec
