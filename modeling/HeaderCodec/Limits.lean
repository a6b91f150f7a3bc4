/-! Sizes of the fixed fields and the bounds that a codec, a dictionary and the pools keep. -/

namespace HeaderCodec.Limits

/-- A frame opens with the length of its body in two bytes. -/
def frameLengthSize : Nat := 2

def defaultMaxFrameSize : Nat := 8192

def minMaxFrameSize : Nat := 64

/-- The largest body length that the two bytes in front of it can say. -/
def maxMaxFrameSize : Nat := 65535

/-- Bound on the summed length of all names and values of a dictionary. -/
def maxDictionaryContentSize : Nat := 32 * 1024 * 1024

/-- A dump opens with the maximum frame size in two bytes and the length of its entries in four. -/
def dumpHeaderSize : Nat := 6

def maxDumpEntriesSize : Nat := 64 * 1024 * 1024

def defaultIdleCapacity : Nat := 64

/-- A larger buffer is dropped rather than kept for reuse. -/
def maxPooledBufferCapacity : Nat := 65536

end HeaderCodec.Limits
