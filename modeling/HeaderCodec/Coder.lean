import HeaderCodec.Huffman.Coding

/-! A codec shortens its literals with one of two coders. The passthrough coder never shortens
anything, so with it every literal is sent as it is. -/

namespace HeaderCodec

inductive Coder
  | huffman
  | passthrough
  deriving DecidableEq, Repr

namespace Coder

def codedSize : Coder → Bytes → Nat
  | huffman, payload => Huffman.codedSize payload
  | passthrough, payload => payload.length

def encode : Coder → Bytes → Bytes
  | huffman, payload => Huffman.encode payload
  | passthrough, payload => payload

def decode : Coder → Bytes → Except Huffman.Error Bytes
  | huffman, coded => (Huffman.decode coded).mapError Huffman.Failure.error
  | passthrough, coded => .ok coded

def encodeOnto : Coder → (buffer payload : Bytes) → Bytes
  | huffman, buffer, payload => Huffman.encodeOnto buffer payload
  | passthrough, buffer, payload => buffer ++ payload

def decodeOnto : Coder → (buffer coded : Bytes) → Except Huffman.Error Bytes
  | huffman, buffer, coded =>
    (Huffman.decodeOnto buffer coded).mapError Huffman.Failure.error
  | passthrough, buffer, coded => .ok (buffer ++ coded)

end Coder

end HeaderCodec
