import HeaderCodec.Codec.Error
import HeaderCodec.Coder
import HeaderCodec.Dictionary

/-! A codec is what both ends of a connection have to agree on: the largest body of a frame, the
dictionary, and the coder of its literals. -/

namespace HeaderCodec

structure Codec where
  maxFrameSize : Nat
  dictionary : Dictionary
  coder : Coder
  deriving Repr, DecidableEq

namespace Codec

def default : Codec :=
  ⟨Limits.defaultMaxFrameSize, .empty, .huffman⟩

def checkMaxFrameSize (size : Nat) : Except ConfigError Unit :=
  if Limits.minMaxFrameSize ≤ size ∧ size ≤ Limits.maxMaxFrameSize then .ok ()
  else .error (.invalidMaxFrameSize size)

def checkContent (dictionary : Dictionary) : Except ConfigError Unit :=
  let actual := dictionary.contentSize
  if actual ≤ Limits.maxDictionaryContentSize then .ok ()
  else .error (.dictionaryTooLarge Limits.maxDictionaryContentSize actual)

def withDictionary (maxFrameSize : Nat) (dictionary : Dictionary) : Except ConfigError Codec := do
  checkMaxFrameSize maxFrameSize
  checkContent dictionary
  return ⟨maxFrameSize, dictionary, .huffman⟩

def withCoder (codec : Codec) (coder : Coder) : Codec :=
  { codec with coder }

def reset (codec : Codec) : Codec :=
  { codec with dictionary := .empty }

end Codec

end HeaderCodec
