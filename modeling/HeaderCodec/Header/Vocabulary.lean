import HeaderCodec.Codec.Setup
import HeaderCodec.Header.Basic

/-! Codecs for headers share a dictionary that opens with the names of all attributes, so that
programs which add fields of their own still understand each other's attributes. -/

namespace HeaderCodec

def snappyEncoding : String := "snappy"

def Attribute.commonValues : Attribute → List String
  | contentEncoding => [snappyEncoding]
  | _ => []

def Attribute.registration (key : Attribute) : Registration :=
  ⟨key.text, key.commonValues⟩

namespace Header

def vocabulary : List Registration :=
  Attribute.all.map Attribute.registration

/-- A setup to which a program adds the fields of its own. -/
def setup : Setup :=
  { Setup.empty with registrations := vocabulary }

def builtinDictionary : Dictionary :=
  Dictionary.ofFields (vocabulary.flatMap Registration.fields)

end Header

end HeaderCodec
