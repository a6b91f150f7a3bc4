import HeaderCodec.Frame.Decoding
import HeaderCodec.Frame.Encoding
import HeaderCodec.Header.Basic

/-! A header travels as one frame of its fields. Parsing replaces the whole header, and a frame that
cannot be parsed leaves an empty header rather than a part of it. -/

namespace HeaderCodec.Header

def flush (header : Header) (codec : Codec) : Except HeaderError Bytes :=
  (codec.encode header.fields).mapError fun cause => .flush (.encode cause)

/-- Sets the fields of a frame on top of what is there, and counts them. A field that is refused
ends this; the fields before it stay. -/
def update (header : Header) (codec : Codec) (frame : Bytes) : Except HeaderError Nat × Header :=
  match codec.decode frame with
  | .error cause => (.error (.parse (.decode cause)), header)
  | .ok fields =>
    match header.setAll fields with
    | (.error error, header) => (.error error, header)
    | (.ok (), header) => (.ok fields.length, header)

/-- Clears the header before its fields are set, and once more if one of them is refused. -/
def parse (header : Header) (codec : Codec) (frame : Bytes) : Except HeaderError Unit × Header :=
  match header.reset.update codec frame with
  | (.error error, header) => (.error error, header.reset)
  | (.ok _, header) => (.ok (), header)

end HeaderCodec.Header
