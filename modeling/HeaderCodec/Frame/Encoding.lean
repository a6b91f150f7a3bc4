import HeaderCodec.Codec.Basic
import HeaderCodec.Frame.Literal

/-! A frame is the length of its body and the body, field after field. Nothing is produced unless
every field can be written within the maximum. -/

namespace HeaderCodec.Codec

/-- A pair that the dictionary holds is an index, a name that it holds is an index with a
literal value, and anything else is spelled out. -/
def encodeField (codec : Codec) (field : Field) : Bytes :=
  match codec.dictionary.index field.name field.value with
  | .pair _ pairIndex => FieldKind.indexed.tag :: Varint.encode pairIndex
  | .name nameIndex =>
    FieldKind.nameReference.tag ::
      (Varint.encode nameIndex ++ Literal.encode codec.coder field.value)
  | .miss =>
    FieldKind.literal.tag ::
      (Literal.encode codec.coder field.name ++ Literal.encode codec.coder field.value)

/-- Encodes the fields from `position` on, after `size` bytes in the pieces `done`, last one
first. -/
def encodeFrom (codec : Codec) (position size : Nat) (done : List Bytes) :
    List Field → Except EncodeError Bytes
  | [] => .ok done.reverse.flatten
  | field :: rest =>
    if field.name.isEmpty then .error (.emptyName position)
    else if field.value.isEmpty then .error (.emptyValue position)
    else
      let piece := codec.encodeField field
      let total := size + piece.length
      if codec.maxFrameSize < total then .error (.frameTooLarge codec.maxFrameSize total)
      else encodeFrom codec (position + 1) total (piece :: done) rest

theorem encodeFrom_congr (codec : Codec) {done done' : List Bytes}
    (same : done.reverse.flatten = done'.reverse.flatten) (position size : Nat)
    (fields : List Field) :
    codec.encodeFrom position size done fields = codec.encodeFrom position size done' fields := by
  induction fields generalizing position size done done' with
  | nil => rw [encodeFrom, encodeFrom, same]
  | cons field rest ih =>
    have next : (codec.encodeField field :: done).reverse.flatten =
        (codec.encodeField field :: done').reverse.flatten := by
      rw [List.reverse_cons, List.reverse_cons, List.flatten_append, List.flatten_append, same]
    simp only [encodeFrom, ih next]

def encodeBody (codec : Codec) (fields : List Field) : Except EncodeError Bytes :=
  codec.encodeFrom 0 0 [] fields

def frameOf (body : Bytes) : Bytes :=
  Bytes.ofNatLE Limits.frameLengthSize body.length ++ body

def encode (codec : Codec) (fields : List Field) : Except EncodeError Bytes :=
  (codec.encodeBody fields).map frameOf

end HeaderCodec.Codec
