import HeaderCodec.Pool.Buffer
import HeaderCodec.Stream.Blocking

/-! An endpoint is a codec with room of its own. The room is used over and over, so every operation
has to begin by clearing what the one before it may have left. -/

namespace HeaderCodec

structure Endpoint where
  codec : Codec
  scratch : Bytes
  deriving Repr, DecidableEq

namespace Endpoint

def ofCodec (codec : Codec) : Endpoint := ⟨codec, []⟩

def default : Endpoint := ofCodec .default

def clear (endpoint : Endpoint) : Endpoint :=
  { endpoint with scratch := [] }

def share (endpoint : Endpoint) : Endpoint := ofCodec endpoint.codec

def withCoder (endpoint : Endpoint) (coder : Coder) : Endpoint :=
  { endpoint with codec := endpoint.codec.withCoder coder }

def reset (endpoint : Endpoint) : Endpoint :=
  let endpoint := { endpoint with codec := endpoint.codec.reset }
  endpoint.clear

/-- Packs fields behind what the scratch holds. All of it counts towards the maximum. -/
def pack (endpoint : Endpoint) (fields : List Field) : Except EncodeError Bytes :=
  endpoint.codec.encodeFrom 0 endpoint.scratch.length [endpoint.scratch] fields

def encode (endpoint : Endpoint) (fields : List Field) :
    Except EncodeError Bytes × Endpoint :=
  let endpoint := endpoint.clear
  match endpoint.pack fields with
  | .error cause => (.error cause, endpoint.clear)
  | .ok body => (.ok (Codec.frameOf body), endpoint.clear)

/-- Appends a frame to a buffer and says how long the frame is. The buffer is not touched unless
all fields can be packed. -/
def encodeInto (endpoint : Endpoint) (fields : List Field) (buffer : Buffer) :
    Except EncodeError Nat × Endpoint × Buffer :=
  let endpoint := endpoint.clear
  match endpoint.pack fields with
  | .error cause => (.error cause, endpoint.clear, buffer)
  | .ok body =>
    let size := Limits.frameLengthSize + body.length
    let buffer := buffer.reserve size
    let buffer := buffer.append (Bytes.ofNatLE Limits.frameLengthSize body.length)
    (.ok size, endpoint.clear, buffer.append body)

def packTo (endpoint : Endpoint) (fields : List Field) (queue : ByteQueue) :
    Except CodecError Nat × Endpoint × ByteQueue :=
  match endpoint.encode fields with
  | (.error cause, endpoint) => (.error (.encode cause), endpoint, queue)
  | (.ok frame, endpoint) =>
    let (result, queue) := queue.writeOver .blocking frame
    (result.mapError .io, endpoint, queue)

/-- Reads one frame into the scratch and decodes it there. The scratch changes once the length is
known and not refused. -/
def unpackFrom (endpoint : Endpoint) (queue : ByteQueue) :
    Except CodecError (List Field) × Endpoint × ByteQueue :=
  let codec := endpoint.codec
  match queue.readOver .blocking Limits.frameLengthSize with
  | (.error cause, queue) => (.error (.io cause), endpoint, queue)
  | (.ok opening, queue) =>
    let declared := Bytes.toNatLE opening
    if codec.maxFrameSize < declared then
      (.error (.decode (.frameTooLarge codec.maxFrameSize declared)), endpoint, queue)
    else
      let endpoint := { endpoint with scratch := queue.readPadded declared }
      match queue.readOver .blocking declared with
      | (.error cause, queue) => (.error (.io cause), endpoint, queue)
      | (.ok _, queue) =>
        ((codec.decodeBody endpoint.scratch).mapError .decode, endpoint, queue)

/-! What an earlier operation left in the scratch makes no difference: endpoints answer like their
codecs, and no operation changes the codec. -/

theorem pack_clear (endpoint : Endpoint) (fields : List Field) :
    endpoint.clear.pack fields = endpoint.codec.encodeBody fields := by
  have empty : [([] : Bytes)].reverse.flatten = ([] : List Bytes).reverse.flatten := rfl
  exact endpoint.codec.encodeFrom_congr empty 0 0 fields

theorem encode_eq (endpoint : Endpoint) (fields : List Field) :
    endpoint.encode fields = (endpoint.codec.encode fields, endpoint.clear) := by
  simp only [encode, pack_clear, Codec.encode]
  cases endpoint.codec.encodeBody fields <;> rfl

theorem encodeInto_of_error {endpoint : Endpoint} {fields : List Field} {cause : EncodeError}
    (refused : endpoint.codec.encodeBody fields = .error cause) (buffer : Buffer) :
    endpoint.encodeInto fields buffer = (.error cause, endpoint.clear, buffer) := by
  simp only [encodeInto, pack_clear, refused]
  rfl

theorem encodeInto_of_ok {endpoint : Endpoint} {fields : List Field} {body : Bytes}
    (packed : endpoint.codec.encodeBody fields = .ok body) (buffer : Buffer) :
    endpoint.encodeInto fields buffer =
      (.ok (Limits.frameLengthSize + body.length), endpoint.clear,
        buffer.append (Codec.frameOf body)) := by
  have whole := buffer.append_append_reserve
    (Bytes.ofNatLE Limits.frameLengthSize body.length) body
  rw [Bytes.length_ofNatLE] at whole
  simp only [encodeInto, pack_clear, packed, whole]
  rfl

theorem packTo_eq (endpoint : Endpoint) (fields : List Field) (queue : ByteQueue) :
    endpoint.packTo fields queue =
      ((endpoint.codec.packTo fields queue).1, endpoint.clear,
        (endpoint.codec.packTo fields queue).2) := by
  rw [packTo, encode_eq, Codec.packTo]
  cases endpoint.codec.encode fields <;> rfl

end Endpoint

end HeaderCodec
