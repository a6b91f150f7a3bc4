import HeaderCodec.Codec.Dump
import HeaderCodec.Header.Frame
import HeaderCodec.Stream.Queue

/-! Frames, headers and dumps over a stream whose operations wait until they are complete. Each
operation returns its result and the stream as it leaves it. -/

namespace HeaderCodec

namespace Codec

/-- Writes nothing unless all fields can be packed. -/
def packTo (codec : Codec) (fields : List Field) (queue : ByteQueue) :
    Except CodecError Nat × ByteQueue :=
  match codec.encode fields with
  | .error cause => (.error (.encode cause), queue)
  | .ok frame =>
    let (result, queue) := queue.writeOver .blocking frame
    (result.mapError .io, queue)

/-- Reads one frame. A length above the maximum is refused before any of the body is read. -/
def unpackFrom (codec : Codec) (queue : ByteQueue) :
    Except CodecError (List Field) × ByteQueue :=
  match queue.readOver .blocking Limits.frameLengthSize with
  | (.error cause, queue) => (.error (.io cause), queue)
  | (.ok opening, queue) =>
    let declared := Bytes.toNatLE opening
    if codec.maxFrameSize < declared then
      (.error (.decode (.frameTooLarge codec.maxFrameSize declared)), queue)
    else
      match queue.readOver .blocking declared with
      | (.error cause, queue) => (.error (.io cause), queue)
      | (.ok body, queue) => ((codec.decodeBody body).mapError .decode, queue)

def dumpTo (codec : Codec) (queue : ByteQueue) : Except CodecError Nat × ByteQueue :=
  let (result, queue) := queue.writeOver .blocking codec.dump
  (result.mapError .io, queue)

/-- Loads a dump from a stream. Its header is checked before any of the entries are read. -/
def loadFrom (codec : Codec) (queue : ByteQueue) : Except CodecError Codec × ByteQueue :=
  match queue.readOver .blocking Limits.dumpHeaderSize with
  | (.error cause, queue) => (.error (.io cause), queue)
  | (.ok opening, queue) =>
    let header := DumpHeader.ofBytes opening
    match header.check with
    | .error error => (.error error, queue)
    | .ok () =>
      match queue.readOver .blocking header.entriesLength with
      | (.error cause, queue) => (.error (.io cause), queue)
      | (.ok entries, queue) => (codec.loadEntries header.maxFrameSize entries, queue)

end Codec

namespace Header

def flushTo (header : Header) (codec : Codec) (queue : ByteQueue) :
    Except HeaderError Nat × ByteQueue :=
  let (result, queue) := codec.packTo header.fields queue
  (result.mapError .flush, queue)

/-- Replaces a header with the fields of the next frame. It is empty after any failure. -/
def parseFrom (header : Header) (codec : Codec) (queue : ByteQueue) :
    Except HeaderError Unit × Header × ByteQueue :=
  let header := header.reset
  match codec.unpackFrom queue with
  | (.error cause, queue) => (.error (.parse cause), header, queue)
  | (.ok fields, queue) =>
    match header.setAll fields with
    | (.error error, header) => (.error error, header.reset, queue)
    | (.ok (), header) => (.ok (), header, queue)

end Header

end HeaderCodec
