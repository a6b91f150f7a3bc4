import HeaderCodec.Codec.Dump
import HeaderCodec.Header.Frame
import HeaderCodec.Pool.Buffer
import HeaderCodec.Stream.Queue

/-! The same transfers over a stream whose operations may be suspended. A frame is read into a
buffer first and parsed from there, so the buffer shows how far a transfer came. -/

namespace HeaderCodec

/-- Reads one frame with its length into a buffer. The buffer changes once the length is known
and not refused; it then has the size of the whole frame even if the stream ends before it. -/
def readFrame (maxFrameSize : Nat) (buffer : Buffer) (queue : ByteQueue) :
    Except CodecError Nat × Buffer × ByteQueue :=
  match queue.readOver .asynchronous Limits.frameLengthSize with
  | (.error cause, queue) => (.error (.io cause), buffer, queue)
  | (.ok opening, queue) =>
    let declared := Bytes.toNatLE opening
    if maxFrameSize < declared then
      (.error (.decode (.frameTooLarge maxFrameSize declared)), buffer, queue)
    else
      let buffer := (buffer.assign opening).append (queue.readPadded declared)
      match queue.readOver .asynchronous declared with
      | (.error cause, queue) => (.error (.io cause), buffer, queue)
      | (.ok _, queue) => (.ok buffer.bytes.length, buffer, queue)

def writeFrame (frame : Bytes) (queue : ByteQueue) : Except Stream.Error Nat × ByteQueue :=
  queue.writeOver .asynchronous frame

namespace Header

def send (header : Header) (codec : Codec) (queue : ByteQueue) :
    Except HeaderError Nat × ByteQueue :=
  match header.flush codec with
  | .error error => (.error error, queue)
  | .ok frame =>
    let (result, queue) := writeFrame frame queue
    (result.mapError fun cause => .flush (.io cause), queue)

/-- Receives a header. One whose frame cannot be read leaves the header as it was. -/
def receive (header : Header) (codec : Codec) (buffer : Buffer) (queue : ByteQueue) :
    Except HeaderError Unit × Header × Buffer × ByteQueue :=
  match readFrame codec.maxFrameSize buffer queue with
  | (.error cause, buffer, queue) => (.error (.parse cause), header, buffer, queue)
  | (.ok _, buffer, queue) =>
    let (result, header) := header.parse codec buffer.bytes
    (result, header, buffer, queue)

end Header

namespace Codec

def sendDump (codec : Codec) (queue : ByteQueue) : Except Stream.Error Nat × ByteQueue :=
  writeFrame codec.dump queue

/-- Receives a dump and loads it. Only the length of the entries is checked before they are
read. -/
def receiveDump (codec : Codec) (queue : ByteQueue) : Except CodecError Codec × ByteQueue :=
  match queue.readOver .asynchronous Limits.dumpHeaderSize with
  | (.error cause, queue) => (.error (.io cause), queue)
  | (.ok opening, queue) =>
    let header := DumpHeader.ofBytes opening
    match header.checkEntriesLength with
    | .error error => (.error error, queue)
    | .ok () =>
      match queue.readOver .asynchronous header.entriesLength with
      | (.error cause, queue) => (.error (.io cause), queue)
      | (.ok entries, queue) => (codec.load (opening ++ entries), queue)

end Codec

end HeaderCodec
