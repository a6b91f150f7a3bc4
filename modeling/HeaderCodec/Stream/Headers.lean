import HeaderCodec.Stream.Asynchronous
import HeaderCodec.Stream.Endpoint

/-! A header is packed in the room of an endpoint and read back through it. The two transports share
the endpoint's `encode` but nothing else, so each is followed to the end here. -/

namespace HeaderCodec.Endpoint

def flush (endpoint : Endpoint) (header : Header) : Except HeaderError Bytes × Endpoint :=
  let (result, endpoint) := endpoint.encode header.fields
  (result.mapError fun cause => .flush (.encode cause), endpoint)

def flushTo (endpoint : Endpoint) (header : Header) (queue : ByteQueue) :
    Except HeaderError Nat × Endpoint × ByteQueue :=
  let (result, endpoint, queue) := endpoint.packTo header.fields queue
  (result.mapError .flush, endpoint, queue)

def sendHeader (endpoint : Endpoint) (header : Header) (queue : ByteQueue) :
    Except HeaderError Nat × Endpoint × ByteQueue :=
  match endpoint.flush header with
  | (.error error, endpoint) => (.error error, endpoint, queue)
  | (.ok frame, endpoint) =>
    let (result, queue) := writeFrame frame queue
    (result.mapError fun cause => .flush (.io cause), endpoint, queue)

/-- Replaces a header with the fields of the next frame, which is read into the scratch. -/
def parseFrom (endpoint : Endpoint) (header : Header) (queue : ByteQueue) :
    Except HeaderError Unit × Header × Endpoint × ByteQueue :=
  let header := header.reset
  match endpoint.unpackFrom queue with
  | (.error cause, endpoint, queue) => (.error (.parse cause), header, endpoint, queue)
  | (.ok fields, endpoint, queue) =>
    match header.setAll fields with
    | (.error error, header) => (.error error, header.reset, endpoint, queue)
    | (.ok (), header) => (.ok (), header, endpoint, queue)

def sendOver : Transport → Endpoint → Header → ByteQueue →
    Except HeaderError Nat × Endpoint × ByteQueue
  | .blocking => flushTo
  | .asynchronous => sendHeader

/-- Receives a header over either transport. Only an asynchronous receipt uses the buffer. -/
def receiveOver (transport : Transport) (endpoint : Endpoint) (header : Header) (buffer : Buffer)
    (queue : ByteQueue) : Except HeaderError Unit × Header × ByteQueue :=
  match transport with
  | .blocking =>
    let (result, header, _, queue) := endpoint.parseFrom header queue
    (result, header, queue)
  | .asynchronous =>
    let (result, header, _, queue) := header.receive endpoint.codec buffer queue
    (result, header, queue)

/-! Endpoints send what their codecs do. -/

theorem flush_eq (endpoint : Endpoint) (header : Header) :
    endpoint.flush header = (header.flush endpoint.codec, endpoint.clear) := by
  rw [flush, encode_eq, Header.flush]

theorem flushTo_eq (endpoint : Endpoint) (header : Header) (queue : ByteQueue) :
    endpoint.flushTo header queue =
      ((header.flushTo endpoint.codec queue).1, endpoint.clear,
        (header.flushTo endpoint.codec queue).2) := by
  rw [flushTo, packTo_eq, Header.flushTo]

theorem sendHeader_eq (endpoint : Endpoint) (header : Header) (queue : ByteQueue) :
    endpoint.sendHeader header queue =
      ((header.send endpoint.codec queue).1, endpoint.clear,
        (header.send endpoint.codec queue).2) := by
  rw [sendHeader, flush_eq, Header.send]
  cases header.flush endpoint.codec <;> rfl

end HeaderCodec.Endpoint
