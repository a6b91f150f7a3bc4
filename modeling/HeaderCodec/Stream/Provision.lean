import HeaderCodec.Stream.Asynchronous
import HeaderCodec.Stream.Endpoint

/-! An endpoint takes over the maximum and the dictionary of a dump, which comes as bytes or on a
stream. The dump is examined to its end first; nothing of the endpoint changes before that. -/

namespace HeaderCodec.Endpoint

def loadEntries (endpoint : Endpoint) (maxFrameSize : Nat) (entries : Bytes) :
    Except CodecError Unit × Endpoint :=
  match Codec.readEntries endpoint.codec.coder [] (.ofSection entries) with
  | .error cause => (.error (.decode cause), endpoint)
  | .ok fields =>
    let dictionary := Dictionary.ofFields fields
    match Codec.checkContent dictionary with
    | .error cause => (.error (.config cause), endpoint)
    | .ok () =>
      let endpoint := { endpoint with codec := { endpoint.codec with maxFrameSize } }
      let endpoint := { endpoint with codec := { endpoint.codec with dictionary } }
      (.ok (), endpoint.clear)

def load (endpoint : Endpoint) (bytes : Bytes) : Except CodecError Unit × Endpoint :=
  let opening := bytes.take Limits.dumpHeaderSize
  if opening.length < Limits.dumpHeaderSize then
    (.error (.decode (.invalidDump .truncatedHeader)), endpoint)
  else
    let header := Codec.DumpHeader.ofBytes opening
    let entries := bytes.drop Limits.dumpHeaderSize
    match header.check with
    | .error cause => (.error cause, endpoint)
    | .ok () =>
      if header.entriesLength ≠ entries.length then
        (.error (.decode (.invalidDump .entriesLengthMismatch)), endpoint)
      else endpoint.loadEntries header.maxFrameSize entries

def loadFrom (endpoint : Endpoint) (queue : ByteQueue) :
    Except CodecError Unit × Endpoint × ByteQueue :=
  match queue.readOver .blocking Limits.dumpHeaderSize with
  | (.error cause, queue) => (.error (.io cause), endpoint, queue)
  | (.ok opening, queue) =>
    let header := Codec.DumpHeader.ofBytes opening
    match header.check with
    | .error cause => (.error cause, endpoint, queue)
    | .ok () =>
      match queue.readOver .blocking header.entriesLength with
      | (.error cause, queue) => (.error (.io cause), endpoint, queue)
      | (.ok entries, queue) =>
        let (result, endpoint) := endpoint.loadEntries header.maxFrameSize entries
        (result, endpoint, queue)

def receiveDump (endpoint : Endpoint) (queue : ByteQueue) :
    Except CodecError Unit × Endpoint × ByteQueue :=
  match queue.readOver .asynchronous Limits.dumpHeaderSize with
  | (.error cause, queue) => (.error (.io cause), endpoint, queue)
  | (.ok opening, queue) =>
    let header := Codec.DumpHeader.ofBytes opening
    match header.checkEntriesLength with
    | .error cause => (.error cause, endpoint, queue)
    | .ok () =>
      match queue.readOver .asynchronous header.entriesLength with
      | (.error cause, queue) => (.error (.io cause), endpoint, queue)
      | (.ok entries, queue) =>
        let (result, endpoint) := endpoint.load (opening ++ entries)
        (result, endpoint, queue)

/-! A dump makes of an endpoint what it makes of its codec, with nothing in the scratch, or leaves it
as it was. -/

/-- What becomes of an endpoint when its codec was to be replaced. -/
def adopt (endpoint : Endpoint) : Except CodecError Codec → Except CodecError Unit × Endpoint
  | .error cause => (.error cause, endpoint)
  | .ok codec => (.ok (), ofCodec codec)

theorem loadEntries_eq (endpoint : Endpoint) (maxFrameSize : Nat) (entries : Bytes) :
    endpoint.loadEntries maxFrameSize entries =
      endpoint.adopt (endpoint.codec.loadEntries maxFrameSize entries) := by
  unfold loadEntries Codec.loadEntries
  cases Codec.readEntries endpoint.codec.coder [] (.ofSection entries) with
  | error cause => rfl
  | ok fields =>
    change _ = endpoint.adopt ((Codec.checkContent (.ofFields fields)).mapError .config >>= fun _ =>
      pure { endpoint.codec with maxFrameSize, dictionary := .ofFields fields })
    dsimp only
    cases Codec.checkContent (.ofFields fields) <;> rfl

theorem load_eq (endpoint : Endpoint) (bytes : Bytes) :
    endpoint.load bytes = endpoint.adopt (endpoint.codec.load bytes) := by
  unfold load Codec.load
  dsimp only
  split
  · rfl
  cases (Codec.DumpHeader.ofBytes (bytes.take Limits.dumpHeaderSize)).check with
  | error cause => rfl
  | ok done =>
    simp only [bind, Except.bind]
    split
    · rfl
    · exact loadEntries_eq _ _ _

theorem loadFrom_eq (endpoint : Endpoint) (queue : ByteQueue) :
    endpoint.loadFrom queue =
      ((endpoint.adopt (endpoint.codec.loadFrom queue).1).1,
        (endpoint.adopt (endpoint.codec.loadFrom queue).1).2, (endpoint.codec.loadFrom queue).2) := by
  unfold loadFrom Codec.loadFrom
  cases queue.readOver .blocking Limits.dumpHeaderSize with
  | mk opening queue =>
  cases opening with
  | error cause => rfl
  | ok opening =>
  dsimp only
  cases (Codec.DumpHeader.ofBytes opening).check with
  | error cause => rfl
  | ok done =>
  dsimp only
  cases queue.readOver .blocking (Codec.DumpHeader.ofBytes opening).entriesLength with
  | mk entries queue =>
  cases entries with
  | error cause => rfl
  | ok entries => simp only [loadEntries_eq]

theorem receiveDump_eq (endpoint : Endpoint) (queue : ByteQueue) :
    endpoint.receiveDump queue =
      ((endpoint.adopt (endpoint.codec.receiveDump queue).1).1,
        (endpoint.adopt (endpoint.codec.receiveDump queue).1).2,
        (endpoint.codec.receiveDump queue).2) := by
  unfold receiveDump Codec.receiveDump
  cases queue.readOver .asynchronous Limits.dumpHeaderSize with
  | mk opening queue =>
  cases opening with
  | error cause => rfl
  | ok opening =>
  dsimp only
  cases (Codec.DumpHeader.ofBytes opening).checkEntriesLength with
  | error cause => rfl
  | ok done =>
  dsimp only
  cases queue.readOver .asynchronous (Codec.DumpHeader.ofBytes opening).entriesLength with
  | mk entries queue =>
  cases entries with
  | error cause => rfl
  | ok entries => simp only [load_eq]

end HeaderCodec.Endpoint
