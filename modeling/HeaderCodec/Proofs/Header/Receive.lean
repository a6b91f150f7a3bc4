import HeaderCodec.Proofs.Stream.Frame

/-! `parseFrom` empties the header and then reads a frame, while `receive` reads the frame first.
They agree in the header as soon as a whole frame was read; before that, `receive` has not touched
it. -/

namespace HeaderCodec

/-- A header's error as another transport words it. -/
def HeaderError.over (transport : Transport) : HeaderError → HeaderError
  | .parse cause => .parse (cause.over transport)
  | .flush cause => .flush (cause.over transport)
  | error => error

theorem HeaderError.over_of_cause?_eq_none {error : HeaderError} (own : error.cause? = none)
    (transport : Transport) : error.over transport = error := by
  cases error with
  | parse | flush => cases own
  | _ => rfl

namespace Header

theorem cause?_of_mapM_parse {pieces : List Bytes} {error : HeaderError}
    (refused : pieces.mapM Hop.parse = .error error) : error.cause? = none := by
  induction pieces with
  | nil => cases refused
  | cons piece rest ih =>
    rw [List.mapM_cons] at refused
    rcases Outcome.bind_eq_error_iff.mp refused with first | ⟨hop, -, others⟩
    · unfold Hop.parse at first
      split at first <;> cases first
      rfl
    · rcases Outcome.bind_eq_error_iff.mp others with later | ⟨hops, -, done⟩
      · exact ih later
      · cases done

theorem cause?_of_setAttribute {header : Header} {value : Bytes} {key : Attribute}
    {error : HeaderError} (refused : (header.setAttribute value key).1 = .error error) :
    error.cause? = none := by
  cases key with
  | agent =>
    have refused := assign_fst_eq_error_iff.mp refused
    unfold Agent.parse at refused
    split at refused <;> cases refused
    rfl
  | forwarded => exact cause?_of_mapM_parse (assign_fst_eq_error_iff.mp refused)
  | contentLength =>
    have refused := assign_fst_eq_error_iff.mp refused
    unfold parseContentLength at refused
    split at refused
    · split at refused <;> cases refused
      rfl
    · cases refused
      rfl
  | authorization | contentType | contentEncoding => cases refused

theorem cause?_of_set {header : Header} {name value : Bytes} {error : HeaderError}
    (refused : (header.set name value).1 = .error error) : error.cause? = none := by
  unfold set at refused
  split at refused
  · cases refused
  split at refused
  · cases refused
  split at refused
  · exact cause?_of_setAttribute refused
  · cases refused

theorem cause?_of_setAll {header : Header} {fields : List Field} {error : HeaderError}
    (refused : (header.setAll fields).1 = .error error) : error.cause? = none := by
  induction fields generalizing header with
  | nil => cases refused
  | cons field rest ih =>
    rw [setAll] at refused
    split at refused
    next cause left failed =>
      cases refused
      exact cause?_of_set (congrArg Prod.fst failed)
    next done => exact ih refused

/-- The header that the fields of a frame make, which is empty if they cannot be had. -/
def filled : Except CodecError (List Field) → Except HeaderError Unit × Header
  | .error cause => (.error (.parse cause), empty)
  | .ok fields =>
    match empty.setAll fields with
    | (.error error, _) => (.error error, empty)
    | (.ok (), header) => (.ok (), header)

theorem filled_of_refused {fields : List Field} {error : HeaderError}
    (refused : (empty.setAll fields).1 = .error error) :
    filled (.ok fields) = (.error error, empty) := by
  cases set : empty.setAll fields with
  | mk result header =>
    rw [set] at refused
    cases refused
    simp only [filled, set]

theorem filled_of_set {fields : List Field} (set : (empty.setAll fields).1 = .ok ()) :
    filled (.ok fields) = (.ok (), (empty.setAll fields).2) := by
  cases all : empty.setAll fields with
  | mk result header =>
    rw [all] at set
    cases set
    simp only [filled, all]

theorem filled_of_error {unpacked : Except CodecError (List Field)} {error : HeaderError}
    (failed : (filled unpacked).1 = .error error) : (filled unpacked).2 = empty := by
  cases unpacked with
  | error cause => rfl
  | ok fields =>
    cases set : (empty.setAll fields).1 with
    | error error => rw [filled_of_refused set]
    | ok done =>
      rw [filled_of_set set] at failed
      cases failed

theorem filled_mapError (unpacked : Except CodecError (List Field)) (transport : Transport) :
    filled (unpacked.mapError (CodecError.over transport)) =
      ((filled unpacked).1.mapError (HeaderError.over transport), (filled unpacked).2) := by
  cases unpacked with
  | error cause => rfl
  | ok fields =>
    rw [Except.mapError]
    cases set : (empty.setAll fields).1 with
    | error error =>
      rw [filled_of_refused set, Except.mapError,
        HeaderError.over_of_cause?_eq_none (cause?_of_setAll set)]
    | ok done =>
      rw [filled_of_set set]
      rfl

theorem parseFrom_eq (header : Header) (codec : Codec) (queue : ByteQueue) :
    header.parseFrom codec queue =
      ((filled (codec.unpackFrom queue).1).1, (filled (codec.unpackFrom queue).1).2,
        (codec.unpackFrom queue).2) := by
  simp only [parseFrom, reset_eq]
  cases codec.unpackFrom queue with
  | mk unpacked rest =>
  cases unpacked with
  | error cause => rfl
  | ok fields =>
    cases set : empty.setAll fields with
    | mk result header => cases result <;> simp only [filled, set]

theorem parse_eq (header : Header) (codec : Codec) (frame : Bytes) :
    header.parse codec frame = filled ((codec.decode frame).mapError .decode) := by
  simp only [parse, reset_eq, update]
  cases codec.decode frame with
  | error cause => rfl
  | ok fields =>
    cases set : empty.setAll fields with
    | mk result header => cases result <;> simp only [Except.mapError, filled, set]

section

variable {codec : Codec} {queue rest : ByteQueue} {body : Bytes} {cause : CodecError}

theorem parseFrom_of_ok (taken : queue.nextFrame .blocking codec.maxFrameSize = (.ok body, rest))
    (header : Header) : header.parseFrom codec queue =
      ((filled ((codec.decodeBody body).mapError .decode)).1,
        (filled ((codec.decodeBody body).mapError .decode)).2, rest) := by
  rw [parseFrom_eq, Codec.unpackFrom_eq, taken, Outcome.ok_bind]

theorem parseFrom_of_error
    (failed : queue.nextFrame .blocking codec.maxFrameSize = (.error cause, rest))
    (header : Header) : header.parseFrom codec queue = (.error (.parse cause), empty, rest) := by
  rw [parseFrom_eq, Codec.unpackFrom_eq, failed, Outcome.error_bind, filled]

theorem receive_of_ok
    (taken : queue.nextFrame .asynchronous codec.maxFrameSize = (.ok body, rest))
    (header : Header) (buffer : Buffer) : ∃ left, header.receive codec buffer queue =
      ((filled ((codec.decodeBody body).mapError .decode)).1,
        (filled ((codec.decodeBody body).mapError .decode)).2, left, rest) := by
  obtain ⟨left, read, whole⟩ := readFrame_of_ok taken buffer
  have sayable := (ByteQueue.pieces_of_nextFrame taken).2.1
  refine ⟨left, ?_⟩
  rw [receive, read]
  simp only [parse_eq, whole, Codec.decode_frameOf sayable]

theorem receive_of_error
    (failed : queue.nextFrame .asynchronous codec.maxFrameSize = (.error cause, rest))
    (header : Header) (buffer : Buffer) : ∃ left, header.receive codec buffer queue =
      (.error (.parse cause), header, left, rest) := by
  obtain ⟨left, read⟩ := readFrame_of_error failed buffer
  refine ⟨left, ?_⟩
  rw [receive, read]

end

theorem filled_decodeBody (codec : Codec) (body : Bytes) (transport : Transport) :
    (filled ((codec.decodeBody body).mapError .decode)).1.mapError (HeaderError.over transport) =
      (filled ((codec.decodeBody body).mapError .decode)).1 := by
  have worded := filled_mapError ((codec.decodeBody body).mapError .decode) transport
  rw [Codec.decodeBody_over] at worded
  exact (congrArg Prod.fst worded).symm

/-- Both receive the same on every stream, up to how a fault of the stream is worded. A header
that is refused after its frame was read is left empty by both. If no frame could be read,
`receive` leaves what was there before, and `parseFrom` does not. -/
theorem receive_parseFrom (header : Header) (codec : Codec) (buffer : Buffer)
    (queue : ByteQueue) :
    (header.receive codec buffer queue).1 =
        (header.parseFrom codec queue).1.mapError (HeaderError.over .asynchronous) ∧
      (header.receive codec buffer queue).2.2.2 = (header.parseFrom codec queue).2.2 ∧
      (header.receive codec buffer queue).2.1 =
        (match (readFrame codec.maxFrameSize buffer queue).1 with
        | .ok _ => (header.parseFrom codec queue).2.1
        | .error _ => header) ∧
      (∀ error, (header.parseFrom codec queue).1 = .error error →
        (header.parseFrom codec queue).2.1 = empty) := by
  have emptied (error : HeaderError) (failed : (header.parseFrom codec queue).1 = .error error) :
      (header.parseFrom codec queue).2.1 = empty := by
    rw [parseFrom_eq] at failed ⊢
    exact filled_of_error failed
  -- Whether there is a frame is decided by the bytes alone, so both paths take the same case.
  have asynchronous := queue.nextFrame_over .blocking .asynchronous codec.maxFrameSize
  cases frame : queue.nextFrame .blocking codec.maxFrameSize with
  | mk taken rest =>
  rw [frame] at asynchronous
  cases taken with
  | ok body =>
    obtain ⟨_, read, -⟩ := readFrame_of_ok asynchronous buffer
    obtain ⟨_, received⟩ := receive_of_ok asynchronous header buffer
    have parsed := parseFrom_of_ok frame header
    refine ⟨?_, ?_, ?_, emptied⟩
    · rw [received, parsed, filled_decodeBody]
    · rw [received, parsed]
    · rw [received, parsed, read]
  | error cause =>
    obtain ⟨_, read⟩ := readFrame_of_error asynchronous buffer
    obtain ⟨_, received⟩ := receive_of_error asynchronous header buffer
    have parsed := parseFrom_of_error frame header
    refine ⟨?_, ?_, ?_, emptied⟩
    · rw [received, parsed]
      rfl
    · rw [received, parsed]
    · rw [received, read]

theorem receive_stale :
    let stale : Header := { empty with authorization := [115, 116, 97, 108, 101] }
    stale ≠ empty ∧
      stale.receive .default .empty .empty =
        (.error (.parse (.io ⟨.asynchronous, .unexpectedEof⟩)), stale, .empty, .empty) ∧
      stale.parseFrom .default .empty =
        (.error (.parse (.io ⟨.blocking, .unexpectedEof⟩)), empty, .empty) := by
  refine ⟨?_, rfl, rfl⟩
  decide

end Header

end HeaderCodec
