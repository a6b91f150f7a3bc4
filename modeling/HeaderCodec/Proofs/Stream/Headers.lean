import HeaderCodec.Proofs.Header.Blocking
import HeaderCodec.Proofs.Header.RoundTrip

/-! An asynchronous reader puts a frame into a buffer and decodes it from there; a blocking one
decodes it at once. Both come to the same on every stream, so headers arrive in order over
either. -/

namespace HeaderCodec

theorem Codec.decode_of_readFrame (codec : Codec) (buffer : Buffer) (queue : ByteQueue) :
    ((readFrame codec.maxFrameSize buffer queue).1 >>= fun _ =>
        (codec.decode (readFrame codec.maxFrameSize buffer queue).2.1.bytes).mapError .decode) =
      (codec.unpackFrom queue).1.mapError (CodecError.over .asynchronous) ∧
    (readFrame codec.maxFrameSize buffer queue).2.2 = (codec.unpackFrom queue).2 ∧
    ∀ length, (readFrame codec.maxFrameSize buffer queue).1 = .ok length →
      (readFrame codec.maxFrameSize buffer queue).2.1.bytes =
          queue.unread.take (Limits.frameLengthSize + queue.declared) ∧
        queue.unread = (readFrame codec.maxFrameSize buffer queue).2.1.bytes ++
          (readFrame codec.maxFrameSize buffer queue).2.2.unread ∧
        length = (readFrame codec.maxFrameSize buffer queue).2.1.bytes.length := by
  -- Whether there is a frame is decided by the bytes alone, so both paths take the same case.
  have asynchronous := queue.nextFrame_over .blocking .asynchronous codec.maxFrameSize
  rw [unpackFrom_eq]
  cases frame : queue.nextFrame .blocking codec.maxFrameSize with
  | mk taken rest =>
  rw [frame] at asynchronous
  cases taken with
  | error cause =>
    obtain ⟨left, read⟩ := readFrame_of_error asynchronous buffer
    rw [read]
    refine ⟨rfl, rfl, ?_⟩
    rintro length ⟨⟩
  | ok body =>
    have sayable := (ByteQueue.pieces_of_nextFrame frame).2.1
    obtain ⟨left, read, whole⟩ := readFrame_of_ok asynchronous buffer
    rw [read]
    refine ⟨?_, rfl, ?_⟩
    · simp only [Outcome.ok_bind, whole, decode_frameOf sayable, decodeBody_over]
    · rintro length ⟨⟩
      dsimp only
      rw [whole]
      exact ⟨ByteQueue.frameOf_of_nextFrame frame, (ByteQueue.front_of_nextFrame frame).1, rfl⟩

namespace Endpoint

variable {endpoint : Endpoint} {header : Header} {queue : ByteQueue} {frame : Bytes}

theorem sendOver_of_ok (unbounded : queue.capacity = none)
    (flushed : header.flush endpoint.codec = .ok frame) (transport : Transport) :
    endpoint.sendOver transport header queue =
      (.ok frame.length, endpoint.clear, queue.push frame) := by
  have encoded := Outcome.mapError_eq_ok_iff.mp flushed
  cases transport with
  | blocking =>
    rw [sendOver, flushTo_eq, Header.flushTo, Codec.packTo, encoded]
    simp only [ByteQueue.writeOver, ByteQueue.write, unbounded, Except.map, Except.mapError]
  | asynchronous =>
    rw [sendOver, sendHeader_eq, Header.send, flushed]
    simp only [writeFrame, ByteQueue.writeOver, ByteQueue.write, unbounded, Except.map,
      Except.mapError]

theorem sendOver_of_error {error : HeaderError}
    (refused : header.flush endpoint.codec = .error error) (transport : Transport)
    (queue : ByteQueue) :
    endpoint.sendOver transport header queue = (.error error, endpoint.clear, queue) := by
  obtain ⟨cause, failed, rfl⟩ := Outcome.mapError_eq_error_iff.mp refused
  cases transport with
  | blocking =>
    rw [sendOver, flushTo_eq, Header.flushTo, Codec.packTo, failed]
    rfl
  | asynchronous => rw [sendOver, sendHeader_eq, Header.send, refused]

theorem receiveOver_frame (lawful : header.Lawful) (sound : endpoint.codec.Sound)
    (flushed : header.flush endpoint.codec = .ok frame) (transport : Transport) (target : Header)
    (buffer : Buffer) (rest : Bytes) (capacity : Option Nat) :
    endpoint.receiveOver transport target buffer ⟨frame ++ rest, capacity⟩ =
      (.ok (), header, ⟨rest, capacity⟩) := by
  have parsed := Header.parse_of_flush lawful sound flushed target
  obtain ⟨body, packed, rfl⟩ := Outcome.map_eq_ok_iff.mp (Outcome.mapError_eq_ok_iff.mp flushed)
  have fits := (Codec.encodeBody_eq_ok_iff.mp packed).2.1
  have taken (transport : Transport) : ByteQueue.nextFrame ⟨Codec.frameOf body ++ rest, capacity⟩
      transport endpoint.codec.maxFrameSize = (.ok body, ⟨rest, capacity⟩) :=
    (ByteQueue.nextFrame_eq_ok_iff sound.le_max).mpr ⟨fits, rfl, rfl⟩
  rw [Header.parse_eq, Codec.decode_frameOf (Nat.le_trans fits sound.le_max)] at parsed
  cases transport with
  | blocking =>
    obtain ⟨left, received⟩ :=
      endpoint.parseFrom_eq target ⟨Codec.frameOf body ++ rest, capacity⟩
    rw [receiveOver, received, Header.parseFrom_of_ok (taken .blocking), parsed]
  | asynchronous =>
    obtain ⟨left, received⟩ := Header.receive_of_ok (taken .asynchronous) target buffer
    rw [receiveOver, received, parsed]

theorem receiveOver_nil (endpoint : Endpoint) (transport : Transport) (target : Header)
    (buffer : Buffer) (capacity : Option Nat) : ∃ left,
    endpoint.receiveOver transport target buffer ⟨[], capacity⟩ =
      (.error (.parse (.io ⟨transport, .unexpectedEof⟩)), left, ⟨[], capacity⟩) := by
  cases transport with
  | blocking => exact ⟨_, rfl⟩
  | asynchronous => exact ⟨_, rfl⟩

end Endpoint

namespace Correspondence

inductive Carries (codec : Codec) : List Header → Bytes → Prop
  | nil : Carries codec [] []
  | cons {header : Header} {frame : Bytes} (made : header.Reachable)
    (flushed : header.flush codec = .ok frame) {later : List Header} {bytes : Bytes}
    (others : Carries codec later bytes) : Carries codec (header :: later) (frame ++ bytes)

/-- A header counts once what was done with it has succeeded. -/
def counted {ε α : Type} : Except ε α → Header → List Header
  | .ok _, header => [header]
  | .error _, _ => []

/-- The headers that were sent and received so far, and the stream in between. Whoever takes part in
a step may have done anything before: the parties agree on a codec and on nothing else, and the
target of a receipt and its buffer may hold anything. -/
inductive Run (codec : Codec) : List Header → List Header → ByteQueue → Prop
  | start : Run codec [] [] .empty
  | send {sent received : List Header} {queue : ByteQueue} (before : Run codec sent received queue)
    {endpoint : Endpoint} (agreed : endpoint.codec = codec) (transport : Transport)
    {header : Header} (made : header.Reachable) :
    Run codec (sent ++ counted (endpoint.sendOver transport header queue).1 header) received
      (endpoint.sendOver transport header queue).2.2
  | receive {sent received : List Header} {queue : ByteQueue}
    (before : Run codec sent received queue) {endpoint : Endpoint}
    (agreed : endpoint.codec = codec) (transport : Transport) (target : Header)
    (buffer : Buffer) :
    Run codec sent (received ++ counted (endpoint.receiveOver transport target buffer queue).1
        (endpoint.receiveOver transport target buffer queue).2.1)
      (endpoint.receiveOver transport target buffer queue).2.2

variable {codec : Codec} {sent received waiting : List Header} {bytes : Bytes} {queue : ByteQueue}

theorem Carries.concat (carries : Carries codec waiting bytes) {header : Header} {frame : Bytes}
    (made : header.Reachable) (flushed : header.flush codec = .ok frame) :
    Carries codec (waiting ++ [header]) (bytes ++ frame) := by
  induction carries with
  | nil =>
    rw [List.nil_append, List.nil_append, ← List.append_nil frame]
    exact .cons made flushed .nil
  | cons made' flushed' others ih =>
    rw [List.cons_append, List.append_assoc]
    exact .cons made' flushed' ih

theorem Carries.eq_nil (carries : Carries codec waiting []) : waiting = [] := by
  generalize unread : ([] : Bytes) = bytes at carries
  cases carries with
  | nil => rfl
  | cons made flushed others =>
    obtain ⟨body, -, rfl⟩ := Outcome.map_eq_ok_iff.mp (Outcome.mapError_eq_ok_iff.mp flushed)
    have length := congrArg List.length unread
    rw [List.length_nil, List.length_append, Codec.length_frameOf, Limits.frameLengthSize] at length
    omega

theorem Carries.receiveOver (carries : Carries codec waiting queue.unread) (sound : codec.Sound)
    {endpoint : Endpoint} (agreed : endpoint.codec = codec) (transport : Transport)
    (target : Header) (buffer : Buffer) :
    match waiting with
    | [] => ∃ left, endpoint.receiveOver transport target buffer queue =
        (.error (.parse (.io ⟨transport, .unexpectedEof⟩)), left, queue)
    | header :: later => ∃ rest, endpoint.receiveOver transport target buffer queue =
        (.ok (), header, rest) ∧ Carries codec later rest.unread ∧
          rest.capacity = queue.capacity := by
  obtain ⟨unread, capacity⟩ := queue
  subst agreed
  cases carries with
  | nil => exact endpoint.receiveOver_nil transport target buffer capacity
  | cons made flushed others =>
    have arrived := Endpoint.receiveOver_frame made.lawful sound flushed transport target buffer
    exact ⟨_, arrived _ capacity, others, rfl⟩

/-- What was sent and not received is on the stream. -/
def Explains (codec : Codec) (sent received : List Header) (queue : ByteQueue) : Prop :=
  ∃ waiting, sent = received ++ waiting ∧ Carries codec waiting queue.unread ∧
    queue.capacity = none

theorem Explains.send (explains : Explains codec sent received queue) {endpoint : Endpoint}
    (agreed : endpoint.codec = codec) (transport : Transport) {header : Header}
    (made : header.Reachable) :
    Explains codec (sent ++ counted (endpoint.sendOver transport header queue).1 header) received
      (endpoint.sendOver transport header queue).2.2 := by
  obtain ⟨waiting, rfl, carries, unbounded⟩ := explains
  subst agreed
  cases flushed : header.flush endpoint.codec with
  | error error =>
    rw [Endpoint.sendOver_of_error flushed, counted, List.append_nil]
    exact ⟨waiting, rfl, carries, unbounded⟩
  | ok frame =>
    rw [Endpoint.sendOver_of_ok unbounded flushed, counted, List.append_assoc]
    exact ⟨waiting ++ [header], rfl, carries.concat made flushed, unbounded⟩

theorem Explains.receive (explains : Explains codec sent received queue) (sound : codec.Sound)
    {endpoint : Endpoint} (agreed : endpoint.codec = codec) (transport : Transport)
    (target : Header) (buffer : Buffer) :
    Explains codec sent
      (received ++ counted (endpoint.receiveOver transport target buffer queue).1
        (endpoint.receiveOver transport target buffer queue).2.1)
      (endpoint.receiveOver transport target buffer queue).2.2 := by
  obtain ⟨waiting, rfl, carries, unbounded⟩ := explains
  have found := carries.receiveOver sound agreed transport target buffer
  cases waiting with
  | nil =>
    obtain ⟨left, nothing⟩ := found
    rw [nothing, counted, List.append_nil]
    exact ⟨[], (List.append_nil received).symm, carries, unbounded⟩
  | cons first later =>
    obtain ⟨rest, arrived, others, capacity⟩ := found
    rw [arrived, counted]
    exact ⟨later, (List.append_cons received first later), others, capacity.trans unbounded⟩

theorem Run.explains (run : Run codec sent received queue) (sound : codec.Sound) :
    Explains codec sent received queue := by
  induction run with
  | start => exact ⟨[], rfl, .nil, rfl⟩
  | send before agreed transport made ih => exact ih.send agreed transport made
  | receive before agreed transport target buffer ih =>
    exact ih.receive sound agreed transport target buffer

end Correspondence

/-- An asynchronous reader that decodes its buffer is a blocking one, and a header is sent alike
over both transports. So the headers that are received over either, in any order, are those that
were sent, in order, up to those whose frames are still on the stream. -/
theorem asynchronous_refines_blocking :
    (∀ (endpoint : Endpoint) (buffer : Buffer) (queue : ByteQueue),
      let read := readFrame endpoint.codec.maxFrameSize buffer queue
      (read.1 >>= fun _ => (endpoint.codec.decode read.2.1.bytes).mapError .decode) =
          (endpoint.unpackFrom queue).1.mapError (CodecError.over .asynchronous) ∧
        read.2.2 = (endpoint.unpackFrom queue).2.2 ∧
        ∀ length, read.1 = .ok length →
          read.2.1.bytes = queue.unread.take (Limits.frameLengthSize + queue.declared) ∧
            queue.unread = read.2.1.bytes ++ read.2.2.unread ∧
            length = read.2.1.bytes.length) ∧
    (∀ (endpoint : Endpoint) (header : Header) (queue : ByteQueue), queue.capacity = none →
      endpoint.sendHeader header queue = endpoint.flushTo header queue ∧
        (∀ frame, header.flush endpoint.codec = .ok frame →
          endpoint.flushTo header queue = (.ok frame.length, endpoint.clear, queue.push frame)) ∧
        ∀ error, header.flush endpoint.codec = .error error →
          endpoint.flushTo header queue = (.error error, endpoint.clear, queue)) ∧
    (∀ codec : Codec, codec.Reachable → ∀ sent received queue,
      Correspondence.Run codec sent received queue →
        (queue.unread = [] → received = sent) ∧
        ∃ waiting, sent = received ++ waiting ∧
          ∀ (transport : Transport) (endpoint : Endpoint) (target : Header) (buffer : Buffer),
            endpoint.codec = codec → match waiting with
            | [] => ∃ left, endpoint.receiveOver transport target buffer queue =
                (.error (.parse (.io ⟨transport, .unexpectedEof⟩)), left, queue)
            | header :: _ => ∃ rest, endpoint.receiveOver transport target buffer queue =
                (.ok (), header, rest)) := by
  refine ⟨?_, ?_, ?_⟩
  · intro endpoint buffer queue
    obtain ⟨left, unpacked⟩ := endpoint.unpackFrom_eq queue
    rw [unpacked]
    exact endpoint.codec.decode_of_readFrame buffer queue
  · intro endpoint header queue unbounded
    refine ⟨?_, fun frame flushed => ?_, fun error refused => ?_⟩
    · change endpoint.sendOver .asynchronous header queue = endpoint.sendOver .blocking header queue
      cases flushed : header.flush endpoint.codec with
      | error error =>
        rw [Endpoint.sendOver_of_error flushed, Endpoint.sendOver_of_error flushed]
      | ok frame =>
        rw [Endpoint.sendOver_of_ok unbounded flushed, Endpoint.sendOver_of_ok unbounded flushed]
    · exact Endpoint.sendOver_of_ok unbounded flushed .blocking
    · exact Endpoint.sendOver_of_error refused .blocking queue
  · intro codec reachable sent received queue run
    obtain ⟨waiting, rfl, carries, -⟩ := run.explains reachable.sound
    refine ⟨fun nothing => ?_, waiting, rfl, fun transport endpoint target buffer agreed => ?_⟩
    · rw [nothing] at carries
      rw [carries.eq_nil, List.append_nil]
    · have found := carries.receiveOver reachable.sound agreed transport target buffer
      cases waiting with
      | nil => exact found
      | cons header later =>
        obtain ⟨rest, arrived, -⟩ := found
        exact ⟨rest, arrived⟩

theorem asynchronous_refines_blocking_mixed :
    ∃ queue : ByteQueue, Codec.sample.Reachable ∧
      Correspondence.Run Codec.sample [Header.sample, .empty] [Header.sample] queue ∧
      ∃ rest, Endpoint.receiveOver .asynchronous (.ofCodec Codec.sample) Header.sample .empty
        queue = (.ok (), .empty, rest) := by
  have agreed : (Endpoint.ofCodec Codec.sample).codec = Codec.sample := rfl
  have first : Header.sample.flush Codec.sample =
      .ok [28, 0, 1, 9, 28, 197, 169, 63, 6, 97, 59, 98, 1, 21, 33, 234, 73, 106, 74, 212, 22, 169,
        147, 63, 2, 0, 2, 0, 2, 49] := by
    cbv
  have second : Header.empty.flush Codec.sample =
      .ok [14, 0, 1, 21, 33, 234, 73, 106, 74, 212, 22, 169, 147, 63, 2, 0] := by
    cbv
  have sent := Correspondence.Run.start.send agreed .asynchronous Header.reachable_sample
  rw [Endpoint.sendOver_of_ok rfl first] at sent
  have both := sent.send agreed .blocking (.refl : Header.empty.Reachable)
  rw [Endpoint.sendOver_of_ok rfl second] at both
  have received := both.receive agreed .blocking { Header.empty with contentType := [116] } .empty
  have sound : (Endpoint.ofCodec Codec.sample).codec.Sound := Codec.reachable_sample.sound
  have arrived := Endpoint.receiveOver_frame Header.reachable_sample.lawful sound first .blocking
    { Header.empty with contentType := [116] } .empty
  simp only [ByteQueue.push, ByteQueue.empty, List.nil_append, arrived] at received
  obtain ⟨-, waiting, split, next⟩ :=
    asynchronous_refines_blocking.2.2 _ Codec.reachable_sample _ _ _ received
  cases split
  exact ⟨_, Codec.reachable_sample, received, next .asynchronous _ _ .empty agreed⟩

end HeaderCodec
