import HeaderCodec.Proofs.RoundTrip
import HeaderCodec.Stream.Endpoint

/-! A frame is read for a codec, by an endpoint into its own room, and into a buffer. All take the
same bytes off the stream and refuse the same streams, which `nextFrame` says once. -/

namespace HeaderCodec

def CodecError.over (transport : Transport) : CodecError → CodecError
  | .io ⟨_, fault⟩ => .io ⟨transport, fault⟩
  | error => error

namespace ByteQueue

variable {queue after : ByteQueue} {transport : Transport} {maxFrameSize : Nat}

theorem read_eq_ok_iff {count : Nat} {front : Bytes} :
    queue.read count = (.ok front, after) ↔
      front.length = count ∧ queue.unread = front ++ after.unread ∧
        after.capacity = queue.capacity := by
  constructor
  · intro taken
    simp only [read, Bytes.split_eq] at taken
    split at taken
    · cases taken
    next enough =>
      cases taken
      refine ⟨?_, (List.take_append_drop count queue.unread).symm, rfl⟩
      have := List.length_take_le count queue.unread
      omega
  · rintro ⟨rfl, unread, capacity⟩
    obtain ⟨bytes, room⟩ := queue
    obtain ⟨rest, room'⟩ := after
    cases unread
    cases capacity
    exact read_length_append room front rest

theorem readOver_eq (queue : ByteQueue) (transport : Transport) (count : Nat) :
    queue.readOver transport count =
      ((queue.read count).1.mapError (⟨transport, ·⟩), (queue.read count).2) := rfl

theorem readOver_eq_ok_iff {count : Nat} {front : Bytes} :
    queue.readOver transport count = (.ok front, after) ↔
      front.length = count ∧ queue.unread = front ++ after.unread ∧
        after.capacity = queue.capacity := by
  rw [← read_eq_ok_iff, readOver_eq, Prod.ext_iff, Prod.ext_iff, Outcome.mapError_eq_ok_iff]

theorem readPadded_of_readOver {count : Nat} {front : Bytes}
    (taken : queue.readOver transport count = (.ok front, after)) :
    queue.readPadded count = front := by
  obtain ⟨rfl, unread, -⟩ := readOver_eq_ok_iff.mp taken
  rw [readPadded, unread, List.take_left' rfl, Nat.sub_self, List.replicate_zero, List.append_nil]

/-- The body of the next frame. A length above the maximum is refused before the body is read. -/
def nextFrame (queue : ByteQueue) (transport : Transport) (maxFrameSize : Nat) :
    Except CodecError Bytes × ByteQueue :=
  match queue.readOver transport Limits.frameLengthSize with
  | (.error cause, queue) => (.error (.io cause), queue)
  | (.ok opening, queue) =>
    let declared := Bytes.toNatLE opening
    if maxFrameSize < declared then
      (.error (.decode (.frameTooLarge maxFrameSize declared)), queue)
    else
      match queue.readOver transport declared with
      | (.error cause, queue) => (.error (.io cause), queue)
      | (.ok body, queue) => (.ok body, queue)

theorem nextFrame_over (queue : ByteQueue) (transport transport' : Transport)
    (maxFrameSize : Nat) : queue.nextFrame transport' maxFrameSize =
      ((queue.nextFrame transport maxFrameSize).1.mapError (CodecError.over transport'),
        (queue.nextFrame transport maxFrameSize).2) := by
  unfold nextFrame
  simp only [readOver_eq]
  cases queue.read Limits.frameLengthSize with
  | mk opening queue =>
  cases opening with
  | error fault => rfl
  | ok opening =>
  dsimp only [Except.mapError]
  split
  · rfl
  cases queue.read (Bytes.toNatLE opening) with
  | mk body queue => cases body <;> rfl

theorem toNatLE_opening {length : Nat} (sayable : length ≤ Limits.maxMaxFrameSize) :
    Bytes.toNatLE (Bytes.ofNatLE Limits.frameLengthSize length) = length := by
  rw [Bytes.toNatLE_ofNatLE]
  exact Nat.mod_eq_of_lt (Nat.lt_succ_of_le sayable)

theorem pieces_of_nextFrame {body : Bytes}
    (taken : queue.nextFrame transport maxFrameSize = (.ok body, after)) :
    body.length ≤ maxFrameSize ∧ body.length ≤ Limits.maxMaxFrameSize ∧
      ∃ middle, queue.readOver transport Limits.frameLengthSize =
          (.ok (Bytes.ofNatLE Limits.frameLengthSize body.length), middle) ∧
        middle.readOver transport body.length = (.ok body, after) := by
  unfold nextFrame at taken
  split at taken
  · cases taken
  next opening middle opened =>
  dsimp only at taken
  split at taken
  · cases taken
  next allowed =>
  split at taken
  · cases taken
  next filled =>
  cases taken
  have width := (readOver_eq_ok_iff.mp opened).1
  have length := (readOver_eq_ok_iff.mp filled).1
  have sayable := Bytes.toNatLE_lt opening
  have written := Bytes.ofNatLE_toNatLE opening
  rw [width, ← length] at sayable written
  rw [← length] at allowed filled
  rw [← written] at opened
  exact ⟨Nat.not_lt.mp allowed, Nat.le_of_lt_succ sayable, middle, opened, filled⟩

theorem front_of_nextFrame {body : Bytes}
    (taken : queue.nextFrame transport maxFrameSize = (.ok body, after)) :
    queue.unread = Codec.frameOf body ++ after.unread ∧ after.capacity = queue.capacity := by
  obtain ⟨-, -, middle, opened, filled⟩ := pieces_of_nextFrame taken
  obtain ⟨-, front, room⟩ := readOver_eq_ok_iff.mp opened
  obtain ⟨-, back, room'⟩ := readOver_eq_ok_iff.mp filled
  refine ⟨?_, room'.trans room⟩
  rw [front, back, Codec.frameOf, List.append_assoc]

theorem nextFrame_eq_ok_iff {body : Bytes} (sayable : maxFrameSize ≤ Limits.maxMaxFrameSize) :
    queue.nextFrame transport maxFrameSize = (.ok body, after) ↔
      body.length ≤ maxFrameSize ∧ queue.unread = Codec.frameOf body ++ after.unread ∧
        after.capacity = queue.capacity := by
  constructor
  · intro taken
    exact ⟨(pieces_of_nextFrame taken).1, front_of_nextFrame taken⟩
  · rintro ⟨fits, unread, room⟩
    have declared := toNatLE_opening (Nat.le_trans fits sayable)
    have opened : queue.readOver transport Limits.frameLengthSize =
        (.ok (Bytes.ofNatLE Limits.frameLengthSize body.length),
          ⟨body ++ after.unread, queue.capacity⟩) := by
      refine readOver_eq_ok_iff.mpr ⟨Bytes.length_ofNatLE _ _, ?_, rfl⟩
      rw [unread, Codec.frameOf, List.append_assoc]
    have filled : readOver transport ⟨body ++ after.unread, queue.capacity⟩ body.length =
        (.ok body, after) := readOver_eq_ok_iff.mpr ⟨rfl, rfl, room⟩
    simp only [nextFrame, opened, declared, if_neg (Nat.not_lt.mpr fits), filled]

def declared (queue : ByteQueue) : Nat :=
  Bytes.toNatLE (queue.unread.take Limits.frameLengthSize)

def drop (queue : ByteQueue) (count : Nat) : ByteQueue :=
  { queue with unread := queue.unread.drop count }

/-- A stream that a reader has read to its end. -/
def ended (queue : ByteQueue) : ByteQueue :=
  { queue with unread := [] }

theorem read_of_lt {count : Nat} (short : queue.unread.length < count) :
    queue.read count = (.error .unexpectedEof, queue.ended) := by
  have lacking : (queue.unread.take count).length < count := by
    rwa [List.take_of_length_le (Nat.le_of_lt short)]
  simp only [read, Bytes.split_eq, if_pos lacking, ended]

theorem read_of_le {count : Nat} (enough : count ≤ queue.unread.length) :
    queue.read count = (.ok (queue.unread.take count), queue.drop count) := by
  have whole : ¬(queue.unread.take count).length < count := by
    rw [List.length_take_of_le enough]
    exact Nat.lt_irrefl count
  simp only [read, Bytes.split_eq, if_neg whole, drop]

theorem nextFrame_of_short (short : queue.unread.length < Limits.frameLengthSize) :
    queue.nextFrame transport maxFrameSize =
      (.error (.io ⟨transport, .unexpectedEof⟩), queue.ended) := by
  simp only [nextFrame, readOver_eq, read_of_lt short, Except.mapError]

theorem nextFrame_of_large (opened : Limits.frameLengthSize ≤ queue.unread.length)
    (large : maxFrameSize < queue.declared) :
    queue.nextFrame transport maxFrameSize =
      (.error (.decode (.frameTooLarge maxFrameSize queue.declared)),
        queue.drop Limits.frameLengthSize) := by
  rw [declared] at large ⊢
  simp only [nextFrame, readOver_eq, read_of_le opened, Except.mapError, if_pos large]

theorem nextFrame_of_truncated (opened : Limits.frameLengthSize ≤ queue.unread.length)
    (allowed : queue.declared ≤ maxFrameSize)
    (truncated : queue.unread.length < Limits.frameLengthSize + queue.declared) :
    queue.nextFrame transport maxFrameSize =
      (.error (.io ⟨transport, .unexpectedEof⟩), queue.ended) := by
  have short : (queue.drop Limits.frameLengthSize).unread.length < queue.declared := by
    rw [drop, List.length_drop]
    omega
  rw [declared] at allowed short
  simp only [nextFrame, readOver_eq, read_of_le opened, Except.mapError,
    if_neg (Nat.not_lt.mpr allowed), read_of_lt short]
  rfl

theorem nextFrame_of_whole (allowed : queue.declared ≤ maxFrameSize)
    (whole : Limits.frameLengthSize + queue.declared ≤ queue.unread.length) :
    queue.nextFrame transport maxFrameSize =
      (.ok ((queue.unread.drop Limits.frameLengthSize).take queue.declared),
        queue.drop (Limits.frameLengthSize + queue.declared)) := by
  have opened : Limits.frameLengthSize ≤ queue.unread.length := by omega
  have enough : queue.declared ≤ (queue.drop Limits.frameLengthSize).unread.length := by
    rw [drop, List.length_drop]
    omega
  have behind : (queue.drop Limits.frameLengthSize).drop queue.declared =
      queue.drop (Limits.frameLengthSize + queue.declared) := by
    simp only [drop, List.drop_drop]
  rw [← behind]
  rw [declared] at allowed enough ⊢
  simp only [nextFrame, readOver_eq, read_of_le opened, Except.mapError,
    if_neg (Nat.not_lt.mpr allowed), read_of_le enough]
  rfl

theorem frameOf_of_nextFrame {body : Bytes}
    (taken : queue.nextFrame transport maxFrameSize = (.ok body, after)) :
    Codec.frameOf body = queue.unread.take (Limits.frameLengthSize + queue.declared) := by
  have sayable := (pieces_of_nextFrame taken).2.1
  have unread := (front_of_nextFrame taken).1
  have announced : queue.declared = body.length := by
    rw [declared, unread, Codec.frameOf, List.append_assoc,
      List.take_left' (Bytes.length_ofNatLE _ _), toNatLE_opening sayable]
  rw [announced, unread, ← Codec.length_frameOf, List.take_left]

end ByteQueue

theorem Codec.unpackFrom_eq (codec : Codec) (queue : ByteQueue) :
    codec.unpackFrom queue =
      ((queue.nextFrame .blocking codec.maxFrameSize).1 >>= fun body =>
          (codec.decodeBody body).mapError .decode,
        (queue.nextFrame .blocking codec.maxFrameSize).2) := by
  unfold unpackFrom ByteQueue.nextFrame
  cases queue.readOver .blocking Limits.frameLengthSize with
  | mk opening queue =>
  cases opening with
  | error cause => rfl
  | ok opening =>
  dsimp only
  split
  · rfl
  cases queue.readOver .blocking (Bytes.toNatLE opening) with
  | mk body queue => cases body <;> rfl

theorem Codec.unpackFrom_frame {codec : Codec} {body : Bytes}
    (sayable : codec.maxFrameSize ≤ Limits.maxMaxFrameSize)
    (fits : body.length ≤ codec.maxFrameSize) (rest : Bytes) (capacity : Option Nat) :
    codec.unpackFrom ⟨frameOf body ++ rest, capacity⟩ =
      ((codec.decodeBody body).mapError .decode, ⟨rest, capacity⟩) := by
  have taken : ByteQueue.nextFrame ⟨frameOf body ++ rest, capacity⟩ .blocking codec.maxFrameSize =
      (.ok body, ⟨rest, capacity⟩) :=
    (ByteQueue.nextFrame_eq_ok_iff sayable).mpr ⟨fits, rfl, rfl⟩
  rw [unpackFrom_eq, taken, Outcome.ok_bind]

theorem Codec.decodeBody_over (codec : Codec) (body : Bytes) (transport : Transport) :
    ((codec.decodeBody body).mapError CodecError.decode).mapError (CodecError.over transport) =
      (codec.decodeBody body).mapError .decode := by
  cases codec.decodeBody body <;> rfl

theorem Endpoint.unpackFrom_eq (endpoint : Endpoint) (queue : ByteQueue) :
    ∃ left, endpoint.unpackFrom queue =
      ((endpoint.codec.unpackFrom queue).1, { endpoint with scratch := left },
        (endpoint.codec.unpackFrom queue).2) := by
  unfold unpackFrom Codec.unpackFrom
  cases opened : queue.readOver .blocking Limits.frameLengthSize with
  | mk opening middle =>
  cases opening with
  | error cause => exact ⟨endpoint.scratch, rfl⟩
  | ok opening =>
  dsimp only
  split
  · exact ⟨endpoint.scratch, rfl⟩
  refine ⟨middle.readPadded (Bytes.toNatLE opening), ?_⟩
  cases filled : middle.readOver .blocking (Bytes.toNatLE opening) with
  | mk body rest =>
  cases body with
  | error cause => rfl
  | ok body =>
    have padded := ByteQueue.readPadded_of_readOver filled
    simp only [padded]

theorem readFrame_of_ok {maxFrameSize : Nat} {queue after : ByteQueue} {body : Bytes}
    (taken : queue.nextFrame .asynchronous maxFrameSize = (.ok body, after)) (buffer : Buffer) :
    ∃ filled, readFrame maxFrameSize buffer queue =
        (.ok (Codec.frameOf body).length, filled, after) ∧
      filled.bytes = Codec.frameOf body := by
  obtain ⟨fits, sayable, middle, opened, filled⟩ := ByteQueue.pieces_of_nextFrame taken
  have declared := ByteQueue.toNatLE_opening sayable
  have padded := ByteQueue.readPadded_of_readOver filled
  have whole : ((buffer.assign (Bytes.ofNatLE Limits.frameLengthSize body.length)).append
      body).bytes = Codec.frameOf body := by
    rw [Buffer.bytes_append, Buffer.bytes_assign, Codec.frameOf]
  refine ⟨_, ?_, whole⟩
  rw [readFrame, opened]
  simp only [declared, if_neg (Nat.not_lt.mpr fits), filled, padded, whole]

theorem readFrame_of_error {maxFrameSize : Nat} {queue after : ByteQueue} {cause : CodecError}
    (failed : queue.nextFrame .asynchronous maxFrameSize = (.error cause, after))
    (buffer : Buffer) :
    ∃ left, readFrame maxFrameSize buffer queue = (.error cause, left, after) := by
  unfold ByteQueue.nextFrame at failed
  unfold readFrame
  cases opened : queue.readOver .asynchronous Limits.frameLengthSize with
  | mk opening middle =>
  rw [opened] at failed
  cases opening with
  | error fault =>
    cases failed
    exact ⟨buffer, rfl⟩
  | ok opening =>
  dsimp only at failed ⊢
  by_cases large : maxFrameSize < Bytes.toNatLE opening
  · rw [if_pos large] at failed ⊢
    cases failed
    exact ⟨buffer, rfl⟩
  rw [if_neg large] at failed ⊢
  cases filled : middle.readOver .asynchronous (Bytes.toNatLE opening) with
  | mk body rest =>
  rw [filled] at failed
  cases body with
  | error fault =>
    cases failed
    exact ⟨_, rfl⟩
  | ok body => cases failed

end HeaderCodec
