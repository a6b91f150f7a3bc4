import HeaderCodec.Proofs.Header.Receive
import HeaderCodec.Stream.Headers

/-! The first bytes of a stream decide what becomes of a receipt. What the header held before never
matters, and a field that is refused takes those before it along. -/

namespace HeaderCodec

namespace Endpoint

theorem parseFrom_eq (endpoint : Endpoint) (header : Header) (queue : ByteQueue) :
    ∃ left, endpoint.parseFrom header queue =
      ((header.parseFrom endpoint.codec queue).1, (header.parseFrom endpoint.codec queue).2.1,
        { endpoint with scratch := left }, (header.parseFrom endpoint.codec queue).2.2) := by
  obtain ⟨left, unpacked⟩ := endpoint.unpackFrom_eq queue
  refine ⟨left, ?_⟩
  rw [parseFrom, unpacked, Header.parseFrom]
  cases endpoint.codec.unpackFrom queue with
  | mk result rest =>
  cases result with
  | error cause => rfl
  | ok fields =>
    dsimp only
    cases header.reset.setAll fields with
    | mk result header => cases result <;> rfl

/-- The four ways in which a receipt ends, each with what it leaves of the stream. None of them
depends on what the header held before, and none leaves anything in a header that was refused. -/
theorem blocking_receipt (endpoint : Endpoint) (header : Header) (queue : ByteQueue) :
    (queue.unread.length < Limits.frameLengthSize → ∃ left, endpoint.parseFrom header queue =
      (.error (.parse (.io ⟨.blocking, .unexpectedEof⟩)), .empty,
        { endpoint with scratch := left }, queue.ended)) ∧
    (Limits.frameLengthSize ≤ queue.unread.length →
      endpoint.codec.maxFrameSize < queue.declared → ∃ left, endpoint.parseFrom header queue =
        (.error (.parse (.decode
          (.frameTooLarge endpoint.codec.maxFrameSize queue.declared))), .empty,
          { endpoint with scratch := left }, queue.drop Limits.frameLengthSize)) ∧
    (Limits.frameLengthSize ≤ queue.unread.length →
      queue.declared ≤ endpoint.codec.maxFrameSize →
      queue.unread.length < Limits.frameLengthSize + queue.declared →
      ∃ left, endpoint.parseFrom header queue =
        (.error (.parse (.io ⟨.blocking, .unexpectedEof⟩)), .empty,
          { endpoint with scratch := left }, queue.ended)) ∧
    (queue.declared ≤ endpoint.codec.maxFrameSize →
      Limits.frameLengthSize + queue.declared ≤ queue.unread.length →
      ∃ left, endpoint.parseFrom header queue =
        ((header.parse endpoint.codec
            (queue.unread.take (Limits.frameLengthSize + queue.declared))).1,
          (header.parse endpoint.codec
            (queue.unread.take (Limits.frameLengthSize + queue.declared))).2,
          { endpoint with scratch := left },
          queue.drop (Limits.frameLengthSize + queue.declared))) ∧
    (∀ other : Header, endpoint.parseFrom other queue = endpoint.parseFrom header queue) ∧
    (∀ error, (endpoint.parseFrom header queue).1 = .error error →
      (endpoint.parseFrom header queue).2.1 = .empty) := by
  obtain ⟨left, received⟩ := endpoint.parseFrom_eq header queue
  rw [received]
  refine ⟨fun short => ⟨left, ?_⟩, fun opened large => ⟨left, ?_⟩,
    fun opened allowed truncated => ⟨left, ?_⟩, fun allowed whole => ⟨left, ?_⟩, ?_, ?_⟩
  · rw [Header.parseFrom_of_error (ByteQueue.nextFrame_of_short short)]
  · rw [Header.parseFrom_of_error (ByteQueue.nextFrame_of_large opened large)]
  · rw [Header.parseFrom_of_error (ByteQueue.nextFrame_of_truncated opened allowed truncated)]
  · have taken : queue.nextFrame .blocking _ = _ := ByteQueue.nextFrame_of_whole allowed whole
    have sayable := (ByteQueue.pieces_of_nextFrame taken).2.1
    rw [Header.parseFrom_of_ok taken, ← ByteQueue.frameOf_of_nextFrame taken,
      Header.parse_eq, Codec.decode_frameOf sayable]
  · intro other
    rw [← received]
    simp only [parseFrom, Header.reset_eq]
  · intro error failed
    rw [Header.parseFrom_eq] at failed ⊢
    exact Header.filled_of_error failed

theorem blocking_receipt_refused_field :
    let authorization := Attribute.authorization.name
    let contentLength := Attribute.contentLength.name
    let codec : Codec :=
      ⟨64, .ofFields [.nameOnly authorization, .nameOnly contentLength], .huffman⟩
    let stale : Header := { Header.empty with contentType := [116] }
    let queue : ByteQueue := ⟨[8, 0, 2, 0, 2, 97, 2, 1, 2, 128, 7], none⟩
    codec.decodeBody [2, 0, 2, 97, 2, 1, 2, 128] =
        .ok [⟨authorization, [97]⟩, ⟨contentLength, [128]⟩] ∧
      Header.empty.set authorization [97] =
        (.ok (), { Header.empty with authorization := [97] }) ∧
      queue.declared ≤ codec.maxFrameSize ∧
      Limits.frameLengthSize + queue.declared ≤ queue.unread.length ∧
      ∃ left, parseFrom ⟨codec, [9]⟩ stale queue =
        (.error .invalidContentLength, .empty, ⟨codec, left⟩, ⟨[7], none⟩) := by
  intro authorization contentLength codec stale queue
  have allowed : queue.declared ≤ codec.maxFrameSize := by decide
  have whole : Limits.frameLengthSize + queue.declared ≤ queue.unread.length := by decide
  have refused : stale.parse codec [8, 0, 2, 0, 2, 97, 2, 1, 2, 128] =
      (.error .invalidContentLength, .empty) := by
    decide +kernel
  refine ⟨by decide +kernel, by decide +kernel, allowed, whole, ?_⟩
  obtain ⟨left, received⟩ :=
    (blocking_receipt ⟨codec, [9]⟩ stale queue).2.2.2.1 allowed whole
  refine ⟨left, ?_⟩
  rw [received]
  exact congrArg (fun parsed => (parsed.1, parsed.2, _)) refused

end Endpoint

end HeaderCodec
