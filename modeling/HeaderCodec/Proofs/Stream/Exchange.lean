import HeaderCodec.Proofs.Stream.Frame

/-! On a stream are at any time the frames that were put on it and not taken. So whoever receives
takes the next one, and a frame that cannot be decoded does not disturb those behind it. -/

namespace HeaderCodec

namespace Endpoint

variable {endpoint : Endpoint} {fields : List Field}

theorem packTo_of_error {cause : EncodeError}
    (refused : endpoint.codec.encodeBody fields = .error cause) (queue : ByteQueue) :
    endpoint.packTo fields queue = (.error (.encode cause), endpoint.clear, queue) := by
  rw [packTo, encode_eq, Codec.encode, refused]
  rfl

theorem packTo_of_ok {body : Bytes} (packed : endpoint.codec.encodeBody fields = .ok body)
    {queue : ByteQueue} (unbounded : queue.capacity = none) :
    endpoint.packTo fields queue =
      (.ok (Codec.frameOf body).length, endpoint.clear, queue.push (Codec.frameOf body)) := by
  rw [packTo, encode_eq, Codec.encode, packed]
  simp only [Except.map, ByteQueue.writeOver, ByteQueue.write, unbounded, Except.mapError]

theorem unpackFrom_nil (endpoint : Endpoint) (capacity : Option Nat) :
    endpoint.unpackFrom ⟨[], capacity⟩ =
      (.error (.io ⟨.blocking, .unexpectedEof⟩), endpoint, ⟨[], capacity⟩) := rfl

end Endpoint

structure Exchange (ι : Type) where
  endpoints : ι → Endpoint
  queue : ByteQueue

namespace Exchange

/-- What can be done to the stream. Nobody need have packed the body of a frame that is pushed. -/
inductive Act (ι : Type)
  | send (who : ι) (fields : List Field)
  | push (body : Bytes)
  | receive (who : ι)

inductive Answer
  | sent (result : Except CodecError Nat)
  | pushed
  | received (result : Except CodecError (List Field))

structure Event (ι : Type) where
  queue : ByteQueue
  act : Act ι

section

variable {ι : Type}

/-- A body that is pushed is not longer than the endpoints accept. -/
def Act.Allowed (codec : Codec) : Act ι → Prop
  | .push body => body.length ≤ codec.maxFrameSize
  | _ => True

def Act.body? (codec : Codec) : Act ι → Option Bytes
  | .send _ fields => (codec.encodeBody fields).toOption
  | .push body => some body
  | .receive _ => none

/-- Whoever receives takes a frame off the stream if there is one. -/
def Event.takes : Event ι → Bool
  | ⟨queue, .receive _⟩ => !queue.unread.isEmpty
  | _ => false

def put (codec : Codec) (history : List (Event ι)) : List Bytes :=
  history.filterMap fun event => event.act.body? codec

def taken (history : List (Event ι)) : Nat :=
  history.countP Event.takes

theorem put_concat (codec : Codec) (history : List (Event ι)) (event : Event ι) :
    put codec (history ++ [event]) = put codec history ++ (event.act.body? codec).toList := by
  rw [put, put, List.filterMap_append]
  cases body : event.act.body? codec <;> simp [body]

theorem taken_concat (history : List (Event ι)) (event : Event ι) :
    taken (history ++ [event]) = taken history + event.takes.toNat := by
  rw [taken, taken, List.countP_append, List.countP_singleton]
  cases event.takes <;> rfl

/-- The endpoints agree on a codec, and what a history put on the stream and did not take is what
is there. -/
structure Explains (codec : Codec) (history : List (Event ι)) (state : Exchange ι) : Prop where
  codec_eq : ∀ who, (state.endpoints who).codec = codec
  taken_le : taken history ≤ (put codec history).length
  fits : ∀ body ∈ put codec history, body.length ≤ codec.maxFrameSize
  queue_eq : state.queue =
    ⟨((put codec history).drop (taken history)).flatMap Codec.frameOf, none⟩

theorem Explains.front {codec : Codec} {history : List (Event ι)} {state : Exchange ι}
    (explains : Explains codec history state) (waiting : state.queue.unread ≠ []) :
    ∃ body, (put codec history)[taken history]? = some body ∧
      body.length ≤ codec.maxFrameSize ∧
      state.queue = ⟨Codec.frameOf body ++
        ((put codec history).drop (taken history + 1)).flatMap Codec.frameOf, none⟩ := by
  have queue := explains.queue_eq
  have inside : taken history < (put codec history).length := by
    apply Nat.lt_of_not_le
    intro past
    rw [List.drop_eq_nil_of_le past] at queue
    rw [queue] at waiting
    exact waiting rfl
  refine ⟨_, List.getElem?_eq_getElem inside, explains.fits _ (List.getElem_mem inside), ?_⟩
  rw [queue, List.drop_eq_getElem_cons inside, List.flatMap_cons]

end

variable {ι : Type} [DecidableEq ι]

def perform (state : Exchange ι) : Act ι → Answer × Exchange ι
  | .send who fields =>
    let (result, endpoint, queue) := (state.endpoints who).packTo fields state.queue
    (.sent result, ⟨Function.update state.endpoints who endpoint, queue⟩)
  | .push body => (.pushed, { state with queue := state.queue.push (Codec.frameOf body) })
  | .receive who =>
    let (result, endpoint, queue) := (state.endpoints who).unpackFrom state.queue
    (.received result, ⟨Function.update state.endpoints who endpoint, queue⟩)

/-- The runs of endpoints with one codec, whatever they did before, on a stream without bounds. -/
inductive Run (codec : Codec) : List (Event ι) → Exchange ι → Prop
  | start {endpoints : ι → Endpoint} (same : ∀ who, (endpoints who).codec = codec) :
    Run codec [] ⟨endpoints, .empty⟩
  | act {history : List (Event ι)} {state : Exchange ι} (before : Run codec history state)
    {act : Act ι} (allowed : act.Allowed codec) :
    Run codec (history ++ [⟨state.queue, act⟩]) (state.perform act).2

section

variable {codec : Codec} {history : List (Event ι)} {state : Exchange ι} {who : ι}
  {fields : List Field} {body : Bytes}

theorem send_of_error (same : (state.endpoints who).codec = codec) {cause : EncodeError}
    (refused : codec.encodeBody fields = .error cause) :
    (state.perform (.send who fields)).1 = .sent (.error (.encode cause)) ∧
      (state.perform (.send who fields)).2.queue = state.queue := by
  subst same
  rw [perform, Endpoint.packTo_of_error refused]
  exact ⟨rfl, rfl⟩

theorem send_of_ok (same : (state.endpoints who).codec = codec)
    (unbounded : state.queue.capacity = none) (packed : codec.encodeBody fields = .ok body) :
    (state.perform (.send who fields)).1 = .sent (.ok (Codec.frameOf body).length) ∧
      (state.perform (.send who fields)).2.queue = state.queue.push (Codec.frameOf body) := by
  subst same
  rw [perform, Endpoint.packTo_of_ok packed unbounded]
  exact ⟨rfl, rfl⟩

theorem receive_of_nil (who : ι) (ended : state.queue.unread = []) :
    state.perform (.receive who) =
      (.received (.error (.io ⟨.blocking, .unexpectedEof⟩)), state) := by
  obtain ⟨endpoints, ⟨unread, capacity⟩⟩ := state
  cases ended
  simp only [perform, Endpoint.unpackFrom_nil, Function.update_eq_self]

theorem receive_of_frame (same : (state.endpoints who).codec = codec)
    (sayable : codec.maxFrameSize ≤ Limits.maxMaxFrameSize)
    (fits : body.length ≤ codec.maxFrameSize) {rest : Bytes} {capacity : Option Nat}
    (front : state.queue = ⟨Codec.frameOf body ++ rest, capacity⟩) :
    (state.perform (.receive who)).1 =
        .received ((codec.decodeBody body).mapError .decode) ∧
      (state.perform (.receive who)).2.queue = ⟨rest, capacity⟩ := by
  subst same
  obtain ⟨left, unpacked⟩ := (state.endpoints who).unpackFrom_eq state.queue
  rw [perform, unpacked, front, Codec.unpackFrom_frame sayable fits]
  exact ⟨rfl, rfl⟩

theorem codec_perform (same : ∀ who, (state.endpoints who).codec = codec) (act : Act ι)
    (other : ι) : ((state.perform act).2.endpoints other).codec = codec := by
  have updated (who : ι) (endpoint : Endpoint) (kept : endpoint.codec = codec) :
      (Function.update state.endpoints who endpoint other).codec = codec := by
    rw [Function.update_apply]
    split
    · exact kept
    · exact same other
  cases act with
  | send who fields =>
    rw [perform, Endpoint.packTo_eq]
    exact updated who _ (same who)
  | push body => exact same other
  | receive who =>
    obtain ⟨left, unpacked⟩ := (state.endpoints who).unpackFrom_eq state.queue
    rw [perform, unpacked]
    exact updated who _ (same who)

theorem Explains.of_not_takes (explains : Explains codec history state) {act : Act ι}
    (fits : ∀ body, act.body? codec = some body → body.length ≤ codec.maxFrameSize)
    (leaves : Event.takes ⟨state.queue, act⟩ = false)
    (queue : (state.perform act).2.queue =
      state.queue.push ((act.body? codec).toList.flatMap Codec.frameOf)) :
    Explains codec (history ++ [⟨state.queue, act⟩]) (state.perform act).2 := by
  have put := put_concat codec history ⟨state.queue, act⟩
  have taken := taken_concat history ⟨state.queue, act⟩
  rw [leaves] at taken
  refine ⟨codec_perform explains.codec_eq act, ?_, ?_, ?_⟩
  · rw [put, taken, List.length_append]
    exact Nat.le_add_right_of_le explains.taken_le
  · intro body listed
    rw [put] at listed
    rcases List.mem_append.mp listed with earlier | new
    · exact explains.fits body earlier
    · exact fits body (Option.mem_toList.mp new)
  · rw [queue, put, taken, Bool.toNat_false, Nat.add_zero,
      List.drop_append_of_le_length explains.taken_le, List.flatMap_append, explains.queue_eq]
    rfl

theorem Explains.of_takes (explains : Explains codec history state)
    (sayable : codec.maxFrameSize ≤ Limits.maxMaxFrameSize) (who : ι)
    (waiting : state.queue.unread ≠ []) :
    Explains codec (history ++ [⟨state.queue, .receive who⟩]) (state.perform (.receive who)).2 := by
  obtain ⟨body, turn, fits, front⟩ := explains.front waiting
  have queue := (receive_of_frame (explains.codec_eq who) sayable fits front).2
  have put := put_concat codec history ⟨state.queue, .receive who⟩
  have taken := taken_concat history ⟨state.queue, .receive who⟩
  have takes : Event.takes ⟨state.queue, .receive who⟩ = true := by
    rw [Event.takes, List.isEmpty_eq_false_iff.mpr waiting, Bool.not_false]
  rw [Act.body?, Option.toList_none, List.append_nil] at put
  rw [takes, Bool.toNat_true] at taken
  refine ⟨codec_perform explains.codec_eq _, ?_, ?_, ?_⟩
  · rw [put, taken]
    exact (List.getElem?_eq_some_iff.mp turn).1
  · rw [put]
    exact explains.fits
  · rw [put, taken, queue]

theorem Explains.perform (sayable : codec.maxFrameSize ≤ Limits.maxMaxFrameSize)
    (explains : Explains codec history state) {act : Act ι} (allowed : act.Allowed codec) :
    Explains codec (history ++ [⟨state.queue, act⟩]) (state.perform act).2 := by
  have unbounded : state.queue.capacity = none := by rw [explains.queue_eq]
  cases act with
  | send who fields =>
    have same := explains.codec_eq who
    cases packed : codec.encodeBody fields with
    | error cause =>
      have nothing : (Act.send who fields).body? codec = none := by
        rw [Act.body?, packed]
        rfl
      refine explains.of_not_takes ?_ rfl ?_
      · rw [nothing]
        exact nofun
      · rw [(send_of_error same packed).2, nothing]
        simp [ByteQueue.push]
    | ok body =>
      have one : (Act.send who fields).body? codec = some body := by
        rw [Act.body?, packed]
        rfl
      refine explains.of_not_takes ?_ rfl ?_
      · intro body' same
        rw [one] at same
        cases same
        exact (Codec.encodeBody_eq_ok_iff.mp packed).2.1
      · rw [(send_of_ok same unbounded packed).2, one]
        simp
  | push body =>
    refine explains.of_not_takes ?_ rfl ?_
    · rintro _ ⟨⟩
      exact allowed
    · simp [Exchange.perform, Act.body?]
  | receive who =>
    by_cases ended : state.queue.unread = []
    · refine explains.of_not_takes nofun ?_ ?_
      · rw [Event.takes, ended]
        rfl
      · rw [receive_of_nil who ended]
        simp [Act.body?, ByteQueue.push]
    · exact explains.of_takes sayable who ended

theorem Run.explains (run : Run codec history state)
    (sayable : codec.maxFrameSize ≤ Limits.maxMaxFrameSize) :
    Explains codec history state := by
  induction run with
  | start same => exact ⟨same, Nat.le_refl _, nofun, rfl⟩
  | act before allowed ih => exact ih.perform sayable allowed

end

/-- At every point of every run, the stream holds the frames that were put on it and not taken, in
order. Fields that cannot be packed leave it as it is. Whoever receives gets what the next body
decodes to, or its fault, and takes that frame and nothing else; where no frame is left, nothing
changes. -/
theorem delivery {codec : Codec} (reachable : codec.Reachable) {history : List (Event ι)}
    {state : Exchange ι} (run : Run codec history state) :
    state.queue = ⟨((put codec history).drop (taken history)).flatMap Codec.frameOf, none⟩ ∧
      (∀ who fields, match codec.encodeBody fields with
        | .error cause =>
          (state.perform (.send who fields)).1 = .sent (.error (.encode cause)) ∧
            (state.perform (.send who fields)).2.queue = state.queue
        | .ok body =>
          (state.perform (.send who fields)).1 = .sent (.ok (Codec.frameOf body).length) ∧
            (state.perform (.send who fields)).2.queue =
              state.queue.push (Codec.frameOf body)) ∧
      (∀ who, state.queue.unread ≠ [] → ∃ body,
        (put codec history)[taken history]? = some body ∧
          (state.perform (.receive who)).1 =
            .received ((codec.decodeBody body).mapError .decode) ∧
          state.queue.unread =
            Codec.frameOf body ++ (state.perform (.receive who)).2.queue.unread) ∧
      (∀ who, state.queue.unread = [] → state.perform (.receive who) =
        (.received (.error (.io ⟨.blocking, .unexpectedEof⟩)), state)) := by
  have sayable := reachable.sound.le_max
  have explains := run.explains sayable
  have unbounded : state.queue.capacity = none := by rw [explains.queue_eq]
  refine ⟨explains.queue_eq, ?_, ?_, fun who ended => receive_of_nil who ended⟩
  · intro who fields
    split
    next refused => exact send_of_error (explains.codec_eq who) refused
    next packed => exact send_of_ok (explains.codec_eq who) unbounded packed
  · intro who waiting
    obtain ⟨body, turn, fits, front⟩ := explains.front waiting
    obtain ⟨answer, queue⟩ := receive_of_frame (explains.codec_eq who) sayable fits front
    refine ⟨body, turn, answer, ?_⟩
    rw [queue, front]

theorem delivery_past_malformed :
    ∃ (history : List (Event Bool)) (state : Exchange Bool),
      Codec.sample.Reachable ∧ Run Codec.sample history state ∧
        put Codec.sample history = [[127], [3, 2]] ∧ taken history = 1 ∧
        (state.perform (.receive true)).1 = .received (.ok [⟨[120, 45, 116], [49]⟩]) := by
  have start : Run Codec.sample [] ⟨fun _ : Bool => ⟨Codec.sample, [9]⟩, .empty⟩ :=
    .start fun _ => rfl
  have short : Act.Allowed Codec.sample (.push [127] : Act Bool) := Nat.le_of_ble_eq_true rfl
  have packed : Act.Allowed Codec.sample (.send true [⟨[88, 45, 84], [49]⟩] : Act Bool) := trivial
  have asked : Act.Allowed Codec.sample (.receive false : Act Bool) := trivial
  have received := ((start.act short).act packed).act asked
  obtain ⟨-, -, next, -⟩ := delivery Codec.reachable_sample received
  obtain ⟨body, turn, answer, -⟩ := next true (by decide +kernel)
  have decoded : Codec.sample.decodeBody [3, 2] = .ok [⟨[120, 45, 116], [49]⟩] := by
    decide +kernel
  refine ⟨_, _, Codec.reachable_sample, received, by decide +kernel, by decide +kernel, ?_⟩
  have same : some [3, 2] = some body := by
    rw [← turn]
    decide +kernel
  cases same
  rw [answer, decoded]
  rfl

end Exchange

end HeaderCodec
