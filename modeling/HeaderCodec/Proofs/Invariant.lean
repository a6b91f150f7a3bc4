import HeaderCodec.Proofs.Dump
import HeaderCodec.Proofs.Pool.Runs
import HeaderCodec.Proofs.RoundTrip
import HeaderCodec.Proofs.Stream.Provision

/-! All ways of making an endpoint end in a check of the sizes and in registering the entries, so
every endpoint that a program can have is bounded and has a dictionary in order. -/

namespace HeaderCodec

namespace Dictionary

inductive Made : Dictionary → Prop
  | new : Made .empty
  | ofFields (fields : List Field) : Made (.ofFields fields)
  | load {dictionary : Dictionary} (before : Made dictionary) (fields : List Field) :
    Made (dictionary.load fields)
  | reset {dictionary : Dictionary} (before : Made dictionary) : Made dictionary.reset

theorem Made.registered {dictionary : Dictionary} (made : dictionary.Made) :
    Registered dictionary.entries := by
  cases made with
  | new => exact .nil
  | ofFields fields => exact registered_ofFields fields
  | load before fields => exact registered_ofFields fields
  | reset before => exact .nil

end Dictionary

namespace Endpoint

/-- Made by some sequence of operations, whatever bytes came in on the way. The default pool is that
of the default endpoint, and the capacity of a pool is its own unless another one is set, so neither
needs a rule. -/
inductive Made : Endpoint → Prop
  | default : Made .default
  | build {setup : Setup} {codec : Codec} (built : setup.build = .ok codec) : Made (.ofCodec codec)
  | withDictionary {maxFrameSize : Nat} {dictionary : Dictionary} {codec : Codec}
    (known : dictionary.Made) (made : Codec.withDictionary maxFrameSize dictionary = .ok codec) :
    Made (.ofCodec codec)
  | share {endpoint : Endpoint} (before : Made endpoint) : Made endpoint.share
  | withCoder {endpoint : Endpoint} (before : Made endpoint) (coder : Coder) :
    Made (endpoint.withCoder coder)
  | reset {endpoint : Endpoint} (before : Made endpoint) : Made endpoint.reset
  | load {endpoint : Endpoint} (before : Made endpoint) (bytes : Bytes) :
    Made (endpoint.load bytes).2
  | loadFrom {endpoint : Endpoint} (before : Made endpoint) (queue : ByteQueue) :
    Made (endpoint.loadFrom queue).2.1
  | receiveDump {endpoint : Endpoint} (before : Made endpoint) (queue : ByteQueue) :
    Made (endpoint.receiveDump queue).2.1
  | encode {endpoint : Endpoint} (before : Made endpoint) (fields : List Field) :
    Made (endpoint.encode fields).2
  | unpackFrom {endpoint : Endpoint} (before : Made endpoint) (queue : ByteQueue) :
    Made (endpoint.unpackFrom queue).2.1
  | acquire {template : Endpoint} {maxIdle : Nat} {pool : EndpointPool}
    {events : List (PoolEvent Endpoint)} (before : Made template)
    (run : EndpointPool.lending.Run ((EndpointPool.ofEndpoint template).withIdleCapacity maxIdle)
      events pool) : Made pool.acquire.1
  | acquireNew {maxFrameSize maxIdle : Nat} {dictionary : Dictionary} {start pool : EndpointPool}
    {events : List (PoolEvent Endpoint)} (known : dictionary.Made)
    (opened : EndpointPool.create maxFrameSize dictionary = .ok start)
    (run : EndpointPool.lending.Run (start.withIdleCapacity maxIdle) events pool) :
    Made pool.acquire.1

variable {endpoint : Endpoint}

theorem sound_adopt (sound : endpoint.codec.Sound) {outcome : Except CodecError Codec}
    (checked : ∀ codec, outcome = .ok codec → codec.Sound) :
    (endpoint.adopt outcome).2.codec.Sound := by
  cases outcome with
  | error cause => exact sound
  | ok codec => exact checked codec rfl

theorem sound_of_create {maxFrameSize : Nat} {dictionary : Dictionary} {pool : EndpointPool}
    (known : dictionary.Made) (opened : EndpointPool.create maxFrameSize dictionary = .ok pool) :
    pool.settings.Sound := by
  simp only [EndpointPool.create, Outcome.bind_eq_ok_iff, Codec.checkMaxFrameSize_eq_ok_iff,
    Codec.checkContent_eq_ok_iff, exists_const, pure, Except.pure, Except.ok.injEq] at opened
  obtain ⟨size, content, rfl⟩ := opened
  exact ⟨size.1, size.2, known.registered, content⟩

theorem Made.sound (made : endpoint.Made) : endpoint.codec.Sound := by
  induction made with
  | default => exact Codec.sound_default
  | build built => exact Codec.sound_of_build built
  | withDictionary known made =>
    obtain ⟨size, content, rfl⟩ := Codec.withDictionary_eq_ok_iff.mp made
    exact ⟨size.1, size.2, known.registered, content⟩
  | share before ih => exact ih
  | withCoder before coder ih => exact ⟨ih.min_le, ih.le_max, ih.registered, ih.content_le⟩
  | reset before ih => exact ⟨ih.min_le, ih.le_max, .nil, Nat.zero_le _⟩
  | load before bytes ih =>
    rw [load_eq]
    exact sound_adopt ih fun codec => Codec.sound_of_load
  | loadFrom before queue ih =>
    rw [loadFrom_eq]
    exact sound_adopt ih fun codec loaded => Codec.sound_of_loadFrom (Prod.ext loaded rfl)
  | receiveDump before queue ih =>
    rw [receiveDump_eq]
    exact sound_adopt ih fun codec received => Codec.sound_of_receiveDump (Prod.ext received rfl)
  | encode before fields ih =>
    rw [encode_eq]
    exact ih
  | unpackFrom before queue ih =>
    obtain ⟨left, unpacked⟩ := unpackFrom_eq _ queue
    rw [unpacked]
    exact ih
  | acquire before run ih =>
    rw [EndpointPool.codec_acquire, EndpointPool.settings_of_run run]
    exact ih
  | acquireNew known opened run =>
    rw [EndpointPool.codec_acquire, EndpointPool.settings_of_run run,
      EndpointPool.settings_withIdleCapacity]
    exact sound_of_create known opened

/-- Every endpoint has a maximum that two bytes can say and a dictionary within its bound, in order
and without repetition. So the length in front of a frame is that of its body, and the maximum in
front of a dump is that of the endpoint. -/
theorem made_invariant (made : endpoint.Made) :
    (64 ≤ endpoint.codec.maxFrameSize ∧ endpoint.codec.maxFrameSize ≤ 65535) ∧
    endpoint.codec.dictionary.contentSize ≤ 32 * 1024 * 1024 ∧
    (∀ entry ∈ endpoint.codec.dictionary.entries,
      entry.name ≠ [] ∧ ∀ byte ∈ entry.name, ¬(65 ≤ byte ∧ byte ≤ 90)) ∧
    endpoint.codec.dictionary.entries.Nodup ∧
    (∀ before entry after, endpoint.codec.dictionary.entries = before ++ entry :: after →
      entry.value ≠ [] → .nameOnly entry.name ∈ before) ∧
    (∀ fields frame after, endpoint.encode fields = (.ok frame, after) →
      ∃ body, endpoint.codec.encodeBody fields = .ok body ∧ frame.drop 2 = body ∧
        Bytes.toNatLE (frame.take 2) = body.length) ∧
    Bytes.toNatLE (endpoint.codec.dump.take 2) = endpoint.codec.maxFrameSize := by
  have sound := made.sound
  refine ⟨⟨sound.min_le, sound.le_max⟩, sound.content_le, ?_, sound.registered.nodup, ?_, ?_, ?_⟩
  · intro entry listed
    obtain ⟨named, lower⟩ := sound.registered.name_normal listed
    exact ⟨named, Bytes.lower_eq_self_iff.mp lower⟩
  · intro before entry after listed pair
    exact sound.registered.nameOnly_mem_before listed pair
  · intro fields frame after encoded
    rw [encode_eq, Prod.mk.injEq] at encoded
    obtain ⟨body, packed, rfl⟩ := Outcome.map_eq_ok_iff.mp encoded.1
    have fits := (Codec.encodeBody_eq_ok_iff.mp packed).2.1
    have width : (Bytes.ofNatLE Limits.frameLengthSize body.length).length = 2 :=
      Bytes.length_ofNatLE _ _
    refine ⟨body, packed, List.drop_left' width, ?_⟩
    rw [Codec.frameOf, List.take_left' width]
    exact ByteQueue.toNatLE_opening (fits.trans sound.le_max)
  · have width : (Bytes.ofNatLE 2 endpoint.codec.maxFrameSize).length = 2 :=
      Bytes.length_ofNatLE _ _
    rw [Codec.dump, List.append_assoc, List.take_left' width]
    exact ByteQueue.toNatLE_opening sound.le_max

/-- A dump that no endpoint writes: it has a capital, no name alone, and one pair twice. -/
def foreignDump : Bytes := [64, 0, 8, 0, 0, 0, 2, 88, 2, 49, 2, 88, 2, 49]

def foreignPool : EndpointPool :=
  ((EndpointPool.ofEndpoint (default.load foreignDump).2).withIdleCapacity 1).release used

theorem made_invariant_foreign :
    let endpoint := foreignPool.acquire.1
    let fields : List Field := [⟨[88], [49]⟩, ⟨[120], [50]⟩]
    let frame : Bytes := [6, 0, 3, 1, 2, 0, 2, 50]
    endpoint.Made ∧
      endpoint.codec.dictionary.entries = [.nameOnly [120], ⟨[120], [49]⟩] ∧
      Field.nameOnly [120] ∈ [Field.nameOnly [120]] ∧
      endpoint.encode fields = (.ok frame, endpoint) ∧
      endpoint.codec.encodeBody fields = .ok (frame.drop 2) ∧
      Bytes.toNatLE (frame.take 2) = 6 ∧
      Bytes.toNatLE (endpoint.codec.dump.take 2) = 64 := by
  have encoded : foreignPool.acquire.1.encode [⟨[88], [49]⟩, ⟨[120], [50]⟩] =
      (.ok [6, 0, 3, 1, 2, 0, 2, 50], foreignPool.acquire.1) := by
    cbv
  intro endpoint fields frame
  have run : EndpointPool.lending.Run
      ((EndpointPool.ofEndpoint (default.load foreignDump).2).withIdleCapacity 1) [.released 1]
      foreignPool := .release rfl (.done foreignPool)
  have made : endpoint.Made := .acquire (.load .default foreignDump) run
  have loaded : endpoint.codec = ⟨64, ⟨[.nameOnly [120], ⟨[120], [49]⟩]⟩, .huffman⟩ := by
    cbv
  obtain ⟨-, -, -, -, introduced, announced, dump⟩ := made_invariant made
  obtain ⟨body, packed, rest, length⟩ := announced fields frame endpoint encoded
  rw [loaded] at introduced dump
  refine ⟨made, congrArg (·.dictionary.entries) loaded,
    introduced [.nameOnly [120]] ⟨[120], [49]⟩ [] rfl (by simp), encoded, ?_, ?_, ?_⟩
  · rw [rest, packed]
  · rw [length, ← rest]
    rfl
  · rw [loaded]
    exact dump

end Endpoint

end HeaderCodec
