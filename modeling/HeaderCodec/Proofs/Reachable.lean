import HeaderCodec.Codec.Setup
import HeaderCodec.Pool.Pools
import HeaderCodec.Proofs.Dictionary
import HeaderCodec.Proofs.Outcome
import HeaderCodec.Stream.Asynchronous
import HeaderCodec.Stream.Blocking

/-! What all codecs of a program have in common is that their settings passed the checks and that
their dictionary was registered; conversely every codec with these properties can be made. -/

namespace HeaderCodec

/-- One step in the life of a pool. Any codec may be put back, also one from elsewhere. -/
inductive CodecPool.Step : CodecPool → CodecPool → Prop
  | limit (pool : CodecPool) (maxIdle : Nat) : Step pool (pool.withIdleCapacity maxIdle)
  | acquire (pool : CodecPool) : Step pool pool.acquire.2
  | release (pool : CodecPool) (codec : Codec) : Step pool (pool.release codec)

namespace Codec

/-- Made by some sequence of operations. Sharing a codec gives an equal one, and the default pool
is that of the default codec, so neither needs a rule. -/
inductive Reachable : Codec → Prop
  | default : Reachable .default
  | build {setup : Setup} {codec : Codec} (built : setup.build = .ok codec) : Reachable codec
  | withDictionary {maxFrameSize : Nat} {fields : List Field} {codec : Codec}
    (made : Codec.withDictionary maxFrameSize (.ofFields fields) = .ok codec) : Reachable codec
  | withCoder {codec : Codec} (before : Reachable codec) (coder : Coder) :
    Reachable (codec.withCoder coder)
  | reset {codec : Codec} (before : Reachable codec) : Reachable codec.reset
  | load {codec after : Codec} {bytes : Bytes} (before : Reachable codec)
    (loaded : codec.load bytes = .ok after) : Reachable after
  | loadFrom {codec after : Codec} {queue rest : ByteQueue} (before : Reachable codec)
    (loaded : codec.loadFrom queue = (.ok after, rest)) : Reachable after
  | receiveDump {codec after : Codec} {queue rest : ByteQueue} (before : Reachable codec)
    (received : codec.receiveDump queue = (.ok after, rest)) : Reachable after
  | acquire {template : Codec} {pool : CodecPool} (before : Reachable template)
    (run : Relation.ReflTransGen CodecPool.Step (.ofCodec template) pool) :
    Reachable pool.acquire.1
  | acquireNew {maxFrameSize : Nat} {fields : List Field} {start pool : CodecPool}
    (made : CodecPool.create maxFrameSize (.ofFields fields) = .ok start)
    (run : Relation.ReflTransGen CodecPool.Step start pool) : Reachable pool.acquire.1

/-- The settings passed the checks, and the dictionary was registered. -/
structure Sound (codec : Codec) : Prop where
  min_le : Limits.minMaxFrameSize ≤ codec.maxFrameSize
  le_max : codec.maxFrameSize ≤ Limits.maxMaxFrameSize
  registered : Dictionary.Registered codec.dictionary.entries
  content_le : codec.dictionary.contentSize ≤ Limits.maxDictionaryContentSize

theorem checkMaxFrameSize_eq_ok_iff {size : Nat} {done : Unit} :
    checkMaxFrameSize size = .ok done ↔
      Limits.minMaxFrameSize ≤ size ∧ size ≤ Limits.maxMaxFrameSize := by
  unfold checkMaxFrameSize
  split <;> simp_all

theorem checkContent_eq_ok_iff {dictionary : Dictionary} {done : Unit} :
    checkContent dictionary = .ok done ↔
      dictionary.contentSize ≤ Limits.maxDictionaryContentSize := by
  unfold checkContent
  dsimp only
  split <;> simp_all

theorem DumpHeader.check_eq_ok_iff {header : DumpHeader} {done : Unit} :
    header.check = .ok done ↔
      (Limits.minMaxFrameSize ≤ header.maxFrameSize ∧
        header.maxFrameSize ≤ Limits.maxMaxFrameSize) ∧
      header.entriesLength ≤ Limits.maxDumpEntriesSize := by
  have section_ : header.checkEntriesLength = .ok done ↔
      header.entriesLength ≤ Limits.maxDumpEntriesSize := by
    unfold checkEntriesLength
    split <;> simp_all
  unfold check
  simp only [Outcome.bind_eq_ok_iff, Outcome.mapError_eq_ok_iff, checkMaxFrameSize_eq_ok_iff,
    section_, exists_const]

theorem sound_ofFields {maxFrameSize : Nat} {fields : List Field} {coder : Coder}
    (size : Limits.minMaxFrameSize ≤ maxFrameSize ∧ maxFrameSize ≤ Limits.maxMaxFrameSize)
    (content : (Dictionary.ofFields fields).contentSize ≤ Limits.maxDictionaryContentSize) :
    Sound ⟨maxFrameSize, .ofFields fields, coder⟩ :=
  ⟨size.1, size.2, Dictionary.registered_ofFields fields, content⟩

theorem sound_default : Sound .default :=
  ⟨by decide, by decide, .nil, by decide⟩

theorem withDictionary_eq_ok_iff {maxFrameSize : Nat} {dictionary : Dictionary} {codec : Codec} :
    withDictionary maxFrameSize dictionary = .ok codec ↔
      (Limits.minMaxFrameSize ≤ maxFrameSize ∧ maxFrameSize ≤ Limits.maxMaxFrameSize) ∧
      dictionary.contentSize ≤ Limits.maxDictionaryContentSize ∧
      ⟨maxFrameSize, dictionary, .huffman⟩ = codec := by
  unfold withDictionary
  simp only [Outcome.bind_eq_ok_iff, checkMaxFrameSize_eq_ok_iff, checkContent_eq_ok_iff,
    exists_const, pure, Except.pure, Except.ok.injEq]

theorem build_eq_ok_iff {setup : Setup} {codec : Codec} :
    setup.build = .ok codec ↔
      (Limits.minMaxFrameSize ≤ setup.maxFrameSize ∧
        setup.maxFrameSize ≤ Limits.maxMaxFrameSize) ∧
      setup.registrations.any Registration.isBlank = false ∧
      (Dictionary.ofFields (setup.registrations.flatMap Registration.fields)).contentSize ≤
        Limits.maxDictionaryContentSize ∧
      ⟨setup.maxFrameSize, .ofFields (setup.registrations.flatMap Registration.fields),
        setup.coder⟩ = codec := by
  unfold Setup.build Setup.dictionary
  cases blank : setup.registrations.any Registration.isBlank with
  | true => simp [Outcome.bind_eq_ok_iff]
  | false =>
    simp only [Bool.false_eq_true, if_false, Outcome.bind_eq_ok_iff,
      checkMaxFrameSize_eq_ok_iff, checkContent_eq_ok_iff, exists_const, true_and,
      pure, Except.pure, Except.ok.injEq, and_assoc, exists_and_left, exists_eq_left']

theorem sound_of_build {setup : Setup} {codec : Codec} (built : setup.build = .ok codec) :
    codec.Sound := by
  obtain ⟨size, -, content, rfl⟩ := build_eq_ok_iff.mp built
  exact sound_ofFields size content

theorem loadEntries_eq_ok_iff {codec after : Codec} {maxFrameSize : Nat} {entries : Bytes} :
    codec.loadEntries maxFrameSize entries = .ok after ↔
      ∃ fields, readEntries codec.coder [] (.ofSection entries) = .ok fields ∧
        (Dictionary.ofFields fields).contentSize ≤ Limits.maxDictionaryContentSize ∧
        ⟨maxFrameSize, .ofFields fields, codec.coder⟩ = after := by
  unfold loadEntries
  simp only [Outcome.bind_eq_ok_iff, Outcome.mapError_eq_ok_iff, checkContent_eq_ok_iff,
    exists_const, pure, Except.pure, Except.ok.injEq]

theorem sound_of_loadEntries {codec after : Codec} {maxFrameSize : Nat} {entries : Bytes}
    (size : Limits.minMaxFrameSize ≤ maxFrameSize ∧ maxFrameSize ≤ Limits.maxMaxFrameSize)
    (loaded : codec.loadEntries maxFrameSize entries = .ok after) : after.Sound := by
  obtain ⟨fields, -, content, rfl⟩ := loadEntries_eq_ok_iff.mp loaded
  exact sound_ofFields size content

theorem sound_of_load {codec after : Codec} {bytes : Bytes}
    (loaded : codec.load bytes = .ok after) : after.Sound := by
  unfold load at loaded
  dsimp only at loaded
  split at loaded
  · cases loaded
  obtain ⟨_, checked, loaded⟩ := Outcome.bind_eq_ok_iff.mp loaded
  split at loaded
  · cases loaded
  exact sound_of_loadEntries (DumpHeader.check_eq_ok_iff.mp checked).1 loaded

theorem sound_of_loadFrom {codec after : Codec} {queue rest : ByteQueue}
    (loaded : codec.loadFrom queue = (.ok after, rest)) : after.Sound := by
  unfold loadFrom at loaded
  split at loaded
  · cases loaded
  dsimp only at loaded
  split at loaded
  · cases loaded
  next checked =>
  split at loaded
  · cases loaded
  exact sound_of_loadEntries (DumpHeader.check_eq_ok_iff.mp checked).1 (congrArg Prod.fst loaded)

theorem sound_of_receiveDump {codec after : Codec} {queue rest : ByteQueue}
    (received : codec.receiveDump queue = (.ok after, rest)) : after.Sound := by
  unfold receiveDump at received
  split at received
  · cases received
  dsimp only at received
  split at received
  · cases received
  split at received
  · cases received
  exact sound_of_load (congrArg Prod.fst received)

end Codec

def CodecPool.settings (pool : CodecPool) : Codec :=
  ⟨pool.maxFrameSize, pool.dictionary, pool.coder⟩

@[simp] theorem CodecPool.acquire_fst (pool : CodecPool) : pool.acquire.1 = pool.settings := rfl

theorem CodecPool.Step.settings_eq {pool after : CodecPool} (step : Step pool after) :
    after.settings = pool.settings := by
  cases step <;> rfl

theorem CodecPool.settings_of_run {start pool : CodecPool}
    (run : Relation.ReflTransGen Step start pool) : pool.settings = start.settings := by
  induction run with
  | refl => rfl
  | tail _ step ih => rw [step.settings_eq, ih]

namespace Codec

theorem Reachable.sound {codec : Codec} (reachable : codec.Reachable) : codec.Sound := by
  induction reachable with
  | default => exact sound_default
  | build built => exact sound_of_build built
  | withDictionary made =>
    obtain ⟨size, content, rfl⟩ := withDictionary_eq_ok_iff.mp made
    exact sound_ofFields size content
  | withCoder _ coder ih => exact ⟨ih.min_le, ih.le_max, ih.registered, ih.content_le⟩
  | reset _ ih => exact ⟨ih.min_le, ih.le_max, .nil, Nat.zero_le _⟩
  | load _ loaded _ => exact sound_of_load loaded
  | loadFrom _ loaded _ => exact sound_of_loadFrom loaded
  | receiveDump _ received _ => exact sound_of_receiveDump received
  | acquire _ run ih =>
    rw [CodecPool.acquire_fst, CodecPool.settings_of_run run]
    exact ih
  | acquireNew made run =>
    obtain ⟨codec, built, rfl⟩ := Outcome.map_eq_ok_iff.mp made
    obtain ⟨size, content, rfl⟩ := withDictionary_eq_ok_iff.mp built
    rw [CodecPool.acquire_fst, CodecPool.settings_of_run run]
    exact sound_ofFields size content

/-- The checks and the registration are all that being reachable means. -/
theorem reachable_iff_sound {codec : Codec} : codec.Reachable ↔ codec.Sound := by
  constructor
  · exact Reachable.sound
  · intro sound
    obtain ⟨maxFrameSize, dictionary, coder⟩ := codec
    have entered : Dictionary.ofFields dictionary.entries = dictionary :=
      Dictionary.ofFields_entries sound.registered
    have made : Codec.withDictionary maxFrameSize (.ofFields dictionary.entries) =
        .ok ⟨maxFrameSize, dictionary, .huffman⟩ := by
      rw [entered]
      exact withDictionary_eq_ok_iff.mpr ⟨⟨sound.min_le, sound.le_max⟩, sound.content_le, rfl⟩
    exact (Reachable.withDictionary made).withCoder coder

def sample : Codec :=
  ⟨Limits.minMaxFrameSize, .ofFields [.nameOnly [120, 45], ⟨[120, 45, 116], [49]⟩], .huffman⟩

theorem reachable_sample : sample.Reachable := by
  have made : withDictionary Limits.minMaxFrameSize
      (.ofFields [.nameOnly [120, 45], ⟨[120, 45, 116], [49]⟩]) = .ok sample := rfl
  exact .withDictionary made

end Codec

end HeaderCodec
