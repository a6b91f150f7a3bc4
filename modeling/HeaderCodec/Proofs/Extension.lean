import HeaderCodec.Header.Vocabulary
import HeaderCodec.Proofs.Lookup
import HeaderCodec.Proofs.RoundTrip

/-! What is registered later is entered behind what was there before. Old frames refer to places
only, so a codec over the larger dictionary reads them as before. -/

namespace HeaderCodec

namespace Dictionary

/-- The entries of another dictionary stand at their old places, in front of any others. -/
def Extends (later earlier : Dictionary) : Prop :=
  earlier.entries <+: later.entries

variable {earlier later : Dictionary}

theorem prefix_register (entries : List Field) (field : Field) :
    entries <+: register entries field := by
  by_cases empty : field.name = []
  · rw [register, if_pos (List.isEmpty_iff.mpr empty)]
  · rw [register_of_ne_nil empty]
    exact (prefix_enter _ _).trans (prefix_enter _ _)

theorem prefix_foldl_register (entries fields : List Field) :
    entries <+: fields.foldl register entries := by
  induction fields generalizing entries with
  | nil => exact List.prefix_rfl
  | cons field rest ih => exact (prefix_register entries field).trans (ih _)

theorem extends_ofFields_append (fields more : List Field) :
    (ofFields (fields ++ more)).Extends (ofFields fields) := by
  rw [Extends, ofFields, ofFields, List.foldl_append]
  exact prefix_foldl_register _ _

theorem Extends.get? (extended : later.Extends earlier) {index : Nat} {entry : Field}
    (known : earlier.get? index = some entry) : later.get? index = some entry := by
  obtain ⟨more, whole⟩ := extended
  obtain ⟨inside, -⟩ := List.getElem?_eq_some_iff.mp known
  rw [Dictionary.get?, ← whole, List.getElem?_append_left inside]
  exact known

theorem Extends.idxOf? (extended : later.Extends earlier) {index : Nat} {entry : Field}
    (known : earlier.entries.idxOf? entry = some index) :
    later.entries.idxOf? entry = some index := by
  obtain ⟨more, whole⟩ := extended
  rw [List.idxOf?] at known ⊢
  rw [← whole, List.findIdx?_append, known, Option.some_or]

theorem Extends.nameIndex? (extended : later.Extends earlier) {name value : Bytes} {index : Nat}
    (found : (earlier.index name value).nameIndex? = some index) :
    (later.index name value).nameIndex? = some index := by
  rw [nameIndex?_index_eq_some_iff] at found ⊢
  exact ⟨found.1, extended.idxOf? found.2⟩

theorem Extends.pairIndex? (extended : later.Extends earlier) {name value : Bytes} {index : Nat}
    (found : (earlier.index name value).pairIndex? = some index) :
    (later.index name value).pairIndex? = some index := by
  rw [pairIndex?_index_eq_some_iff] at found ⊢
  obtain ⟨⟨named, nameIndex, known⟩, filled, pair⟩ := found
  exact ⟨⟨named, nameIndex, extended.idxOf? known⟩, filled, extended.idxOf? pair⟩

end Dictionary

namespace Codec

variable {earlier later : Codec} {fields : List Field}

theorem Spells.extend (extended : later.dictionary.Extends earlier.dictionary)
    (same : later.coder = earlier.coder) {bytes : Bytes} {field : Field}
    (spelled : earlier.Spells bytes field) : later.Spells bytes field := by
  cases spelled with
  | literal named valued =>
    rw [← same] at named valued
    exact .literal named valued
  | nameReference referred known nameOnly valued =>
    rw [← same] at valued
    exact .nameReference referred (extended.get? known) nameOnly valued
  | indexed referred known pair => exact .indexed referred (extended.get? known) pair

theorem decodeBody_of_extends (extended : later.dictionary.Extends earlier.dictionary)
    (same : later.coder = earlier.coder) {body : Bytes}
    (fits : body.length ≤ later.maxFrameSize) (decoded : earlier.decodeBody body = .ok fields) :
    later.decodeBody body = .ok fields := by
  rw [decodeBody_eq_ok_iff] at decoded ⊢
  obtain ⟨-, pieces, flat, spelled⟩ := decoded
  exact ⟨fits, pieces, flat, spelled.imp fun _ _ => Spells.extend extended same⟩

theorem decode_of_extends (extended : later.dictionary.Extends earlier.dictionary)
    (same : later.coder = earlier.coder) {frame : Bytes}
    (fits : frame.length ≤ Limits.frameLengthSize + later.maxFrameSize)
    (decoded : earlier.decode frame = .ok fields) : later.decode frame = .ok fields := by
  rw [decode_eq_ok_iff] at decoded ⊢
  obtain ⟨body, rfl, sayable, decoded⟩ := decoded
  rw [length_frameOf] at fits
  exact ⟨body, rfl, sayable, decodeBody_of_extends extended same (by omega) decoded⟩

end Codec

namespace Setup

inductive Step : Setup → Setup → Prop
  | withMaxFrameSize (setup : Setup) (size : Nat) : Step setup (setup.withMaxFrameSize size)
  | withCoder (setup : Setup) (coder : Coder) : Step setup (setup.withCoder coder)
  | name (setup : Setup) (name : String) : Step setup (setup.name name)
  | field (setup : Setup) (name : String) (values : List String) :
    Step setup (setup.field name values)

theorem Step.registrations_prefix {setup after : Setup} (step : Step setup after) :
    setup.registrations <+: after.registrations := by
  cases step with
  | withMaxFrameSize | withCoder => exact List.prefix_rfl
  | name | field => exact List.prefix_append _ _

theorem registrations_prefix_of_run {start setup : Setup}
    (run : Relation.ReflTransGen Step start setup) :
    start.registrations <+: setup.registrations := by
  induction run with
  | refl => exact List.prefix_rfl
  | tail _ step ih => exact ih.trans step.registrations_prefix

theorem extends_of_run {start setup : Setup} {codec : Codec}
    (run : Relation.ReflTransGen Step start setup) (built : setup.build = .ok codec) :
    codec.dictionary.Extends (.ofFields (start.registrations.flatMap Registration.fields)) := by
  obtain ⟨more, whole⟩ := registrations_prefix_of_run run
  obtain ⟨-, -, -, rfl⟩ := Codec.build_eq_ok_iff.mp built
  rw [← whole, List.flatMap_append]
  exact Dictionary.extends_ofFields_append _ _

end Setup

theorem Header.fields_vocabulary : vocabulary.flatMap Registration.fields =
    Attribute.all.flatMap fun key =>
      .nameOnly key.name :: key.commonValues.map fun value => ⟨key.name, Bytes.ofText value⟩ := by
  simp only [vocabulary, Attribute.all, List.map_cons, List.map_nil, List.flatMap_cons,
    List.flatMap_nil, Registration.fields, Registration.key, Text.trim_eq]
  decide +kernel

namespace Codec

/-- Registering more fields leaves the entries of a dictionary and what was found in it where they
are. A codec over the larger dictionary accepts every frame that was accepted before, with the same
fields. -/
theorem extension_keeps_frames_readable :
    (∀ (fields more : List Field) (earlier later : Codec),
      earlier.dictionary = .ofFields fields → later.dictionary = .ofFields (fields ++ more) →
      earlier.dictionary.entries <+: later.dictionary.entries ∧
      (∀ name value index, (earlier.dictionary.index name value).nameIndex? = some index →
        (later.dictionary.index name value).nameIndex? = some index) ∧
      (∀ name value index, (earlier.dictionary.index name value).pairIndex? = some index →
        (later.dictionary.index name value).pairIndex? = some index) ∧
      (later.coder = earlier.coder →
        (∀ body decoded, body.length ≤ later.maxFrameSize →
          earlier.decodeBody body = .ok decoded → later.decodeBody body = .ok decoded) ∧
        ∀ frame decoded, frame.length ≤ Limits.frameLengthSize + later.maxFrameSize →
          earlier.decode frame = .ok decoded → later.decode frame = .ok decoded)) ∧
    (∀ (setup : Setup) (earlier later : Codec),
      Relation.ReflTransGen Setup.Step Header.setup setup → setup.build = .ok later →
      earlier.Reachable → earlier.dictionary = Header.builtinDictionary →
      later.coder = earlier.coder →
      ∀ packed frame, earlier.encode packed = .ok frame →
        frame.length ≤ Limits.frameLengthSize + later.maxFrameSize →
        earlier.decode frame = .ok (packed.map Header.builtinDictionary.canonical) ∧
          later.decode frame = .ok (packed.map Header.builtinDictionary.canonical)) := by
  constructor
  · intro fields more earlier later opened grown
    have extended : later.dictionary.Extends earlier.dictionary := by
      rw [opened, grown]
      exact Dictionary.extends_ofFields_append fields more
    refine ⟨extended, fun _ _ _ => extended.nameIndex?, fun _ _ _ => extended.pairIndex?, ?_⟩
    intro same
    constructor
    · intro body decoded fits
      exact decodeBody_of_extends extended same fits
    · intro frame decoded fits
      exact decode_of_extends extended same fits
  · intro setup earlier later run built reachable builtin same packed frame encoded fits
    have extended : later.dictionary.Extends earlier.dictionary := by
      rw [builtin]
      exact Setup.extends_of_run run built
    have decoded := decode_of_encode reachable.sound encoded
    rw [builtin] at decoded
    exact ⟨decoded, decode_of_extends extended same fits decoded⟩

theorem extension_keeps_frames_readable_registered :
    let earlier : Codec := ⟨64, Header.builtinDictionary, .huffman⟩
    let more : List Field := [.nameOnly [120, 45, 116], ⟨[120, 45, 116], [49]⟩]
    earlier.Reachable ∧
      earlier.encode [⟨Bytes.ofText "Content-Encoding", Bytes.ofText "snappy"⟩] =
        .ok [2, 0, 3, 6] ∧
      ∃ later, (Header.setup.field "X-T " [" 1"]).build = .ok later ∧
        later.dictionary = .ofFields (Header.vocabulary.flatMap Registration.fields ++ more) ∧
        (later.dictionary.index Attribute.contentEncoding.name (Bytes.ofText "snappy")).pairIndex? =
          some 6 ∧
        later.decode [2, 0, 3, 6] =
          .ok [⟨Attribute.contentEncoding.name, Bytes.ofText "snappy"⟩] := by
  intro earlier more
  have builtin : earlier.dictionary = .ofFields (Header.vocabulary.flatMap Registration.fields) :=
    rfl
  have added : Registration.fields ⟨"X-T ", [" 1"]⟩ = more := by
    simp only [Registration.fields, Registration.key, Text.trim_eq]
    decide +kernel
  have grown : (Header.setup.field "X-T " [" 1"]).registrations.flatMap Registration.fields =
      Header.vocabulary.flatMap Registration.fields ++ more := by
    rw [← added, ← List.flatMap_singleton Registration.fields, ← List.flatMap_append]
    rfl
  have named : (Header.setup.field "X-T " [" 1"]).registrations.any Registration.isBlank =
      false := by
    simp only [Header.setup, Setup.field, Header.vocabulary, Attribute.all, List.map_cons,
      List.map_nil, List.any_append, List.any_cons, List.any_nil, Registration.isBlank,
      Registration.key, Text.trim_eq]
    decide +kernel
  have reachable : earlier.Reachable := by
    refine .withDictionary (Codec.withDictionary_eq_ok_iff.mpr ⟨by decide, ?_, rfl⟩)
    rw [Header.fields_vocabulary]
    decide +kernel
  have encoded : earlier.encode [⟨Bytes.ofText "Content-Encoding", Bytes.ofText "snappy"⟩] =
      .ok [2, 0, 3, 6] := by
    simp only [earlier, Header.builtinDictionary, Header.fields_vocabulary]
    decide +kernel
  have built : (Header.setup.field "X-T " [" 1"]).build = .ok ⟨Limits.defaultMaxFrameSize,
      .ofFields (Header.vocabulary.flatMap Registration.fields ++ more), .huffman⟩ := by
    refine build_eq_ok_iff.mpr ⟨by decide, named, ?_, by rw [grown]; rfl⟩
    rw [grown, Header.fields_vocabulary]
    decide +kernel
  have run : Relation.ReflTransGen Setup.Step Header.setup (Header.setup.field "X-T " [" 1"]) :=
    .single (.field _ _ _)
  obtain ⟨-, -, pairs, -⟩ := extension_keeps_frames_readable.1 _ more earlier
    ⟨Limits.defaultMaxFrameSize, _, .huffman⟩ builtin rfl
  obtain ⟨-, decoded⟩ := extension_keeps_frames_readable.2 _ earlier _ run built reachable rfl rfl
    _ _ encoded (by decide)
  refine ⟨reachable, encoded, _, built, rfl, pairs _ _ _ ?_, ?_⟩
  · rw [builtin, Header.fields_vocabulary]
    decide +kernel
  · rw [decoded, Header.builtinDictionary, Header.fields_vocabulary]
    decide +kernel

end Codec

end HeaderCodec
