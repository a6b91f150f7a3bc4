import HeaderCodec.Frame.Encoding
import HeaderCodec.Machine.Collector
import HeaderCodec.Proofs.Machine.Indexes
import HeaderCodec.Proofs.Setup

/-! A collector keeps what a setup that took the same calls would register, and the fault that it
would find. So what is built depends on the first occurrences of their fields alone. -/

namespace HeaderCodec

namespace Machine.Collector

variable {collector : Collector} {setup : Setup}

theorem foldl_value (key : Bytes) (values : List String) (collector : Collector) :
    values.foldl (value key) collector =
      { collector with
        fields := collector.fields ++
          ((values.map fun value => Bytes.ofText (Text.trim value)).filter (!·.isEmpty)).map
            fun value => ⟨key, value⟩ } := by
  induction values generalizing collector with
  | nil => simp
  | cons first rest ih =>
    rw [List.foldl_cons, ih, value, List.map_cons, List.filter_cons]
    split
    next blank => simp [blank]
    next filled => simp [filled, push]

/-- The collector keeps what the setup would register, up to blank names, and has found a fault if
there is one of these. -/
structure Tracks (collector : Collector) (setup : Setup) : Prop where
  maxFrameSize_eq : collector.maxFrameSize = setup.maxFrameSize
  coder_eq : collector.coder = setup.coder
  fields_eq : collector.fields =
    (setup.registrations.filter (!·.isBlank)).flatMap Registration.fields
  fault_eq : collector.fault =
    if setup.registrations.any Registration.isBlank then some .emptyFieldName else none

theorem tracks_empty : Tracks empty .empty :=
  ⟨rfl, rfl, rfl, rfl⟩

theorem Tracks.field (tracks : Tracks collector setup) (name : String) (values : List String) :
    Tracks (collector.field name values) (setup.field name values) := by
  unfold Collector.field Setup.field
  by_cases blank : Registration.isBlank ⟨name, values⟩ = true
  · have empty : (Bytes.ofText (Text.trim name)).lower.isEmpty = true := blank
    rw [if_pos empty]
    refine ⟨tracks.maxFrameSize_eq, tracks.coder_eq, ?_, ?_⟩
    · simp [blame, tracks.fields_eq, blank]
    · rw [blame, tracks.fault_eq, List.any_append]
      cases setup.registrations.any Registration.isBlank <;> simp [blank]
  · have filled : ¬(Bytes.ofText (Text.trim name)).lower.isEmpty = true := blank
    rw [if_neg filled, foldl_value]
    refine ⟨tracks.maxFrameSize_eq, tracks.coder_eq, ?_, ?_⟩
    · simp [push, tracks.fields_eq, blank, Registration.fields, Registration.key]
    · simp [push, tracks.fault_eq, blank]

theorem Tracks.perform (tracks : Tracks collector setup) (call : Setup.Call) :
    Tracks (collector.perform call) (setup.perform call) := by
  cases call with
  | maxFrameSize size => exact ⟨rfl, tracks.coder_eq, tracks.fields_eq, tracks.fault_eq⟩
  | coder coder => exact ⟨tracks.maxFrameSize_eq, rfl, tracks.fields_eq, tracks.fault_eq⟩
  | name name => exact tracks.field name []
  | field name values => exact tracks.field name values

theorem Tracks.foldl_perform (tracks : Tracks collector setup) (calls : List Setup.Call) :
    Tracks (calls.foldl Collector.perform collector) (calls.foldl Setup.perform setup) := by
  induction calls generalizing collector setup with
  | nil => exact tracks
  | cons call rest ih => exact ih (tracks.perform call)

theorem tracks_ofCalls (calls : List Setup.Call) : Tracks (ofCalls calls) (.ofCalls calls) :=
  tracks_empty.foldl_perform calls

theorem Tracks.build_eq (tracks : Tracks collector setup) : collector.build = setup.build := by
  unfold Collector.build Setup.build Collector.dictionary Setup.dictionary
  rw [tracks.maxFrameSize_eq, tracks.coder_eq, tracks.fault_eq]
  cases spoiled : setup.registrations.any Registration.isBlank with
  | true => rfl
  | false =>
    have filled : setup.registrations.filter (!·.isBlank) = setup.registrations := by
      rw [List.filter_eq_self]
      intro registration listed
      rw [Bool.not_eq_true', ← Bool.not_eq_true]
      exact List.any_eq_false.mp spoiled registration listed
    have plain : (IndexedDictionary.empty.load collector.fields).plain =
        Dictionary.ofFields (setup.registrations.flatMap Registration.fields) := by
      rw [IndexedDictionary.plain_load, Dictionary.load_eq, tracks.fields_eq, filled]
    simp only [Bool.false_eq_true, if_false, plain]
    cases Codec.checkMaxFrameSize setup.maxFrameSize with
    | error fault => rfl
    | ok done =>
      cases Codec.checkContent
          (.ofFields (setup.registrations.flatMap Registration.fields)) with
      | error fault => rfl
      | ok done =>
        simp only [Outcome.ok_bind, pure, Except.pure, plain]

end Machine.Collector

namespace Setup

variable {setup first second : Setup} {registration : Registration}

theorem registrations_foldl_perform (calls : List Call) (setup : Setup) :
    (calls.foldl perform setup).registrations =
      setup.registrations ++ calls.filterMap Call.registration? := by
  induction calls generalizing setup with
  | nil => simp
  | cons call rest ih =>
    rw [List.foldl_cons, ih]
    cases call <;>
      simp [perform, withMaxFrameSize, withCoder, name, field, Call.registration?,
        List.filterMap_cons]

theorem registrations_ofCalls (calls : List Call) :
    (ofCalls calls).registrations = calls.filterMap Call.registration? :=
  registrations_foldl_perform calls empty

theorem SameSettings.foldl_perform (same : SameSettings first second) (calls : List Call) :
    SameSettings (calls.foldl perform first) (calls.foldl perform second) := by
  induction calls generalizing first second with
  | nil => exact same
  | cons call rest ih =>
    apply ih
    cases call with
    | maxFrameSize size => exact ⟨rfl, same.coder_eq⟩
    | coder coder => exact ⟨same.maxFrameSize_eq, rfl⟩
    | name | field => exact ⟨same.maxFrameSize_eq, same.coder_eq⟩

theorem sameSettings_of_registration? {call : Call}
    (registers : call.registration? = some registration) (setup : Setup) :
    SameSettings (setup.perform call) setup := by
  cases call with
  | maxFrameSize | coder => cases registers
  | name | field => exact ⟨rfl, rfl⟩

/-- What is built from the calls of a program. A maximum that no frame may have is refused first,
then a blank name, then more content than a dictionary may have; otherwise the entries are the first
occurrences of what was registered. So calls with the same first occurrences build the same
codec. -/
theorem registrations_determine_codec :
    (∀ calls : List Call,
      let setup := ofCalls calls
      let registrations := calls.filterMap Call.registration?
      let entries := (registrations.flatMap Registration.fields).eraseDups
      let content := (entries.map Field.size).sum
      (setup.build =
        if ¬(64 ≤ setup.maxFrameSize ∧ setup.maxFrameSize ≤ 65535) then
          .error (.invalidMaxFrameSize setup.maxFrameSize)
        else if ∃ registration ∈ registrations, Text.trim registration.name = "" then
          .error .emptyFieldName
        else if 32 * 1024 * 1024 < content then
          .error (.dictionaryTooLarge (32 * 1024 * 1024) content)
        else .ok ⟨setup.maxFrameSize, ⟨entries⟩, setup.coder⟩) ∧
      (Machine.Collector.ofCalls calls).build = setup.build) ∧
    (∀ front call back registration, call.registration? = some registration →
      registration.fields ⊆ (front.filterMap Call.registration?).flatMap Registration.fields →
      (ofCalls (front ++ call :: back)).build = (ofCalls (front ++ back)).build) ∧
    ∀ calls calls', (ofCalls calls).maxFrameSize = (ofCalls calls').maxFrameSize →
      (ofCalls calls).coder = (ofCalls calls').coder →
      ((calls.filterMap Call.registration?).flatMap Registration.fields).eraseDups =
        ((calls'.filterMap Call.registration?).flatMap Registration.fields).eraseDups →
      (ofCalls calls).build = (ofCalls calls').build ∧
      ∀ codec codec', (ofCalls calls).build = .ok codec → (ofCalls calls').build = .ok codec' →
        ∀ fields, codec.encode fields = codec'.encode fields := by
  refine ⟨?_, ?_, ?_⟩
  · intro calls setup registrations entries content
    refine ⟨?_, (Machine.Collector.tracks_ofCalls calls).build_eq⟩
    have occurring : (setup.registrations.flatMap Registration.fields).eraseDups = entries := by
      rw [registrations_ofCalls]
    have blank : .nameOnly [] ∈ entries ↔
        ∃ registration ∈ registrations, Text.trim registration.name = "" := by
      rw [List.mem_eraseDups, ← Registration.any_isBlank_iff, List.any_eq_true]
      simp only [Registration.isBlank_iff]
    rw [build_eq occurring]
    simp only [blank]
    rfl
  · intro front call back registration registers known
    have settings : SameSettings (ofCalls (front ++ call :: back)) (ofCalls (front ++ back)) := by
      rw [ofCalls, ofCalls, List.foldl_append, List.foldl_append, List.foldl_cons]
      exact (sameSettings_of_registration? registers _).foldl_perform back
    apply settings.build_congr
    rw [registrations_ofCalls, registrations_ofCalls, List.filterMap_append,
      List.filterMap_append, List.filterMap_cons_some registers, List.flatMap_append,
      List.flatMap_append, List.flatMap_cons]
    exact Dictionary.eraseDups_append_of_subset known _
  · intro calls calls' maxFrameSize coder same
    have built : (ofCalls calls).build = (ofCalls calls').build := by
      apply SameSettings.build_congr ⟨maxFrameSize, coder⟩
      rw [registrations_ofCalls, registrations_ofCalls, same]
    refine ⟨built, ?_⟩
    intro codec codec' first second fields
    rw [first, second] at built
    cases built
    rfl

theorem registrations_determine_codec_repeated :
    let front : List Call := [.name "x", .field "y" ["1 ", "2"]]
    let again : Call := .field " Y" ["\t", " 1"]
    again.registration? = some ⟨" Y", ["\t", " 1"]⟩ ∧
      Registration.fields ⟨" Y", ["\t", " 1"]⟩ ⊆
        (front.filterMap Call.registration?).flatMap Registration.fields ∧
      (ofCalls (front ++ again :: [.name "z"])).build =
        .ok ⟨8192, ⟨[.nameOnly [120], .nameOnly [121], ⟨[121], [49]⟩, ⟨[121], [50]⟩,
          .nameOnly [122]]⟩, .huffman⟩ := by
  intro front again
  have first : (front.filterMap Call.registration?).flatMap Registration.fields =
      [.nameOnly [120], .nameOnly [121], ⟨[121], [49]⟩, ⟨[121], [50]⟩] := by
    simp only [front, List.filterMap_cons, List.filterMap_nil, Call.registration?,
      List.flatMap_cons, List.flatMap_nil, Registration.fields, Registration.key, Text.trim_eq]
    decide +kernel
  have repeated : Registration.fields ⟨" Y", ["\t", " 1"]⟩ = [.nameOnly [121], ⟨[121], [49]⟩] := by
    simp only [Registration.fields, Registration.key, Text.trim_eq]
    decide +kernel
  have last : ([.name "z"].filterMap Call.registration?).flatMap Registration.fields =
      [.nameOnly [122]] := by
    simp only [List.filterMap_cons, List.filterMap_nil, Call.registration?, List.flatMap_cons,
      List.flatMap_nil, Registration.fields, Registration.key, Text.trim_eq]
    decide +kernel
  have known : Registration.fields ⟨" Y", ["\t", " 1"]⟩ ⊆
      (front.filterMap Call.registration?).flatMap Registration.fields := by
    rw [first, repeated]
    decide
  refine ⟨rfl, known, ?_⟩
  have occurring : ((ofCalls (front ++ [.name "z"])).registrations.flatMap
      Registration.fields).eraseDups = [.nameOnly [120], .nameOnly [121], ⟨[121], [49]⟩,
        ⟨[121], [50]⟩, .nameOnly [122]] := by
    rw [registrations_ofCalls, List.filterMap_append, List.flatMap_append, first,
      last]
    decide
  rw [registrations_determine_codec.2.1 front again [.name "z"] _ rfl known, build_eq occurring]
  decide

end Setup

end HeaderCodec
