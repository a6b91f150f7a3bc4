import HeaderCodec.Proofs.DumpSize
import HeaderCodec.Proofs.RoundTrip

/-! Codecs that differ in their coders alone write the same indexes and differ in their literals. A
literal that was not coded is read with every coder, and a coded one is never longer. -/

namespace HeaderCodec

namespace Codec

def uncoded (codec : Codec) : Codec :=
  codec.withCoder .passthrough

variable (codec : Codec)

theorem length_encodeField_le_uncoded (field : Field) :
    (codec.encodeField field).length ≤ (codec.uncoded.encodeField field).length := by
  have name := Literal.length_encode_le_passthrough codec.coder field.name
  have value := Literal.length_encode_le_passthrough codec.coder field.value
  unfold encodeField
  rw [uncoded, withCoder]
  dsimp only
  split
  · exact Nat.le_refl _
  · simp only [List.length_cons, List.length_append]
    omega
  · simp only [List.length_cons, List.length_append]
    omega

theorem length_dumpEntries_le_uncoded :
    codec.dumpEntries.length ≤ codec.uncoded.dumpEntries.length := by
  rw [dumpEntries_eq, dumpEntries_eq]
  refine Bytes.length_flatMap_le _ fun entry => ?_
  rw [dumpEntry, dumpEntry, List.length_append, List.length_append]
  exact Nat.add_le_add (Literal.length_encode_le_passthrough _ _)
    (Literal.length_encode_le_passthrough _ _)

theorem length_dump : codec.dump.length = Limits.dumpHeaderSize + codec.dumpEntries.length := by
  rw [dump, List.length_append, List.length_append, Bytes.length_ofNatLE, Bytes.length_ofNatLE,
    Limits.dumpHeaderSize]

variable {codec}

theorem encode_of_uncoded {fields : List Field} {frame : Bytes}
    (encoded : codec.uncoded.encode fields = .ok frame) :
    ∃ shorter, codec.encode fields = .ok shorter ∧ shorter.length ≤ frame.length := by
  obtain ⟨complete, fits, rfl⟩ := encode_eq_ok_iff.mp encoded
  have shorter := Bytes.length_flatMap_le fields codec.length_encodeField_le_uncoded
  refine ⟨_, encode_eq_ok_iff.mpr ⟨complete, Nat.le_trans shorter fits, rfl⟩, ?_⟩
  rw [length_frameOf, length_frameOf]
  exact Nat.add_le_add_left shorter _

theorem Sound.uncoded (sound : codec.Sound) : codec.uncoded.Sound :=
  ⟨sound.min_le, sound.le_max, sound.registered, sound.content_le⟩

/-- Of two codecs that differ in their coders alone, the one that codes packs whatever the other
packs, into no more bytes. It finds the same in both frames, and learns the same from both dumps. -/
theorem coding_transparent {maxFrameSize : Nat}
    (valid : Limits.minMaxFrameSize ≤ maxFrameSize ∧ maxFrameSize ≤ Limits.maxMaxFrameSize)
    (prior : Dictionary) (registrations : List Field)
    (content : (prior.load registrations).contentSize ≤ Limits.maxDictionaryContentSize) :
    let coded : Codec := ⟨maxFrameSize, prior.load registrations, .huffman⟩
    let plain : Codec := ⟨maxFrameSize, prior.load registrations, .passthrough⟩
    (∀ fields frame, plain.encode fields = .ok frame →
      ∃ shorter found, coded.encode fields = .ok shorter ∧ shorter.length ≤ frame.length ∧
        plain.decode frame = .ok found ∧ coded.decode frame = .ok found ∧
        coded.decode shorter = .ok found) ∧
    coded.dump.length ≤ plain.dump.length ∧
    plain.dumpEntries.length ≤ Limits.maxDumpEntriesSize ∧
    ∀ target : Codec, target.coder = .huffman →
      ∃ loaded, target.load coded.dump = .ok loaded ∧ target.load plain.dump = .ok loaded ∧
        loaded.maxFrameSize = maxFrameSize ∧ loaded.dictionary = prior.load registrations := by
  intro coded plain
  have sound : coded.Sound := sound_ofFields valid content
  have plainSound : plain.Sound := sound.uncoded
  have crosses (reader : Coder) : Literal.Crosses plain.coder reader :=
    Literal.crosses_passthrough reader
  have small := sound.length_dumpEntries_le
  have plainSmall := plainSound.length_dumpEntries_le
  refine ⟨?_, ?_, plainSmall, ?_⟩
  · intro fields frame encoded
    have unpacked : coded.uncoded.encode fields = .ok frame := encoded
    obtain ⟨shorter, again, le⟩ := encode_of_uncoded unpacked
    exact ⟨shorter, _, again, le, decode_of_encode plainSound encoded,
      decode_withCoder_of_encode plainSound (crosses .huffman) encoded,
      decode_of_encode sound again⟩
  · rw [length_dump, length_dump]
    exact Nat.add_le_add_left coded.length_dumpEntries_le_uncoded _
  · intro target same
    refine ⟨coded, load_dump sound small same, ?_, rfl, rfl⟩
    rw [load_dump_eq plainSound plainSmall,
      loadEntries_of_crosses plainSound plainSmall (crosses target.coder), same]
    rfl

theorem coding_transparent_shorter :
    let dictionary := Dictionary.empty.load [.nameOnly [120, 45]]
    let coded : Codec := ⟨64, dictionary, .huffman⟩
    let frame : Bytes := [6, 0, 2, 0, 6, 97, 97, 97]
    dictionary.contentSize ≤ Limits.maxDictionaryContentSize ∧
      Codec.encode ⟨64, dictionary, .passthrough⟩ [⟨[88, 45], [97, 97, 97]⟩] = .ok frame ∧
      coded.decode frame = .ok [⟨[120, 45], [97, 97, 97]⟩] ∧
      coded.encode [⟨[88, 45], [97, 97, 97]⟩] = .ok [5, 0, 2, 0, 5, 24, 199] ∧
      coded.decode [5, 0, 2, 0, 5, 24, 199] = .ok [⟨[120, 45], [97, 97, 97]⟩] := by
  intro dictionary coded frame
  have valid : Limits.minMaxFrameSize ≤ 64 ∧ 64 ≤ Limits.maxMaxFrameSize := by decide
  have content : dictionary.contentSize ≤ Limits.maxDictionaryContentSize := by decide
  have encoded : Codec.encode ⟨64, dictionary, .passthrough⟩ [⟨[88, 45], [97, 97, 97]⟩] =
      .ok frame := by
    cbv
  have again : coded.encode [⟨[88, 45], [97, 97, 97]⟩] = .ok [5, 0, 2, 0, 5, 24, 199] := by
    cbv
  have decoded : Codec.decode ⟨64, dictionary, .passthrough⟩ frame =
      .ok [⟨[120, 45], [97, 97, 97]⟩] := by
    decide +kernel
  obtain ⟨frames, -, -, -⟩ := coding_transparent valid .empty [.nameOnly [120, 45]] content
  obtain ⟨shorter, found, packed, -, same, fromPlain, fromCoded⟩ := frames _ _ encoded
  obtain rfl := Except.ok.inj (decoded.symm.trans same)
  obtain rfl := Except.ok.inj (again.symm.trans packed)
  exact ⟨content, encoded, fromPlain, again, fromCoded⟩

end Codec

end HeaderCodec
