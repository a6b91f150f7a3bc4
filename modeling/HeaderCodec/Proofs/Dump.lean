import HeaderCodec.Codec.Dump
import HeaderCodec.Frame.Encoding
import HeaderCodec.Proofs.Literal
import HeaderCodec.Proofs.Reachable

/-! The entries of a dump are a row of literals, two for each entry. Loading reads the row back and
registers it anew, which puts every entry at its old place. -/

namespace HeaderCodec.Codec

/-- An entry of a dump has a name. Its value may be empty. -/
inductive SpellsEntry (coder : Coder) : Bytes → Field → Prop
  | literals {front back name value : Bytes} (named : Literal.SpellsNonEmpty coder front name)
    (valued : Literal.Spells coder back value) : SpellsEntry coder (front ++ back) ⟨name, value⟩

theorem productive_spellsEntry (coder : Coder) : Reader.Productive (SpellsEntry coder) := by
  rintro bytes entry ⟨named, valued⟩ empty
  exact named.1.ne_nil (List.append_eq_nil_iff.mp empty).1

theorem recognizes_readEntry (coder : Coder) :
    Reader.Recognizes (readEntry coder) (SpellsEntry coder) := by
  have recognizes := Reader.recognizes_readLiteral coder
  intro before entry after
  unfold readEntry
  constructor
  · intro read
    split at read
    · cases read
    next name =>
    split at read
    · cases read
    next filled =>
    split at read
    · cases read
    next value =>
    cases read
    obtain ⟨front, named, first⟩ := (recognizes _ _ _).mp name
    obtain ⟨back, valued, second⟩ := (recognizes _ _ _).mp value
    exact ⟨_, .literals ⟨named, mt List.isEmpty_iff.mpr filled⟩ valued, first.append second⟩
  · rintro ⟨_, ⟨named, valued⟩, passes⟩
    obtain ⟨middle, first, second⟩ := passes.of_append
    have name := (recognizes _ _ _).mpr ⟨_, named.1, first⟩
    have value := (recognizes _ _ _).mpr ⟨_, valued, second⟩
    dsimp only at name value
    simp [name, value, named.2]

theorem repeats_readEntries (coder : Coder) :
    Reader.Repeats (readEntries coder) (readEntry coder) := by
  intro done reader
  rw [readEntries]
  split
  · rfl
  split
  next read =>
    rw [read]
    rfl
  next read =>
    dsimp only
    rw [read]
    rfl

theorem readEntries_eq_ok_iff {coder : Coder} {bytes : Bytes} {entries : List Field} :
    readEntries coder [] (.ofSection bytes) = .ok entries ↔
      Reader.Row (SpellsEntry coder) bytes entries := by
  rw [(recognizes_readEntry coder).loop_eq_ok_iff (productive_spellsEntry coder)
    (repeats_readEntries coder)]
  simp only [Reader.ofSection, List.reverse_nil, List.nil_append]
  constructor
  · rintro ⟨row, spelled, rfl⟩
    exact spelled
  · intro spelled
    exact ⟨entries, spelled, rfl⟩

section

variable {codec : Codec}

theorem spellsEntry_dumpEntry {reader : Coder} (crosses : Literal.Crosses codec.coder reader)
    {entry : Field} (named : entry.name ≠ [])
    (short : (codec.dumpEntry entry).length < 2 ^ 63) :
    SpellsEntry reader (codec.dumpEntry entry) entry := by
  rw [dumpEntry, List.length_append] at short
  have name := crosses entry.name (by omega)
  have value := crosses entry.value (by omega)
  exact .literals ⟨name, named⟩ value

theorem row_dumpEntries (sound : codec.Sound)
    (small : codec.dumpEntries.length ≤ Limits.maxDumpEntriesSize) {reader : Coder}
    (crosses : Literal.Crosses codec.coder reader) :
    Reader.Row (SpellsEntry reader) codec.dumpEntries codec.dictionary.entries := by
  have limit : Limits.maxDumpEntriesSize = 64 * 1024 * 1024 := rfl
  rw [dumpEntries_eq] at small ⊢
  have spelled : ∀ entry ∈ codec.dictionary.entries,
      SpellsEntry reader (codec.dumpEntry entry) (id entry) := by
    intro entry listed
    have part := Reader.length_le_flatMap listed codec.dumpEntry
    exact spellsEntry_dumpEntry crosses (sound.registered.name_normal listed).1 (by omega)
  have row := Reader.row_flatMap spelled
  rwa [List.map_id] at row

theorem take_dump (codec : Codec) : codec.dump.take Limits.dumpHeaderSize =
    Bytes.ofNatLE 2 codec.maxFrameSize ++ Bytes.ofNatLE 4 codec.dumpEntries.length :=
  List.take_left' (by simp [Limits.dumpHeaderSize])

theorem drop_dump (codec : Codec) :
    codec.dump.drop Limits.dumpHeaderSize = codec.dumpEntries :=
  List.drop_left' (by simp [Limits.dumpHeaderSize])

theorem ofBytes_header {maxFrameSize entriesLength : Nat} (size : maxFrameSize < 256 ^ 2)
    (entries : entriesLength < 256 ^ 4) :
    DumpHeader.ofBytes (Bytes.ofNatLE 2 maxFrameSize ++ Bytes.ofNatLE 4 entriesLength) =
      ⟨maxFrameSize, entriesLength⟩ := by
  have front : (Bytes.ofNatLE 2 maxFrameSize).length = 2 := Bytes.length_ofNatLE _ _
  have back : (Bytes.ofNatLE 4 entriesLength).length ≤ 4 :=
    Nat.le_of_eq (Bytes.length_ofNatLE _ _)
  rw [DumpHeader.ofBytes, List.take_left' front, List.drop_left' front,
    List.take_of_length_le back, Bytes.toNatLE_ofNatLE, Bytes.toNatLE_ofNatLE,
    Nat.mod_eq_of_lt size, Nat.mod_eq_of_lt entries]

theorem check_header (sound : codec.Sound)
    (small : codec.dumpEntries.length ≤ Limits.maxDumpEntriesSize) :
    DumpHeader.check ⟨codec.maxFrameSize, codec.dumpEntries.length⟩ = .ok () :=
  DumpHeader.check_eq_ok_iff.mpr ⟨⟨sound.min_le, sound.le_max⟩, small⟩

theorem ofBytes_take_dump (sound : codec.Sound)
    (small : codec.dumpEntries.length ≤ Limits.maxDumpEntriesSize) :
    DumpHeader.ofBytes (codec.dump.take Limits.dumpHeaderSize) =
      ⟨codec.maxFrameSize, codec.dumpEntries.length⟩ := by
  have size : codec.maxFrameSize < 256 ^ 2 := Nat.lt_succ_of_le sound.le_max
  have length : codec.dumpEntries.length < 256 ^ 4 := Nat.lt_of_le_of_lt small (by decide)
  rw [take_dump, ofBytes_header size length]

theorem length_take_dump (codec : Codec) :
    (codec.dump.take Limits.dumpHeaderSize).length = Limits.dumpHeaderSize := by
  rw [take_dump]
  simp [Limits.dumpHeaderSize]

theorem load_dump_eq (sound : codec.Sound)
    (small : codec.dumpEntries.length ≤ Limits.maxDumpEntriesSize) (other : Codec) :
    other.load codec.dump = other.loadEntries codec.maxFrameSize codec.dumpEntries := by
  rw [load, length_take_dump, if_neg (Nat.lt_irrefl _)]
  simp only [ofBytes_take_dump sound small, drop_dump, check_header sound small, Outcome.ok_bind,
    ne_eq, not_true_eq_false, if_false]

theorem loadEntries_of_crosses (sound : codec.Sound)
    (small : codec.dumpEntries.length ≤ Limits.maxDumpEntriesSize) {other : Codec}
    (crosses : Literal.Crosses codec.coder other.coder) :
    other.loadEntries codec.maxFrameSize codec.dumpEntries = .ok (codec.withCoder other.coder) := by
  have entries := readEntries_eq_ok_iff.mpr (row_dumpEntries sound small crosses)
  apply loadEntries_eq_ok_iff.mpr
  refine ⟨codec.dictionary.entries, entries, ?_, ?_⟩
  · rw [Dictionary.ofFields_entries sound.registered]
    exact sound.content_le
  · rw [Dictionary.ofFields_entries sound.registered]
    rfl

theorem loadEntries_dumpEntries (sound : codec.Sound)
    (small : codec.dumpEntries.length ≤ Limits.maxDumpEntriesSize) {other : Codec}
    (same : other.coder = codec.coder) :
    other.loadEntries codec.maxFrameSize codec.dumpEntries = .ok codec := by
  rw [loadEntries_of_crosses sound small (same ▸ Literal.crosses_self codec.coder), same]
  rfl

theorem load_dump (sound : codec.Sound)
    (small : codec.dumpEntries.length ≤ Limits.maxDumpEntriesSize) {other : Codec}
    (same : other.coder = codec.coder) : other.load codec.dump = .ok codec := by
  rw [load_dump_eq sound small, loadEntries_dumpEntries sound small same]

end

/-- A codec that loads a dump understands and is understood like the codec that wrote it. Nothing
remains of what it held before. -/
theorem load_dump_provisions {source target : Codec} (reachable : source.Reachable)
    (small : source.dumpEntries.length ≤ Limits.maxDumpEntriesSize)
    (same : target.coder = source.coder) :
    ∃ loaded, target.load source.dump = .ok loaded ∧
      loaded.maxFrameSize = source.maxFrameSize ∧
      (∀ index, loaded.dictionary.get? index = source.dictionary.get? index) ∧
      (∀ name value, loaded.dictionary.index name value = source.dictionary.index name value) ∧
      (∀ fields, loaded.encode fields = source.encode fields) ∧
      (∀ frame, loaded.decode frame = source.decode frame) ∧
      loaded.dump = source.dump := by
  refine ⟨source, load_dump reachable.sound small same, rfl, ?_, ?_, ?_, ?_, rfl⟩
  · intro index
    rfl
  · intro name value
    rfl
  · intro fields
    rfl
  · intro frame
    rfl

theorem load_dump_provisions_default :
    sample.Reachable ∧ sample.dumpEntries.length ≤ Limits.maxDumpEntriesSize ∧
      Codec.default.coder = sample.coder ∧
      ∃ loaded, Codec.default.load sample.dump = .ok loaded ∧
        loaded.dictionary.get? 2 = some ⟨[120, 45, 116], [49]⟩ := by
  have entries : sample.dumpEntries =
      [4, 120, 45, 0, 6, 120, 45, 116, 0, 6, 120, 45, 116, 2, 49] := by
    cbv
  have small : sample.dumpEntries.length ≤ Limits.maxDumpEntriesSize := by
    rw [entries]
    decide
  obtain ⟨loaded, provisioned, -, known, -⟩ :=
    load_dump_provisions reachable_sample small (rfl : Codec.default.coder = sample.coder)
  exact ⟨reachable_sample, small, rfl, loaded, provisioned, known 2⟩

end HeaderCodec.Codec
