import HeaderCodec.Proofs.Dump

/-! Single entries may grow to three times their size. They can be counted, though, since an entry
list has no repetition, and what every longer field leaves unused is more than enough for them. -/

namespace HeaderCodec

namespace Field

/-- The two prefixes of a short field weigh more than the proportion of 5 to 3 allows. -/
def isShort (field : Field) : Bool := field.size ≤ 2

theorem isShort_iff {field : Field} :
    field.isShort = true ↔ field.name.length + field.value.length ≤ 2 :=
  decide_eq_true_iff

/-- A short field in a finite type: where its name ends, and its bytes. -/
def shortKey (field : Field) : Fin 3 × Option (Fin 256) × Option (Fin 256) :=
  let content := (field.name ++ field.value).map UInt8.toFin
  (Fin.ofNat 3 field.name.length, content[0]?, content[1]?)

theorem eq_of_shortKey_eq {field other : Field} (short : field.isShort) (short' : other.isShort)
    (same : field.shortKey = other.shortKey) : field = other := by
  rw [isShort_iff] at short short'
  simp only [shortKey, Prod.mk.injEq] at same
  obtain ⟨place, first, second⟩ := same
  have length : field.name.length = other.name.length := by
    have := congrArg Fin.val place
    simp only [Fin.ofNat] at this
    omega
  have content : field.name ++ field.value = other.name ++ other.value := by
    apply List.map_injective_iff.mpr UInt8.toFin_injective
    apply List.ext_getElem?
    rintro (_ | _ | index)
    · exact first
    · exact second
    · rw [List.getElem?_eq_none (by simp only [List.length_map, List.length_append]; omega),
        List.getElem?_eq_none (by simp only [List.length_map, List.length_append]; omega)]
  obtain ⟨name, value⟩ := List.append_inj content length
  exact congrArg₂ Field.mk name value

end Field

theorem countP_isShort_le {entries : List Field} (nodup : entries.Nodup) :
    entries.countP Field.isShort ≤ 3 * 257 * 257 := by
  rw [List.countP_eq_length_filter, ← List.length_map Field.shortKey]
  have distinct : ((entries.filter Field.isShort).map Field.shortKey).Nodup := by
    apply List.Nodup.map_on _ (nodup.filter _)
    intro field listed other listed' same
    exact Field.eq_of_shortKey_eq (List.mem_filter.mp listed).2 (List.mem_filter.mp listed').2 same
  have counted := distinct.length_le_card
  simpa using counted

namespace Codec

variable (codec : Codec)

/-- A literal grows by a byte and hardly more, so three bytes of content make five in a dump as
soon as there are three. -/
theorem length_dumpEntry_le {entry : Field} (named : entry.name ≠ []) :
    3 * (codec.dumpEntry entry).length ≤ 5 * entry.size + 4 * (if entry.isShort then 1 else 0) := by
  have filled := List.length_pos_iff.mpr named
  have name := Literal.length_encode_le codec.coder entry.name
  have value := Literal.length_encode_le codec.coder entry.value
  rw [dumpEntry, List.length_append]
  simp only [Field.isShort_iff, Field.size]
  split <;> omega

example : (codec.dumpEntry (.nameOnly [97])).length = 3 * (Field.nameOnly [97]).size := by
  cases coder : codec.coder <;> simp [dumpEntry, coder] <;> cbv

theorem length_flatMap_dumpEntry_le {entries : List Field}
    (named : ∀ entry ∈ entries, entry.name ≠ []) :
    3 * (entries.flatMap codec.dumpEntry).length ≤
      5 * (entries.map Field.size).sum + 4 * entries.countP Field.isShort := by
  induction entries with
  | nil => simp
  | cons entry rest ih =>
    have first := codec.length_dumpEntry_le (named entry List.mem_cons_self)
    have others := ih fun entry listed => named entry (List.mem_cons_of_mem _ listed)
    rw [List.flatMap_cons, List.length_append, List.map_cons, List.sum_cons, List.countP_cons]
    omega

variable {codec : Codec}

theorem Sound.length_dumpEntries_le (sound : codec.Sound) :
    codec.dumpEntries.length ≤ Limits.maxDumpEntriesSize := by
  have total := codec.length_flatMap_dumpEntry_le fun entry listed =>
    (sound.registered.name_normal listed).1
  have short := countP_isShort_le sound.registered.nodup
  have content := sound.content_le
  rw [Dictionary.contentSize_eq_sum] at content
  -- Five thirds of 32 MiB leave 10 MiB of the 64, and the short entries need less than one.
  rw [Limits.maxDictionaryContentSize] at content
  rw [dumpEntries_eq, Limits.maxDumpEntriesSize]
  omega

theorem readOver_dump (codec : Codec) (transport : Transport) (rest : Bytes)
    (capacity : Option Nat) :
    ByteQueue.readOver transport ⟨codec.dump ++ rest, capacity⟩ Limits.dumpHeaderSize =
      (.ok (codec.dump.take Limits.dumpHeaderSize), ⟨codec.dumpEntries ++ rest, capacity⟩) := by
  have opened := ByteQueue.readOver_length_append transport capacity
    (codec.dump.take Limits.dumpHeaderSize) (codec.dumpEntries ++ rest)
  rwa [length_take_dump, ← List.append_assoc, ← drop_dump, List.take_append_drop, drop_dump]
    at opened

theorem loadFrom_dump (sound : codec.Sound) (other : Codec) (rest : Bytes)
    (capacity : Option Nat) : other.loadFrom ⟨codec.dump ++ rest, capacity⟩ =
      (other.loadEntries codec.maxFrameSize codec.dumpEntries, ⟨rest, capacity⟩) := by
  have small := sound.length_dumpEntries_le
  rw [loadFrom, readOver_dump]
  simp only [ofBytes_take_dump sound small, check_header sound small,
    ByteQueue.readOver_length_append]

theorem receiveDump_dump (sound : codec.Sound) (other : Codec) (rest : Bytes)
    (capacity : Option Nat) : other.receiveDump ⟨codec.dump ++ rest, capacity⟩ =
      (other.loadEntries codec.maxFrameSize codec.dumpEntries, ⟨rest, capacity⟩) := by
  have small := sound.length_dumpEntries_le
  have accepted : DumpHeader.checkEntriesLength ⟨codec.maxFrameSize, codec.dumpEntries.length⟩ =
      .ok () := if_pos small
  have whole : codec.dump.take Limits.dumpHeaderSize ++ codec.dumpEntries = codec.dump := by
    rw [← drop_dump, List.take_append_drop]
  rw [receiveDump, readOver_dump]
  simp only [ofBytes_take_dump sound small, accepted, ByteQueue.readOver_length_append, whole,
    load_dump_eq sound small]

theorem readLiteral_ne_invalidDump (reader : Reader) (coder : Coder) (fault : DumpFault) :
    reader.readLiteral coder ≠ .error (.invalidDump fault) := by
  unfold Reader.readLiteral Reader.readVarint
  grind

theorem readEntries_ne_entriesTooLarge (coder : Coder) (done : List Field) (reader : Reader) :
    readEntries coder done reader ≠ .error (.invalidDump .entriesTooLarge) := by
  have unread (reader : Reader) := readLiteral_ne_invalidDump reader coder .entriesTooLarge
  fun_induction readEntries coder done reader with
  | case1 =>
    intro refused
    cases refused
  | case2 done reader inside cause failed =>
    intro refused
    cases refused
    unfold readEntry at failed
    grind
  | case3 done reader inside entry after read shorter ih => exact ih

/-- Only the header of a dump says how long its entries are, so nothing that is wrong with them
is reported as their length. -/
theorem loadEntries_ne_entriesTooLarge (codec : Codec) (maxFrameSize : Nat) (entries : Bytes) :
    codec.loadEntries maxFrameSize entries ≠ .error (.decode (.invalidDump .entriesTooLarge)) := by
  intro refused
  unfold loadEntries at refused
  cases read : readEntries codec.coder [] (.ofSection entries) with
  | error cause =>
    rw [read] at refused
    cases refused
    exact readEntries_ne_entriesTooLarge _ _ _ read
  | ok fields =>
    rw [read] at refused
    cases checked : checkContent (.ofFields fields) <;> simp [checked, Except.mapError] at refused

/-- The length of its dump is never a reason to refuse what a codec was given: the entries keep the
bound, the header says their length in full, and a codec with the same coder loads the dump in each
of the three ways. -/
theorem dump_fits {source : Codec} (reachable : source.Reachable) :
    source.dumpEntries.length ≤ Limits.maxDumpEntriesSize ∧
      DumpHeader.ofBytes (source.dump.take Limits.dumpHeaderSize) =
        ⟨source.maxFrameSize, source.dumpEntries.length⟩ ∧
      ∀ (target : Codec) (rest : Bytes) (capacity : Option Nat),
        target.load source.dump ≠ .error (.decode (.invalidDump .entriesTooLarge)) ∧
        (target.loadFrom ⟨source.dump ++ rest, capacity⟩).1 ≠
          .error (.decode (.invalidDump .entriesTooLarge)) ∧
        (target.receiveDump ⟨source.dump ++ rest, capacity⟩).1 ≠
          .error (.decode (.invalidDump .entriesTooLarge)) ∧
        (target.coder = source.coder →
          target.load source.dump = .ok source ∧
          target.loadFrom ⟨source.dump ++ rest, capacity⟩ = (.ok source, ⟨rest, capacity⟩) ∧
          target.receiveDump ⟨source.dump ++ rest, capacity⟩ =
            (.ok source, ⟨rest, capacity⟩)) := by
  have sound := reachable.sound
  have small := sound.length_dumpEntries_le
  refine ⟨small, ofBytes_take_dump sound small, ?_⟩
  intro target rest capacity
  rw [load_dump_eq sound small, loadFrom_dump sound, receiveDump_dump sound]
  have loaded := target.loadEntries_ne_entriesTooLarge source.maxFrameSize source.dumpEntries
  refine ⟨loaded, loaded, loaded, ?_⟩
  intro same
  rw [loadEntries_dumpEntries sound small same]
  exact ⟨rfl, rfl, rfl⟩

theorem dump_fits_sample : sample.Reachable ∧ sample.dictionary.contentSize = 9 ∧
    sample.dumpEntries.length = 15 ∧ Codec.default.coder = sample.coder ∧
    DumpHeader.ofBytes (sample.dump.take Limits.dumpHeaderSize) = ⟨64, 15⟩ ∧
    Codec.default.receiveDump ⟨sample.dump ++ [1, 0], none⟩ = (.ok sample, ⟨[1, 0], none⟩) := by
  have entries : sample.dumpEntries.length = 15 := by
    cbv
  obtain ⟨-, header, provisioned⟩ := dump_fits reachable_sample
  obtain ⟨-, -, -, loaded⟩ := provisioned .default [1, 0] none
  rw [entries] at header
  exact ⟨reachable_sample, by cbv, entries, rfl, header, (loaded rfl).2.2⟩

end Codec

end HeaderCodec
