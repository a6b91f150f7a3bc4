import HeaderCodec.Proofs.Lookup
import HeaderCodec.Proofs.RoundTrip

/-! Packing again never takes more. A place in a dictionary of at most `128 * 128` entries fits into
two bytes, which is what the shortest literal takes. -/

namespace HeaderCodec

namespace Codec

variable {codec : Codec} {fields : List Field}

theorem length_encode_index_le (small : codec.dictionary.size ≤ 16384) {index : Nat}
    {entry : Field} (known : codec.dictionary.get? index = some entry) :
    (Varint.encode index).length ≤ 2 := by
  have inside : index < codec.dictionary.entries.length :=
    (List.getElem?_eq_some_iff.mp known).1
  exact Varint.length_encode_le (Nat.lt_of_lt_of_le inside small)

theorem length_encodeField_of_pair (small : codec.dictionary.size ≤ 16384) {field : Field}
    {nameIndex pairIndex : Nat}
    (found : codec.dictionary.index field.name field.value = .pair nameIndex pairIndex) :
    (codec.encodeField field).length ≤ 3 := by
  have reference := length_encode_index_le small (Dictionary.get?_of_index_pair found).2
  rw [encodeField, found, List.length_cons]
  omega

theorem complete_of_spells (sound : codec.Sound) {bytes : Bytes} {field : Field}
    (spelled : codec.Spells bytes field) : field.Complete := by
  cases spelled with
  | literal named valued => exact ⟨named.2, valued.2⟩
  | nameReference referred known nameOnly valued =>
    have listed := List.mem_of_getElem? known
    exact ⟨(sound.registered.name_normal listed).1, valued.2⟩
  | indexed referred known pair =>
    have listed := List.mem_of_getElem? known
    exact ⟨(sound.registered.name_normal listed).1, pair⟩

/-- Of all encodings of a field the encoder's is the shortest. -/
theorem Spells.length_encodeField_le (sound : codec.Sound)
    (small : codec.dictionary.size ≤ 16384) {bytes : Bytes} {field : Field}
    (spelled : codec.Spells bytes field) : (codec.encodeField field).length ≤ bytes.length := by
  cases spelled with
  | @literal front back name value named valued =>
    have name_long := named.two_le_length
    have value_long := valued.two_le_length
    have name_short := named.1.length_encode_le
    have value_short := valued.1.length_encode_le
    rw [List.length_cons, List.length_append]
    cases found : codec.dictionary.index name value with
    | pair nameIndex pairIndex =>
      have : (codec.encodeField ⟨name, value⟩).length ≤ 3 :=
        length_encodeField_of_pair small found
      omega
    | name nameIndex =>
      have reference := length_encode_index_le small (Dictionary.get?_of_index_name found)
      simp only [encodeField, found, List.length_cons, List.length_append]
      omega
    | miss =>
      simp only [encodeField, found, List.length_cons, List.length_append]
      omega
  | @nameReference head back value index entry referred known nameOnly valued =>
    have reference := referred.groups.length_encode_le
    have reference_pos := referred.groups.length_pos
    have value_long := valued.two_le_length
    have value_short := valued.1.length_encode_le
    rw [List.length_cons, List.length_append]
    rcases Dictionary.index_of_get?_nameOnly sound.registered known nameOnly value with
      found | ⟨pairIndex, found⟩
    · simp only [encodeField, found, List.length_cons, List.length_append]
      omega
    · have : (codec.encodeField ⟨entry.name, value⟩).length ≤ 3 :=
        length_encodeField_of_pair small found
      omega
  | indexed referred known pair =>
    obtain ⟨nameIndex, found⟩ := Dictionary.index_of_get?_pair sound.registered known pair
    rw [encodeField, found]
    exact Nat.succ_le_succ referred.groups.length_encode_le

theorem complete_of_row (sound : codec.Sound) {pieces : List Bytes}
    (spelled : List.Forall₂ codec.Spells pieces fields) : ∀ field ∈ fields, field.Complete := by
  induction spelled with
  | nil => exact List.forall_mem_nil _
  | cons first _ ih => exact List.forall_mem_cons.mpr ⟨complete_of_spells sound first, ih⟩

theorem length_flatMap_encodeField_le (sound : codec.Sound)
    (small : codec.dictionary.size ≤ 16384) {pieces : List Bytes}
    (spelled : List.Forall₂ codec.Spells pieces fields) :
    (fields.flatMap codec.encodeField).length ≤ pieces.flatten.length := by
  induction spelled with
  | nil => exact Nat.le_refl _
  | cons first _ ih =>
    rw [List.flatMap_cons, List.flatten_cons, List.length_append, List.length_append]
    exact Nat.add_le_add (first.length_encodeField_le sound small) ih

theorem encodeBody_of_decodeBody (sound : codec.Sound)
    (small : codec.dictionary.size ≤ 16384) {body : Bytes}
    (decoded : codec.decodeBody body = .ok fields) :
    ∃ again, codec.encodeBody fields = .ok again ∧ again.length ≤ body.length := by
  obtain ⟨fits, pieces, rfl, spelled⟩ := decodeBody_eq_ok_iff.mp decoded
  have shorter := length_flatMap_encodeField_le sound small spelled
  have complete := complete_of_row sound spelled
  have packed := encodeBody_eq_ok_iff.mpr ⟨complete, Nat.le_trans shorter fits, rfl⟩
  exact ⟨_, packed, shorter⟩

/-- Whatever a codec accepts, it can pack the fields again, into a frame that is no longer, and
finds in that frame what it found before, with registered names in lower case. -/
theorem reencoding_never_grows (reachable : codec.Reachable)
    (small : codec.dictionary.size ≤ 16384) {frame : Bytes}
    (accepted : codec.decode frame = .ok fields) :
    ∃ again, codec.encode fields = .ok again ∧ again.length ≤ frame.length ∧
      codec.decode again = .ok (fields.map codec.dictionary.canonical) := by
  have sound := reachable.sound
  obtain ⟨body, rfl, -, decoded⟩ := decode_eq_ok_iff.mp accepted
  obtain ⟨again, packed, shorter⟩ := encodeBody_of_decodeBody sound small decoded
  have encoded : codec.encode fields = .ok (frameOf again) := by
    rw [encode, packed]
    rfl
  refine ⟨frameOf again, encoded, ?_, decode_of_encode sound encoded⟩
  rw [length_frameOf, length_frameOf]
  exact Nat.add_le_add_left shorter _

/-- A registered name in full, an index in two groups, and the name of a pair with its value: seven,
three and four bytes, of which four, two and two are left. -/
theorem reencoding_never_grows_foreign :
    let frame : Bytes := [14, 0, 1, 132, 0, 88, 45, 2, 97, 3, 130, 0, 2, 1, 2, 49]
    let fields : List Field := [⟨[88, 45], [97]⟩, ⟨[120, 45, 116], [49]⟩, ⟨[120, 45, 116], [49]⟩]
    sample.Reachable ∧ sample.dictionary.size ≤ 16384 ∧ sample.decode frame = .ok fields ∧
      ∃ again, sample.encode fields = .ok again ∧ again.length ≤ 16 ∧
        sample.decode again =
          .ok [⟨[120, 45], [97]⟩, ⟨[120, 45, 116], [49]⟩, ⟨[120, 45, 116], [49]⟩] := by
  intro frame fields
  have small : sample.dictionary.size ≤ 16384 := by
    decide +kernel
  have accepted : sample.decode frame = .ok fields := by
    decide +kernel
  have lowered : fields.map sample.dictionary.canonical =
      [⟨[120, 45], [97]⟩, ⟨[120, 45, 116], [49]⟩, ⟨[120, 45, 116], [49]⟩] := by
    decide +kernel
  obtain ⟨again, encoded, shorter, decoded⟩ :=
    reencoding_never_grows reachable_sample small accepted
  rw [lowered] at decoded
  exact ⟨reachable_sample, small, accepted, again, encoded, shorter, decoded⟩

end Codec

end HeaderCodec
