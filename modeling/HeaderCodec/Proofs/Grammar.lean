import HeaderCodec.Frame.Decoding
import HeaderCodec.Proofs.Literal

/-! Each field of a body opens with its tag and is read from its own bytes alone, so a body is
accepted exactly if it is a row of fields, and it is one in a single way. -/

namespace HeaderCodec.Codec

/-- The encodings of a field. An index counts whether or not it is written in the fewest bytes,
and a literal may spell what the dictionary could refer to. -/
inductive Spells (codec : Codec) : Bytes → Field → Prop
  | literal {front back name value : Bytes}
    (named : Literal.SpellsNonEmpty codec.coder front name)
    (valued : Literal.SpellsNonEmpty codec.coder back value) :
    Spells codec (1 :: (front ++ back)) ⟨name, value⟩
  | nameReference {head back value : Bytes} {index : Nat} {entry : Field}
    (referred : Varint.Spells head index) (known : codec.dictionary.get? index = some entry)
    (nameOnly : entry.value = []) (valued : Literal.SpellsNonEmpty codec.coder back value) :
    Spells codec (2 :: (head ++ back)) ⟨entry.name, value⟩
  | indexed {head : Bytes} {index : Nat} {entry : Field}
    (referred : Varint.Spells head index) (known : codec.dictionary.get? index = some entry)
    (pair : entry.value ≠ []) : Spells codec (3 :: head) entry

theorem productive_spells (codec : Codec) : Reader.Productive codec.Spells := by
  intro bytes field spelled
  cases spelled <;> exact List.cons_ne_nil _ _

def readTagged (codec : Codec) : Reader → Except DecodeError (Field × Reader)
  | ⟨offset, []⟩ => .error (.truncatedField offset)
  | ⟨offset, tag :: rest⟩ =>
    match FieldKind.ofTag? tag with
    | none => .error (.unknownFieldKind tag offset)
    | some kind => codec.readField kind ⟨offset + 1, rest⟩

theorem repeats_readFields (codec : Codec) : Reader.Repeats codec.readFields codec.readTagged := by
  rintro done ⟨offset, bytes⟩
  rw [readFields.eq_def]
  cases bytes with
  | nil => rfl
  | cons tag rest =>
    simp only [readTagged, List.isEmpty_cons, Bool.false_eq_true, if_false]
    cases FieldKind.ofTag? tag with
    | none => rfl
    | some kind =>
      dsimp only
      split
      next read => rw [read]; rfl
      next read => rw [read]; rfl

section

variable {codec : Codec} {before after : Reader} {field : Field}

theorem readField_literal_eq_ok_iff :
    codec.readField .literal before = .ok (field, after) ↔
      ∃ front back, Literal.SpellsNonEmpty codec.coder front field.name ∧
        Literal.SpellsNonEmpty codec.coder back field.value ∧
        before.Passes (front ++ back) after := by
  have recognizes := Reader.recognizes_readNonEmpty codec.coder
  simp only [readField]
  constructor
  · intro read
    split at read
    · cases read
    next name =>
    split at read
    · cases read
    next value =>
    cases read
    obtain ⟨front, named, first⟩ := (recognizes _ _ _).mp name
    obtain ⟨back, valued, second⟩ := (recognizes _ _ _).mp value
    exact ⟨front, back, named, valued, first.append second⟩
  · rintro ⟨front, back, named, valued, passes⟩
    obtain ⟨middle, first, second⟩ := passes.of_append
    have name := (recognizes _ _ _).mpr ⟨front, named, first⟩
    have value := (recognizes _ _ _).mpr ⟨back, valued, second⟩
    dsimp only at name value
    simp [name, value]

theorem readField_nameReference_eq_ok_iff :
    codec.readField .nameReference before = .ok (field, after) ↔
      ∃ head back index entry, Varint.Spells head index ∧
        codec.dictionary.get? index = some entry ∧ entry.value = [] ∧ entry.name = field.name ∧
        Literal.SpellsNonEmpty codec.coder back field.value ∧
        before.Passes (head ++ back) after := by
  have recognizes := Reader.recognizes_readNonEmpty codec.coder
  simp only [readField]
  constructor
  · intro read
    split at read
    · cases read
    next index middle varint =>
    split at read
    next entry known =>
      split at read
      next nameOnly =>
        split at read
        · cases read
        next value =>
        cases read
        obtain ⟨head, referred, first⟩ := (Reader.recognizes_readVarint _ _ _).mp varint
        obtain ⟨back, valued, second⟩ := (recognizes _ _ _).mp value
        exact ⟨head, back, index, entry, referred, known, List.isEmpty_iff.mp nameOnly, rfl,
          valued, first.append second⟩
      · cases read
    · cases read
  · rintro ⟨head, back, index, entry, referred, known, nameOnly, name, valued, passes⟩
    obtain ⟨middle, first, second⟩ := passes.of_append
    have varint := (Reader.recognizes_readVarint _ _ _).mpr ⟨head, referred, first⟩
    have value := (recognizes _ _ _).mpr ⟨back, valued, second⟩
    have only : entry.isNameOnly = true := List.isEmpty_iff.mpr nameOnly
    dsimp only at value
    simp [varint, known, only, value, name]

theorem readField_indexed_eq_ok_iff :
    codec.readField .indexed before = .ok (field, after) ↔
      ∃ head index, Varint.Spells head index ∧ codec.dictionary.get? index = some field ∧
        field.value ≠ [] ∧ before.Passes head after := by
  simp only [readField]
  constructor
  · intro read
    split at read
    · cases read
    next index middle varint =>
    split at read
    next entry known =>
      split at read
      · cases read
      next pair =>
      cases read
      obtain ⟨head, referred, passes⟩ := (Reader.recognizes_readVarint _ _ _).mp varint
      exact ⟨head, index, referred, known, fun empty => pair (List.isEmpty_iff.mpr empty), passes⟩
    · cases read
  · rintro ⟨head, index, referred, known, pair, passes⟩
    have varint := (Reader.recognizes_readVarint _ _ _).mpr ⟨head, referred, passes⟩
    have valued : field.isNameOnly = false := List.isEmpty_eq_false_iff.mpr pair
    simp [varint, known, valued]

end

private theorem passes_cons {offset : Nat} {tag first : UInt8} {rest bytes : Bytes}
    {after : Reader} :
    Reader.Passes ⟨offset, tag :: rest⟩ (first :: bytes) after ↔
      tag = first ∧ Reader.Passes ⟨offset + 1, rest⟩ bytes after := by
  constructor
  · rintro ⟨same, behind⟩
    rw [List.cons_append, List.cons.injEq] at same
    refine ⟨same.1, same.2, ?_⟩
    rw [behind, List.length_cons, ← Nat.add_assoc, Nat.add_right_comm]
  · rintro ⟨rfl, same, behind⟩
    refine ⟨congrArg (tag :: ·) same, ?_⟩
    rw [behind, List.length_cons, ← Nat.add_assoc, Nat.add_right_comm]

theorem recognizes_readTagged (codec : Codec) :
    Reader.Recognizes codec.readTagged codec.Spells := by
  rintro ⟨offset, bytes⟩ field after
  cases bytes with
  | nil =>
    constructor
    · intro read
      cases read
    · rintro ⟨bytes, spelled, passes⟩
      exact absurd (List.append_eq_nil_iff.mp passes.rest_eq.symm).1
        (productive_spells codec _ _ spelled)
  | cons tag rest =>
    simp only [readTagged]
    constructor
    · intro read
      split at read
      · cases read
      next kind known =>
      rw [FieldKind.ofTag?_eq_some_iff] at known
      cases kind with
      | literal =>
        obtain ⟨front, back, named, valued, passes⟩ := readField_literal_eq_ok_iff.mp read
        exact ⟨_, .literal named valued, passes_cons.mpr ⟨known, passes⟩⟩
      | nameReference =>
        obtain ⟨head, back, index, entry, referred, entered, nameOnly, name, valued, passes⟩ :=
          readField_nameReference_eq_ok_iff.mp read
        have spelled := Spells.nameReference referred entered nameOnly valued
        rw [name] at spelled
        exact ⟨_, spelled, passes_cons.mpr ⟨known, passes⟩⟩
      | indexed =>
        obtain ⟨head, index, referred, entered, pair, passes⟩ :=
          readField_indexed_eq_ok_iff.mp read
        exact ⟨_, .indexed referred entered pair, passes_cons.mpr ⟨known, passes⟩⟩
    · rintro ⟨bytes, spelled, passes⟩
      cases spelled with
      | literal named valued =>
        obtain ⟨rfl, behind⟩ := passes_cons.mp passes
        exact readField_literal_eq_ok_iff.mpr ⟨_, _, named, valued, behind⟩
      | nameReference referred entered nameOnly valued =>
        obtain ⟨rfl, behind⟩ := passes_cons.mp passes
        exact readField_nameReference_eq_ok_iff.mpr
          ⟨_, _, _, _, referred, entered, nameOnly, rfl, valued, behind⟩
      | indexed referred entered pair =>
        obtain ⟨rfl, behind⟩ := passes_cons.mp passes
        exact readField_indexed_eq_ok_iff.mpr ⟨_, _, referred, entered, pair, behind⟩

theorem decodeBody_eq_ok_iff {codec : Codec} {body : Bytes} {fields : List Field} :
    codec.decodeBody body = .ok fields ↔
      body.length ≤ codec.maxFrameSize ∧ Reader.Row codec.Spells body fields := by
  unfold decodeBody
  dsimp only
  split
  next large =>
    constructor
    · intro decoded
      cases decoded
    · rintro ⟨fits, -⟩
      omega
  next fits =>
    rw [(recognizes_readTagged codec).loop_eq_ok_iff (productive_spells codec)
      (repeats_readFields codec)]
    simp only [Reader.ofSection, List.reverse_nil, List.nil_append]
    constructor
    · rintro ⟨row, spelled, rfl⟩
      exact ⟨Nat.le_of_not_lt fits, spelled⟩
    · rintro ⟨-, spelled⟩
      exact ⟨fields, spelled, rfl⟩

/-- A body is accepted exactly if it is split into the encodings of its fields, and it can be
split in one way only. -/
theorem decodeBody_grammar (codec : Codec) (body : Bytes) :
    (∀ fields, codec.decodeBody body = .ok fields ↔
      body.length ≤ codec.maxFrameSize ∧
        ∃ pieces, body = pieces.flatten ∧ List.Forall₂ codec.Spells pieces fields) ∧
    (∀ pieces pieces' fields fields',
      body = pieces.flatten → List.Forall₂ codec.Spells pieces fields →
      body = pieces'.flatten → List.Forall₂ codec.Spells pieces' fields' →
      pieces = pieces' ∧ fields = fields') := by
  constructor
  · intro fields
    exact decodeBody_eq_ok_iff
  · intro pieces pieces' fields fields' split spelled split' spelled'
    exact (recognizes_readTagged codec).row_unique (productive_spells codec) spelled spelled'
      (split.symm.trans split')

/-- The length of the name takes two bytes here where one would do. -/
theorem decodeBody_grammar_overlong :
    Codec.default.decodeBody [1, 130, 0, 97, 2, 98] = .ok [⟨[97], [98]⟩] ∧
      ∀ pieces fields, [1, 130, 0, 97, 2, 98] = pieces.flatten →
        List.Forall₂ Codec.default.Spells pieces fields → pieces = [[1, 130, 0, 97, 2, 98]] := by
  have two : Varint.Spells [130, 0] 2 := by
    have groups : Varint.Groups [130, 0] 2 := .more (by decide) (.last (by decide))
    exact ⟨groups, by decide, by decide⟩
  have shortest : Varint.Spells [2] 2 := ⟨.last (by decide), by decide, by decide⟩
  have name : Literal.SpellsNonEmpty .huffman [130, 0, 97] [97] := ⟨.raw two rfl rfl, by decide⟩
  have value : Literal.SpellsNonEmpty .huffman [2, 98] [98] := ⟨.raw shortest rfl rfl, by decide⟩
  have spelled : Codec.default.Spells [1, 130, 0, 97, 2, 98] ⟨[97], [98]⟩ :=
    @Spells.literal .default _ _ _ _ name value
  have row : List.Forall₂ Codec.default.Spells [[1, 130, 0, 97, 2, 98]] [⟨[97], [98]⟩] :=
    .cons spelled .nil
  have grammar := decodeBody_grammar Codec.default [1, 130, 0, 97, 2, 98]
  refine ⟨(grammar.1 _).mpr ⟨by decide, _, rfl, row⟩, ?_⟩
  intro pieces fields split others
  exact (grammar.2 _ _ _ _ split others rfl row).1

end HeaderCodec.Codec
