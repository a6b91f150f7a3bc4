import HeaderCodec.Proofs.Placement

/-! Each part of a field says how long it is before it ends, so bytes that stop inside a field are
seen to stop there, and are not taken for anything else. -/

namespace HeaderCodec

def DecodeError.IsTruncation : DecodeError → Prop
  | truncatedField _ | truncatedLiteral .. => True
  | _ => False

theorem DecodeError.IsTruncation.moved {cause : DecodeError} (truncated : cause.IsTruncation)
    (distance : Nat) : (cause.moved distance).IsTruncation := by
  cases cause <;> trivial

theorem cut_append {first second front back : Bytes} (same : first ++ second = front ++ back) :
    (∃ lost, lost ≠ [] ∧ first = front ++ lost) ∨
      ∃ kept, front = first ++ kept ∧ second = kept ++ back := by
  rcases List.append_eq_append_iff.mp same with whole | ⟨lost, whole, behind⟩
  · exact .inr whole
  by_cases nothing : lost = []
  · subst nothing
    exact .inr ⟨[], by simp [whole], behind.symm⟩
  · exact .inl ⟨lost, nothing, whole⟩

theorem Varint.Groups.decodeFrom_cut {bytes front back : Bytes} {value position : Nat}
    (groups : Groups bytes value) (cut : bytes = front ++ back) (lost : back ≠ [])
    (short : position + front.length < maxSize) :
    decodeFrom position front = .error .unexpectedEof := by
  induction groups generalizing front position with
  | last closed =>
    cases front with
    | nil => rfl
    | cons byte front =>
      rw [List.cons_append, List.cons.injEq] at cut
      exact absurd (List.append_eq_nil_iff.mp cut.2.symm).2 lost
  | more continued _ ih =>
    cases front with
    | nil => rfl
    | cons byte front =>
      rw [List.cons_append, List.cons.injEq] at cut
      rw [cut.1] at continued
      rw [List.length_cons] at short
      have fits : ¬(position + 1 = maxSize ∧ 1 < byte) := by omega
      rw [decodeFrom, if_neg fits, if_neg continued, ih cut.2 (by omega)]
      rfl

namespace Reader

variable {α : Type}

/-- In front of a part of what spells a value the step fails, for want of bytes. -/
def NoticesCuts (read : Reader → Except DecodeError (α × Reader))
    (spells : Bytes → α → Prop) : Prop :=
  ∀ bytes value, spells bytes value → ∀ front back, bytes = front ++ back → back ≠ [] →
    ∀ offset, ∃ cause, cause.IsTruncation ∧ read ⟨offset, front⟩ = .error cause

theorem noticesCuts_readVarint : NoticesCuts readVarint Varint.Spells := by
  intro bytes value spelled front back cut lost offset
  have missing := List.length_pos_iff.mpr lost
  have short := spelled.length_le
  rw [cut, List.length_append] at short
  have ended : Varint.decode front = .error .unexpectedEof :=
    spelled.groups.decodeFrom_cut cut lost (by omega)
  exact ⟨.truncatedField offset, trivial, by rw [readVarint, ended]⟩

theorem NoticesCuts.both {β γ : Type} {first : Reader → Except DecodeError (α × Reader)}
    {second : Reader → Except DecodeError (β × Reader)}
    {read : Reader → Except DecodeError (γ × Reader)} {spells : Bytes → α → Prop}
    {spells' : Bytes → β → Prop} (notices : NoticesCuts first spells)
    (recognizes : Recognizes first spells) (notices' : NoticesCuts second spells')
    {bytes bytes' front back : Bytes} {value : α} {value' : β} (spelled : spells bytes value)
    (spelled' : spells' bytes' value')
    (here : ∀ reader cause, first reader = .error cause → read reader = .error cause)
    (later : ∀ reader after cause, first reader = .ok (value, after) →
      second after = .error cause → read reader = .error cause)
    (cut : bytes ++ bytes' = front ++ back) (lost : back ≠ []) (offset : Nat) :
    ∃ cause, cause.IsTruncation ∧ read ⟨offset, front⟩ = .error cause := by
  rcases cut_append cut with ⟨missing, present, inside⟩ | ⟨kept, rfl, inside⟩
  · obtain ⟨cause, truncated, failed⟩ := notices _ _ spelled front missing inside present offset
    exact ⟨cause, truncated, here _ _ failed⟩
  · obtain ⟨cause, truncated, failed⟩ :=
      notices' _ _ spelled' kept back inside lost (offset + bytes.length)
    exact ⟨cause, truncated, later _ _ _ (recognizes.read_append spelled offset kept) failed⟩

theorem noticesCuts_readLiteral (coder : Coder) :
    NoticesCuts (readLiteral · coder) (Literal.Spells coder) := by
  intro bytes text spelled front back cut lost offset
  obtain ⟨head, payload, number, rfl, announced, length⟩ : ∃ head payload number,
      bytes = head ++ payload ∧ Varint.Spells head number ∧ payload.length = number / 2 := by
    cases spelled with
    | raw announced length => exact ⟨_, _, _, rfl, announced, length⟩
    | coded announced length => exact ⟨_, _, _, rfl, announced, length⟩
  dsimp only [readLiteral]
  rcases cut_append cut with ⟨missing, present, inside⟩ | ⟨kept, rfl, rfl⟩
  · obtain ⟨cause, truncated, failed⟩ :=
      noticesCuts_readVarint head number announced front missing inside present offset
    exact ⟨cause, truncated, by rw [failed]⟩
  · have missing := List.length_pos_iff.mpr lost
    have short : kept.length < number / 2 := by
      rw [List.length_append] at length
      omega
    refine ⟨.truncatedLiteral (number / 2) kept.length, trivial, ?_⟩
    rw [recognizes_readVarint.read_append announced]
    simp only [Bytes.split_eq, List.take_of_length_le (Nat.le_of_lt short), if_pos short]

theorem noticesCuts_readNonEmpty (coder : Coder) :
    NoticesCuts (readNonEmpty · coder) (Literal.SpellsNonEmpty coder) := by
  intro bytes text spelled front back cut lost offset
  obtain ⟨cause, truncated, failed⟩ :=
    noticesCuts_readLiteral coder bytes text spelled.1 front back cut lost offset
  dsimp only at failed
  exact ⟨cause, truncated, by simp only [readNonEmpty, failed]⟩

end Reader

namespace Codec

variable {codec : Codec} {body : Bytes} {fields : List Field} {pieces : List Bytes}

theorem noticesCuts_readTagged (codec : Codec) :
    Reader.NoticesCuts codec.readTagged codec.Spells := by
  intro bytes field spelled front back cut lost offset
  have varint := Reader.noticesCuts_readVarint
  have literal := Reader.noticesCuts_readNonEmpty codec.coder
  cases front with
  | nil => exact ⟨.truncatedField offset, trivial, rfl⟩
  | cons tag front =>
  -- The tag is whole, so the cut goes through one of the parts behind it.
  cases spelled with
  | literal named valued =>
    obtain ⟨rfl, inside⟩ := List.cons.inj cut
    change ∃ cause, _ ∧ codec.readField .literal ⟨offset + 1, front⟩ = _
    refine literal.both (Reader.recognizes_readNonEmpty codec.coder) literal named valued ?_ ?_
      inside lost (offset + 1)
    · intro reader cause name
      simp only [readField, name]
    · intro reader after cause name value
      simp only [readField, name, value]
  | @nameReference _ _ _ _ entry referred known nameOnly valued =>
    obtain ⟨rfl, inside⟩ := List.cons.inj cut
    change ∃ cause, _ ∧ codec.readField .nameReference ⟨offset + 1, front⟩ = _
    refine varint.both Reader.recognizes_readVarint literal referred valued ?_ ?_
      inside lost (offset + 1)
    · intro reader cause number
      simp only [readField, number]
    · intro reader after cause number value
      have alone : entry.isNameOnly = true := List.isEmpty_iff.mpr nameOnly
      simp only [readField, number, known, alone, if_true, value]
  | indexed referred known pair =>
    obtain ⟨rfl, inside⟩ := List.cons.inj cut
    obtain ⟨cause, truncated, failed⟩ := varint _ _ referred front back inside lost (offset + 1)
    change ∃ cause, _ ∧ codec.readField .indexed ⟨offset + 1, front⟩ = _
    exact ⟨cause, truncated, by simp only [readField, failed]⟩

structure SplitsInto (codec : Codec) (body : Bytes) (pieces : List Bytes) (fields : List Field) :
    Prop where
  eq_flatten : body = pieces.flatten
  spelled : List.Forall₂ codec.Spells pieces fields

def boundary (pieces : List Bytes) (count : Nat) : Nat := (pieces.take count).flatten.length

theorem flatten_take_append_drop (pieces : List Bytes) (count : Nat) :
    (pieces.take count).flatten ++ (pieces.drop count).flatten = pieces.flatten := by
  rw [← List.flatten_append, List.take_append_drop]

theorem boundary_or_inside {place : Nat} (inside : place ≤ pieces.flatten.length) :
    (∃ count ≤ pieces.length, place = boundary pieces count) ∨
      ∃ count front back rest, pieces.drop count = (front ++ back) :: rest ∧ front ≠ [] ∧
        back ≠ [] ∧ pieces.flatten.take place = (pieces.take count).flatten ++ front := by
  induction pieces generalizing place with
  | nil => exact .inl ⟨0, Nat.le_refl 0, Nat.le_zero.mp inside⟩
  | cons piece pieces ih =>
    rw [List.flatten_cons, List.length_append] at inside
    by_cases start : place = 0
    · exact .inl ⟨0, Nat.zero_le _, start⟩
    by_cases first : place < piece.length
    · refine .inr ⟨0, piece.take place, piece.drop place, pieces, ?_, ?_, ?_, ?_⟩
      · rw [List.take_append_drop, List.drop_zero]
      · rw [Ne, List.take_eq_nil_iff, not_or]
        exact ⟨start, List.ne_nil_of_length_pos (Nat.zero_lt_of_lt first)⟩
      · rwa [Ne, List.drop_eq_nil_iff, Nat.not_le]
      · exact List.take_append_of_le_length first.le
    · obtain ⟨further, rfl⟩ := Nat.exists_eq_add_of_le (Nat.le_of_not_lt first)
      rcases ih (Nat.add_le_add_iff_left.mp inside) with
        ⟨count, le, same⟩ | ⟨count, front, back, rest, here, filled, lost, cut⟩
      · refine .inl ⟨count + 1, Nat.succ_le_succ le, ?_⟩
        rw [same, boundary, boundary, List.take_succ_cons, List.flatten_cons, List.length_append]
      · refine .inr ⟨count + 1, front, back, rest, here, filled, lost, ?_⟩
        rw [List.take_succ_cons, List.flatten_cons, List.flatten_cons, List.append_assoc, ← cut,
          List.take_length_add_append]

theorem decodeBody_append_of_fault {back : Bytes} {cause : DecodeError}
    (spelled : List.Forall₂ codec.Spells pieces fields)
    (fits : (pieces.flatten ++ back).length ≤ codec.maxFrameSize) (filled : back ≠ [])
    (failed : codec.readTagged (.ofSection back) = .error cause) :
    codec.decodeBody (pieces.flatten ++ back) = .error (cause.moved pieces.flatten.length) := by
  have alone : codec.decodeBody back = .error cause := by
    have shorter : ¬codec.maxFrameSize < back.length := by
      rw [List.length_append] at fits
      omega
    have inside : ¬(Reader.ofSection back).rest.isEmpty = true := by
      rwa [List.isEmpty_iff]
    unfold decodeBody
    dsimp only
    rw [if_neg shorter, repeats_readFields codec, if_neg inside, failed, Outcome.error_bind]
  rw [decodeBody_append spelled fits, alone]
  rfl

theorem decodeBody_take_boundary (spelled : List.Forall₂ codec.Spells pieces fields)
    (fits : pieces.flatten.length ≤ codec.maxFrameSize) (count : Nat) :
    codec.decodeBody (pieces.flatten.take (boundary pieces count)) = .ok (fields.take count) := by
  have front : pieces.flatten.take (boundary pieces count) = (pieces.take count).flatten := by
    rw [← flatten_take_append_drop pieces count, boundary, List.take_left]
  refine decodeBody_eq_ok_iff.mpr ⟨?_, pieces.take count, front, List.forall₂_take count spelled⟩
  exact (List.length_take_le' _ _).trans fits

theorem decodeBody_take_inside (spelled : List.Forall₂ codec.Spells pieces fields)
    (fits : pieces.flatten.length ≤ codec.maxFrameSize) {place : Nat}
    (inside : place ≤ pieces.flatten.length)
    (between : ∀ count ≤ pieces.length, place ≠ boundary pieces count) :
    ∃ cause, cause.IsTruncation ∧
      codec.decodeBody (pieces.flatten.take place) = .error cause := by
  rcases boundary_or_inside inside with
    ⟨count, le, same⟩ | ⟨count, front, back, rest, here, filled, lost, cut⟩
  · exact absurd same (between count le)
  have behind := List.forall₂_drop count spelled
  rw [here] at behind
  obtain ⟨field, others, next, -, -⟩ := List.forall₂_cons_left_iff.mp behind
  obtain ⟨cause, truncated, failed⟩ :=
    noticesCuts_readTagged codec _ field next front back rfl lost 0
  have shorter := (List.length_take_le' place pieces.flatten).trans fits
  rw [cut] at shorter ⊢
  exact ⟨_, truncated.moved _, decodeBody_append_of_fault (List.forall₂_take count spelled)
    shorter filled failed⟩

theorem decodeBody_set_boundary (spelled : List.Forall₂ codec.Spells pieces fields)
    (fits : pieces.flatten.length ≤ codec.maxFrameSize) {count : Nat}
    (inside : boundary pieces count < pieces.flatten.length) {tag : UInt8}
    (unknown : FieldKind.ofTag? tag = none) :
    codec.decodeBody (pieces.flatten.set (boundary pieces count) tag) =
      .error (.unknownFieldKind tag (boundary pieces count)) := by
  have whole := flatten_take_append_drop pieces count
  cases behind : (pieces.drop count).flatten with
  | nil =>
    rw [← whole, behind, List.append_nil] at inside
    exact absurd inside (Nat.lt_irrefl _)
  | cons first rest =>
    have changed : pieces.flatten.set (boundary pieces count) tag =
        (pieces.take count).flatten ++ tag :: rest := by
      rw [← whole, behind, boundary, List.set_append_right _ _ (Nat.le_refl _), Nat.sub_self,
        List.set_cons_zero]
    have failed : codec.readTagged (.ofSection (tag :: rest)) =
        .error (.unknownFieldKind tag 0) := by
      rw [Reader.ofSection, readTagged, unknown]
    rw [← List.length_set, changed] at fits
    rw [changed, decodeBody_append_of_fault (List.forall₂_take count spelled) fits
      (List.cons_ne_nil _ _) failed, DecodeError.moved, Nat.zero_add, boundary]

/-- A body that is accepted is split into fields in one way. Cut between two fields it is accepted
as the fields before the cut, and cut inside of one it is refused for want of bytes. A byte that is
no tag in the place of one is named, with its place. -/
theorem cuts_and_tags_caught (decoded : codec.decodeBody body = .ok fields) :
    (∃! pieces, codec.SplitsInto body pieces fields) ∧
    ∀ pieces, codec.SplitsInto body pieces fields →
      (∀ count ≤ fields.length,
        codec.decodeBody (body.take (boundary pieces count)) = .ok (fields.take count)) ∧
      (∀ place ≤ body.length, (∀ count ≤ fields.length, place ≠ boundary pieces count) →
        ∃ cause, cause.IsTruncation ∧ codec.decodeBody (body.take place) = .error cause) ∧
      ∀ count ≤ fields.length, boundary pieces count < body.length →
        ∀ tag, tag ≠ 1 → tag ≠ 2 → tag ≠ 3 →
          codec.decodeBody (body.set (boundary pieces count) tag) =
            .error (.unknownFieldKind tag (boundary pieces count)) := by
  obtain ⟨fits, pieces, split, spelled⟩ := decodeBody_eq_ok_iff.mp decoded
  constructor
  · refine ⟨pieces, ⟨split, spelled⟩, ?_⟩
    rintro other ⟨split', spelled'⟩
    exact ((recognizes_readTagged codec).row_unique (productive_spells codec) spelled' spelled
      (split'.symm.trans split)).1
  · rintro pieces ⟨rfl, spelled⟩
    rw [← spelled.length_eq]
    refine ⟨fun count _ => decodeBody_take_boundary spelled fits count,
      fun place inside between => decodeBody_take_inside spelled fits inside between, ?_⟩
    intro count _ inside tag literal nameReference indexed
    refine decodeBody_set_boundary spelled fits inside ?_
    simp [FieldKind.ofTag?, FieldKind.tag, literal, nameReference, indexed]

def threeKinds : Bytes := [2, 0, 2, 97, 3, 2, 1, 2, 97, 2, 98]

theorem cuts_and_tags_caught_threeKinds :
    sample.decodeBody threeKinds =
        .ok [⟨[120, 45], [97]⟩, ⟨[120, 45, 116], [49]⟩, ⟨[97], [98]⟩] ∧
      sample.decodeBody (threeKinds.take 6) = .ok [⟨[120, 45], [97]⟩, ⟨[120, 45, 116], [49]⟩] ∧
      (∃ cause, cause.IsTruncation ∧ sample.decodeBody (threeKinds.take 8) = .error cause) ∧
      sample.decodeBody (threeKinds.set 6 9) = .error (.unknownFieldKind 9 6) := by
  have decoded : sample.decodeBody threeKinds =
      .ok [⟨[120, 45], [97]⟩, ⟨[120, 45, 116], [49]⟩, ⟨[97], [98]⟩] := by
    cbv
  have zero : Varint.Spells [0] 0 := ⟨.last (by decide), by decide, by decide⟩
  have two : Varint.Spells [2] 2 := ⟨.last (by decide), by decide, by decide⟩
  have text : ∀ byte : UInt8, Literal.SpellsNonEmpty .huffman [2, byte] [byte] :=
    fun byte => ⟨.raw two rfl rfl, List.cons_ne_nil _ _⟩
  have reference : sample.Spells [2, 0, 2, 97] ⟨[120, 45], [97]⟩ :=
    @Spells.nameReference sample _ _ _ 0 (.nameOnly [120, 45]) zero rfl rfl (text 97)
  have pair : sample.Spells [3, 2] ⟨[120, 45, 116], [49]⟩ := .indexed two rfl (by decide)
  have literal : sample.Spells [1, 2, 97, 2, 98] ⟨[97], [98]⟩ :=
    @Spells.literal sample _ _ _ _ (text 97) (text 98)
  have split : sample.SplitsInto threeKinds [[2, 0, 2, 97], [3, 2], [1, 2, 97, 2, 98]]
      [⟨[120, 45], [97]⟩, ⟨[120, 45, 116], [49]⟩, ⟨[97], [98]⟩] :=
    ⟨rfl, .cons reference (.cons pair (.cons literal .nil))⟩
  obtain ⟨whole, inside, tags⟩ := (cuts_and_tags_caught decoded).2 _ split
  exact ⟨decoded, whole 2 (by decide), inside 8 (by decide) (by decide),
    tags 2 (by decide) (by decide) 9 (by decide) (by decide) (by decide)⟩

end Codec

end HeaderCodec
