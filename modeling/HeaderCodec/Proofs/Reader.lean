import HeaderCodec.Frame.Literal
import HeaderCodec.Proofs.Outcome
import HeaderCodec.Proofs.Varint

/-! A reading step is described by the byte strings that it takes from the front of a reader. Such a
description is unambiguous, and repeating the step recognizes rows of such byte strings. -/

namespace HeaderCodec.Reader

variable {α : Type}

/-- The second place is behind `bytes`, which stand at the first. -/
structure Passes (before : Reader) (bytes : Bytes) (after : Reader) : Prop where
  rest_eq : before.rest = bytes ++ after.rest
  offset_eq : after.offset = before.offset + bytes.length

theorem passes_mk (offset : Nat) (bytes rest : Bytes) :
    Passes ⟨offset, bytes ++ rest⟩ bytes ⟨offset + bytes.length, rest⟩ := ⟨rfl, rfl⟩

theorem Passes.append {before middle after : Reader} {front back : Bytes}
    (first : before.Passes front middle) (second : middle.Passes back after) :
    before.Passes (front ++ back) after := by
  constructor
  · rw [first.rest_eq, second.rest_eq, List.append_assoc]
  · rw [second.offset_eq, first.offset_eq, List.length_append, Nat.add_assoc]

theorem Passes.of_append {before after : Reader} {front back : Bytes}
    (passes : before.Passes (front ++ back) after) :
    ∃ middle, before.Passes front middle ∧ middle.Passes back after := by
  refine ⟨⟨before.offset + front.length, back ++ after.rest⟩, ⟨?_, rfl⟩, rfl, ?_⟩
  · rw [passes.rest_eq, List.append_assoc]
  · rw [passes.offset_eq, List.length_append, Nat.add_assoc]

/-- The step succeeds exactly in front of what `spells` a value. It then stands right behind it. -/
def Recognizes (read : Reader → Except DecodeError (α × Reader))
    (spells : Bytes → α → Prop) : Prop :=
  ∀ before value after,
    read before = .ok (value, after) ↔ ∃ bytes, spells bytes value ∧ before.Passes bytes after

section Recognizes

variable {read : Reader → Except DecodeError (α × Reader)} {spells : Bytes → α → Prop}
  {loop : List α → Reader → Except DecodeError (List α)}

theorem Recognizes.read_append (recognizes : Recognizes read spells) {bytes : Bytes} {value : α}
    (spelled : spells bytes value) (offset : Nat) (rest : Bytes) :
    read ⟨offset, bytes ++ rest⟩ = .ok (value, ⟨offset + bytes.length, rest⟩) :=
  (recognizes _ _ _).mpr ⟨bytes, spelled, passes_mk offset bytes rest⟩

theorem Recognizes.unique (recognizes : Recognizes read spells) {bytes bytes' rest rest' : Bytes}
    {value value' : α} (spelled : spells bytes value) (spelled' : spells bytes' value')
    (same : bytes ++ rest = bytes' ++ rest') : bytes = bytes' ∧ value = value' ∧ rest = rest' := by
  have first := recognizes.read_append spelled 0 rest
  have second := recognizes.read_append spelled' 0 rest'
  rw [same, second] at first
  simp only [Except.ok.injEq, Prod.mk.injEq, Reader.mk.injEq] at first
  obtain ⟨rfl, -, rfl⟩ := first
  exact ⟨List.append_cancel_right same, rfl, rfl⟩

def Row (spells : Bytes → α → Prop) (bytes : Bytes) (values : List α) : Prop :=
  ∃ pieces : List Bytes, bytes = pieces.flatten ∧ List.Forall₂ spells pieces values

theorem row_flatMap {β : Type} {items : List β} {write : β → Bytes} {meaning : β → α}
    (spelled : ∀ item ∈ items, spells (write item) (meaning item)) :
    Row spells (items.flatMap write) (items.map meaning) := by
  refine ⟨items.map write, List.flatMap_def .., ?_⟩
  rw [List.forall₂_map_left_iff, List.forall₂_map_right_iff, List.forall₂_same]
  exact spelled

theorem length_le_flatMap {β : Type} {items : List β} {item : β} (listed : item ∈ items)
    (write : β → Bytes) : (write item).length ≤ (items.flatMap write).length := by
  rw [List.flatMap_def]
  exact (List.sublist_flatten_of_mem (List.mem_map_of_mem listed)).length_le

/-- The loop does a step as long as anything is left, and collects the values in reverse. -/
def Repeats (loop : List α → Reader → Except DecodeError (List α))
    (read : Reader → Except DecodeError (α × Reader)) : Prop :=
  ∀ done reader, loop done reader =
    if reader.rest.isEmpty then .ok done.reverse
    else read reader >>= fun (value, after) => loop (value :: done) after

def Productive (spells : Bytes → α → Prop) : Prop :=
  ∀ bytes value, spells bytes value → bytes ≠ []

theorem Recognizes.length_lt_of_read (recognizes : Recognizes read spells)
    (productive : Productive spells) {before after : Reader} {value : α}
    (stepped : read before = .ok (value, after)) : after.rest.length < before.rest.length := by
  obtain ⟨bytes, spelled, passes⟩ := (recognizes _ _ _).mp stepped
  have taken := List.length_pos_iff.mpr (productive _ _ spelled)
  rw [passes.rest_eq, List.length_append]
  omega

/-- What holds of a place if it holds of the place behind a step from there holds everywhere, since
every step leaves less. -/
theorem Recognizes.read_induction (recognizes : Recognizes read spells)
    (productive : Productive spells) {motive : Reader → Prop}
    (step : ∀ before, (∀ value after, read before = .ok (value, after) → motive after) →
      motive before) (reader : Reader) : motive reader := by
  induction size : reader.rest.length using Nat.strongRecOn generalizing reader with
  | ind length ih =>
    refine step reader fun value after stepped => ih _ ?_ after rfl
    rw [← size]
    exact recognizes.length_lt_of_read productive stepped

theorem Recognizes.loop_append (recognizes : Recognizes read spells)
    (productive : Productive spells) (repeats : Repeats loop read)
    {pieces : List Bytes} {values : List α} (spelled : List.Forall₂ spells pieces values)
    (done : List α) (offset : Nat) (rest : Bytes) :
    loop done ⟨offset, pieces.flatten ++ rest⟩ =
      loop (values.reverse ++ done) ⟨offset + pieces.flatten.length, rest⟩ := by
  induction spelled generalizing done offset with
  | nil => rfl
  | @cons bytes value pieces values first _ ih =>
    have inside : ¬(bytes ++ (pieces.flatten ++ rest)).isEmpty = true := by
      simp [productive _ _ first]
    rw [List.flatten_cons, List.append_assoc, repeats, if_neg inside,
      recognizes.read_append first, Outcome.ok_bind]
    dsimp only
    rw [ih, List.reverse_cons, List.append_assoc, List.singleton_append, List.length_append,
      Nat.add_assoc]

theorem Recognizes.row_of_loop (recognizes : Recognizes read spells)
    (productive : Productive spells) (repeats : Repeats loop read)
    {done values : List α} {reader : Reader} (looped : loop done reader = .ok values) :
    ∃ row, Row spells reader.rest row ∧ values = done.reverse ++ row := by
  induction reader using recognizes.read_induction productive generalizing done with
  | step reader ih =>
  rw [repeats done reader] at looped
  split at looped
  next atEnd =>
    cases looped
    exact ⟨[], ⟨[], List.isEmpty_iff.mp atEnd, .nil⟩, (List.append_nil _).symm⟩
  next =>
    obtain ⟨⟨value, after⟩, stepped, looped⟩ := Outcome.bind_eq_ok_iff.mp looped
    obtain ⟨row, ⟨pieces, flat, rest⟩, rfl⟩ := ih value after stepped looped
    obtain ⟨bytes, spelled, passes⟩ := (recognizes _ _ _).mp stepped
    refine ⟨value :: row, ⟨bytes :: pieces, ?_, .cons spelled rest⟩, by simp⟩
    rw [passes.rest_eq, flat, List.flatten_cons]

theorem Recognizes.loop_eq_ok_iff (recognizes : Recognizes read spells)
    (productive : Productive spells) (repeats : Repeats loop read)
    {done values : List α} {reader : Reader} :
    loop done reader = .ok values ↔
      ∃ row, Row spells reader.rest row ∧ values = done.reverse ++ row := by
  constructor
  · exact recognizes.row_of_loop productive repeats
  · rintro ⟨row, ⟨pieces, flat, spelled⟩, rfl⟩
    have passed := recognizes.loop_append productive repeats spelled done reader.offset []
    rw [List.append_nil, ← flat] at passed
    have ended := repeats (row.reverse ++ done) ⟨reader.offset + reader.rest.length, []⟩
    rw [List.isEmpty_nil, if_pos rfl, List.reverse_append, List.reverse_reverse] at ended
    exact passed.trans ended

theorem Recognizes.read_of_loop_error (recognizes : Recognizes read spells)
    (productive : Productive spells) (repeats : Repeats loop read)
    {done : List α} {reader : Reader} {cause : DecodeError}
    (failed : loop done reader = .error cause) :
    ∃ passed before, reader.Passes passed before ∧ read before = .error cause := by
  induction reader using recognizes.read_induction productive generalizing done with
  | step reader ih =>
  rw [repeats done reader] at failed
  split at failed
  · cases failed
  rcases Outcome.bind_eq_error_iff.mp failed with here | ⟨⟨value, after⟩, stepped, later⟩
  · exact ⟨[], reader, ⟨rfl, rfl⟩, here⟩
  · obtain ⟨passed, before, behind, here⟩ := ih value after stepped later
    obtain ⟨bytes, spelled, passes⟩ := (recognizes _ _ _).mp stepped
    exact ⟨bytes ++ passed, before, passes.append behind, here⟩

theorem Recognizes.loop_done (recognizes : Recognizes read spells)
    (productive : Productive spells) (repeats : Repeats loop read)
    (done : List α) (reader : Reader) :
    loop done reader = (loop [] reader).map (done.reverse ++ ·) := by
  induction reader using recognizes.read_induction productive generalizing done with
  | step reader ih =>
  rw [repeats done reader, repeats [] reader]
  split
  · simp [Except.map]
  cases stepped : read reader with
  | error cause => rfl
  | ok result =>
    obtain ⟨value, after⟩ := result
    simp only [Outcome.ok_bind]
    rw [ih value after stepped (value :: done), ih value after stepped [value]]
    cases loop [] after <;> simp [Except.map]

theorem Recognizes.row_unique (recognizes : Recognizes read spells)
    (productive : Productive spells) {pieces pieces' : List Bytes} {values values' : List α}
    (spelled : List.Forall₂ spells pieces values) (spelled' : List.Forall₂ spells pieces' values')
    (same : pieces.flatten = pieces'.flatten) : pieces = pieces' ∧ values = values' := by
  induction spelled generalizing pieces' values' with
  | nil =>
    cases spelled' with
    | nil => exact ⟨rfl, rfl⟩
    | cons first _ =>
      rw [List.flatten_nil, List.flatten_cons] at same
      exact absurd (List.append_eq_nil_iff.mp same.symm).1 (productive _ _ first)
  | cons first _ ih =>
    cases spelled' with
    | nil =>
      rw [List.flatten_nil, List.flatten_cons] at same
      exact absurd (List.append_eq_nil_iff.mp same).1 (productive _ _ first)
    | cons first' rest' =>
      rw [List.flatten_cons, List.flatten_cons] at same
      obtain ⟨rfl, rfl, tails⟩ := recognizes.unique first first' same
      obtain ⟨rfl, rfl⟩ := ih rest' tails
      exact ⟨rfl, rfl⟩

end Recognizes

theorem recognizes_readVarint : Recognizes readVarint Varint.Spells := by
  intro before value after
  unfold readVarint
  constructor
  · intro read
    split at read
    next number size decoded =>
      cases read
      obtain ⟨inside, spelled⟩ := Varint.decode_eq_ok_iff.mp decoded
      refine ⟨before.rest.take size, spelled, ?_, ?_⟩
      · simp [advance]
      · simp [advance, inside]
    · cases read
    · cases read
  · rintro ⟨bytes, spelled, passes⟩
    rw [passes.rest_eq, spelled.decode_append]
    simp only [advance, passes.rest_eq, List.drop_left, ← passes.offset_eq]

end HeaderCodec.Reader
