import HeaderCodec.Proofs.RoundTrip
import HeaderCodec.Proofs.Stream.Frame

/-! Packing stops at the first field that is incomplete or brings the body above the maximum.
Nothing behind it is looked at, and nothing is written unless all of the list can be packed. -/

namespace HeaderCodec

namespace Codec

variable {codec : Codec} {fields front rest : List Field} {field : Field} {position size : Nat}

theorem encodeFrom_cons_of_ok {done : List Bytes} {body : Bytes}
    (packed : codec.encodeFrom position size done (field :: rest) = .ok body)
    (others : List Field) :
    codec.encodeFrom position size done (field :: others) =
      codec.encodeFrom (position + 1) (size + (codec.encodeField field).length)
        (codec.encodeField field :: done) others := by
  have complete := complete_of_encodeFrom packed
  rw [encodeFrom_of_complete complete] at packed ⊢
  split at packed
  · cases packed
  next fits => rw [if_neg fits]

theorem encodeFrom_append_of_ok {done : List Bytes} {body : Bytes}
    (packed : codec.encodeFrom position size done front = .ok body) (rest : List Field) :
    codec.encodeFrom position size done (front ++ rest) =
      codec.encodeFrom (position + front.length) (size + (front.flatMap codec.encodeField).length)
        ((front.map codec.encodeField).reverse ++ done) rest := by
  induction front generalizing position size done with
  | nil => rfl
  | cons field front ih =>
    have step := encodeFrom_cons_of_ok packed
    rw [step front] at packed
    rw [List.cons_append, step (front ++ rest), ih packed, List.length_cons, List.flatMap_cons,
      List.length_append, List.map_cons, List.reverse_cons, List.append_assoc,
      List.singleton_append, Nat.add_right_comm position, Nat.add_assoc position,
      Nat.add_assoc size]

theorem encodeFrom_append_of_error {done : List Bytes} {cause : EncodeError}
    (refused : codec.encodeFrom position size done front = .error cause) (rest : List Field) :
    codec.encodeFrom position size done (front ++ rest) = .error cause := by
  induction front generalizing position size done with
  | nil => cases refused
  | cons field front ih =>
    rw [List.cons_append, encodeFrom]
    rw [encodeFrom] at refused
    split at refused
    next unnamed => rwa [if_pos unnamed]
    next named =>
    rw [if_neg named]
    split at refused
    next unvalued => rwa [if_pos unvalued]
    next valued =>
    rw [if_neg valued]
    dsimp only at refused ⊢
    split at refused
    next large => rwa [if_pos large]
    next fits =>
      rw [if_neg fits]
      exact ih refused

/-- The summed length of the encodings of the fields up to a position, its own included. -/
def sizeThrough (codec : Codec) (fields : List Field) (position : Nat) : Nat :=
  ((fields.take (position + 1)).map fun field => (codec.encodeField field).length).sum

/-- The field at this position is incomplete, or too much together with those before. -/
def StopsAt (codec : Codec) (fields : List Field) (position : Nat) (field : Field) : Prop :=
  fields[position]? = some field ∧
    (field.name = [] ∨ field.value = [] ∨
      codec.maxFrameSize < codec.sizeThrough fields position)

/-- A missing name counts before a missing value, and both before the size. -/
def stopCause (codec : Codec) (fields : List Field) (position : Nat) (field : Field) :
    EncodeError :=
  if field.name = [] then .emptyName position
  else if field.value = [] then .emptyValue position
  else .frameTooLarge codec.maxFrameSize (codec.sizeThrough fields position)

theorem encodeBody_of_no_stop
    (passes : ∀ position field, ¬codec.StopsAt fields position field) :
    codec.encodeBody fields = .ok (fields.flatMap codec.encodeField) := by
  refine encodeBody_eq_ok_iff.mpr ⟨?_, ?_, rfl⟩
  · intro field listed
    obtain ⟨position, here⟩ := List.mem_iff_getElem?.mp listed
    constructor
    · intro unnamed
      exact passes position field ⟨here, .inl unnamed⟩
    · intro unvalued
      exact passes position field ⟨here, .inr (.inl unvalued)⟩
  · rcases fields.eq_nil_or_concat with rfl | ⟨earlier, last, rfl⟩
    · exact Nat.zero_le _
    · apply Nat.le_of_not_lt
      intro large
      -- The size of all fields is the size up to the last one.
      refine passes earlier.length last ⟨by simp, .inr (.inr ?_)⟩
      rw [List.length_flatMap] at large
      rw [sizeThrough, List.take_of_length_le (by simp)]
      exact large

theorem stopsAt_append_iff (inside : position < front.length) :
    codec.StopsAt (front ++ rest) position field ↔ codec.StopsAt front position field := by
  have through : codec.sizeThrough (front ++ rest) position = codec.sizeThrough front position := by
    rw [sizeThrough, sizeThrough, List.take_append_of_le_length inside]
  rw [StopsAt, StopsAt, through, List.getElem?_append_left inside]

theorem encodeBody_of_first_stop (stops : codec.StopsAt fields position field)
    (first : ∀ earlier < position, ∀ other, ¬codec.StopsAt fields earlier other) :
    codec.encodeBody fields = .error (codec.stopCause fields position field) := by
  obtain ⟨here, cause⟩ := stops
  obtain ⟨inside, rfl⟩ := List.getElem?_eq_some_iff.mp here
  have length : (fields.take position).length = position :=
    List.length_take_of_le (Nat.le_of_lt inside)
  have split : fields.take position ++ fields[position] :: fields.drop (position + 1) = fields := by
    rw [List.cons_getElem_drop_succ, List.take_append_drop]
  have packed : codec.encodeFrom 0 0 [] (fields.take position) =
      .ok ((fields.take position).flatMap codec.encodeField) := by
    apply encodeBody_of_no_stop
    intro earlier other stops
    obtain ⟨before, -⟩ := List.getElem?_eq_some_iff.mp stops.1
    rw [← stopsAt_append_iff before, split] at stops
    rw [length] at before
    exact first earlier before other stops
  have through : ((fields.take position).flatMap codec.encodeField).length +
      (codec.encodeField fields[position]).length = codec.sizeThrough fields position := by
    rw [sizeThrough, List.take_succ_eq_append_getElem inside, List.map_append, List.sum_append,
      List.length_flatMap]
    simp
  have run := encodeFrom_append_of_ok packed (fields[position] :: fields.drop (position + 1))
  rw [split, length, Nat.zero_add, Nat.zero_add] at run
  rw [encodeBody, run, encodeFrom, stopCause]
  simp only [List.isEmpty_iff, through]
  split
  · rfl
  next named =>
  split
  · rfl
  next valued => rw [if_pos ((cause.resolve_left named).resolve_left valued)]

end Codec

namespace Endpoint

/-- The fields are packed behind what the buffer holds, and nothing of them is left in the
scratch. -/
def Appends (endpoint : Endpoint) (fields : List Field) (buffer : Buffer) (bytes : Bytes) : Prop :=
  ∃ after : Buffer, endpoint.encodeInto fields buffer = (.ok bytes.length, endpoint.clear, after) ∧
    after.bytes = buffer.bytes ++ bytes

variable {endpoint : Endpoint} {fields : List Field}

theorem appends_of_encodeBody {body : Bytes} (packed : endpoint.codec.encodeBody fields = .ok body)
    (buffer : Buffer) : endpoint.Appends fields buffer (Codec.frameOf body) := by
  refine ⟨_, ?_, buffer.bytes_append _⟩
  rw [encodeInto_of_ok packed, Codec.length_frameOf]

theorem encodeInto_fst (endpoint : Endpoint) (fields : List Field) (buffer : Buffer) :
    (endpoint.encodeInto fields buffer).1 =
      (endpoint.codec.encodeBody fields).map fun body =>
        Limits.frameLengthSize + body.length := by
  cases packed : endpoint.codec.encodeBody fields with
  | error cause => rw [encodeInto_of_error packed, Except.map]
  | ok body => rw [encodeInto_of_ok packed, Except.map]

/-- Packing into a buffer fails for the first field at which it has to stop, and leaves the buffer
alone. If it stops nowhere it appends a frame: the length of the body in two bytes, and the
encodings of the fields, each as if the field were alone. -/
theorem encodeInto_outcome (reachable : endpoint.codec.Reachable) (fields : List Field)
    (buffer : Buffer) :
    (∀ position field, endpoint.codec.StopsAt fields position field →
      (∀ earlier < position, ∀ other, ¬endpoint.codec.StopsAt fields earlier other) →
      endpoint.encodeInto fields buffer =
        (.error (endpoint.codec.stopCause fields position field), endpoint.clear, buffer)) ∧
    ((∀ position field, ¬endpoint.codec.StopsAt fields position field) →
      let body := fields.flatMap endpoint.codec.encodeField
      endpoint.Appends fields buffer (Bytes.ofNatLE 2 body.length ++ body) ∧
      Bytes.toNatLE (Bytes.ofNatLE 2 body.length) = body.length ∧
      ∀ field ∈ fields, ∀ other,
        let piece := endpoint.codec.encodeField field
        endpoint.Appends [field] other (Bytes.ofNatLE 2 piece.length ++ piece)) ∧
    ∀ front, front <+: fields →
      (∀ size, (endpoint.encodeInto fields buffer).1 = .ok size →
        ∃ less, (endpoint.encodeInto front buffer).1 = .ok less) ∧
      ∀ cause, (endpoint.encodeInto front buffer).1 = .error cause →
        (endpoint.encodeInto fields buffer).1 = .error cause := by
  refine ⟨?_, ?_, ?_⟩
  · intro position field stops first
    exact encodeInto_of_error (Codec.encodeBody_of_first_stop stops first) buffer
  · intro passes body
    have packed := Codec.encodeBody_of_no_stop passes
    obtain ⟨complete, fits, -⟩ := Codec.encodeBody_eq_ok_iff.mp packed
    refine ⟨appends_of_encodeBody packed buffer, ?_, ?_⟩
    · exact ByteQueue.toNatLE_opening (fits.trans reachable.sound.le_max)
    · intro field listed other
      refine appends_of_encodeBody (Codec.encodeBody_eq_ok_iff.mpr ⟨?_, ?_, ?_⟩) other
      · rw [List.forall_mem_singleton]
        exact complete field listed
      · exact (Reader.length_le_flatMap listed endpoint.codec.encodeField).trans fits
      · rw [List.flatMap_singleton]
  · rintro front ⟨rest, rfl⟩
    have refused : ∀ cause, (endpoint.encodeInto front buffer).1 = .error cause →
        (endpoint.encodeInto (front ++ rest) buffer).1 = .error cause := by
      intro cause failed
      rw [encodeInto_fst, Outcome.map_eq_error_iff] at failed ⊢
      exact Codec.encodeFrom_append_of_error failed rest
    refine ⟨?_, refused⟩
    intro size packed
    cases outcome : (endpoint.encodeInto front buffer).1 with
    | ok less => exact ⟨less, rfl⟩
    | error cause =>
      rw [refused cause outcome] at packed
      cases packed

def stained : Endpoint := ⟨Codec.sample, [7, 7, 7]⟩

/-- A name and a pair that the dictionary has, a value that is too long, and an empty field. -/
def overlong : List Field :=
  [⟨[88, 45], [97]⟩, ⟨[120, 45, 84], [49]⟩, ⟨[65], List.replicate 80 1⟩, ⟨[], []⟩]

theorem encodeInto_outcome_overlong :
    stained.codec.Reachable ∧
      stained.encodeInto overlong ⟨[170], 1⟩ =
        (.error (.frameTooLarge 64 91), stained.clear, ⟨[170], 1⟩) ∧
      stained.Appends (overlong.take 2) ⟨[170], 1⟩ [6, 0, 2, 0, 2, 97, 3, 2] := by
  have known : ∀ position field, ¬stained.codec.StopsAt (overlong.take 2) position field := by
    have name : stained.codec.sizeThrough (overlong.take 2) 0 = 4 := by
      cbv
    have pair : stained.codec.sizeThrough (overlong.take 2) 1 = 6 := by
      cbv
    rintro (_ | _ | position) field ⟨here, cause⟩
    · cases here
      rw [name] at cause
      revert cause
      decide
    · cases here
      rw [pair] at cause
      revert cause
      decide
    · cases here
  have through : stained.codec.sizeThrough overlong 2 = 91 := by
    cbv
  have reachable : stained.codec.Reachable := Codec.reachable_sample
  obtain ⟨stopped, -⟩ := encodeInto_outcome reachable overlong ⟨[170], 1⟩
  obtain ⟨-, packed, -⟩ := encodeInto_outcome reachable (overlong.take 2) ⟨[170], 1⟩
  refine ⟨reachable, ?_, ?_⟩
  · have stops : stained.codec.StopsAt overlong 2 ⟨[65], List.replicate 80 1⟩ := by
      refine ⟨rfl, .inr (.inr ?_)⟩
      rw [through]
      decide
    have first := stopped 2 _ stops fun earlier before other => by
      rw [← List.take_append_drop 2 overlong, Codec.stopsAt_append_iff before]
      exact known earlier other
    rw [Codec.stopCause, through] at first
    exact first
  · have appended := (packed known).1
    have body : (overlong.take 2).flatMap stained.codec.encodeField = [2, 0, 2, 97, 3, 2] := by
      cbv
    rw [body] at appended
    exact appended

end Endpoint

end HeaderCodec
