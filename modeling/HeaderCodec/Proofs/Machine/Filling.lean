import HeaderCodec.Machine.Filling
import HeaderCodec.Proofs.Huffman.Splitting

/-! Every byte that is decoded took five bits or more off the front of the data, so decoding puts at
most eight bytes into a buffer for every five that it reads, until it ends or fails. -/

namespace HeaderCodec

attribute [ext] Buffer

/-- More bytes were put behind those of a buffer, which did not grow if it had room for them. -/
structure Buffer.Extends (before after : Buffer) : Prop where
  front : before.bytes <+: after.bytes
  keeps : after.bytes.length ≤ before.capacity → after.capacity = before.capacity

namespace Buffer

theorem Extends.refl (buffer : Buffer) : buffer.Extends buffer := ⟨List.prefix_rfl, fun _ => rfl⟩

theorem Extends.trans {before middle after : Buffer} (first : before.Extends middle)
    (second : middle.Extends after) : before.Extends after := by
  refine ⟨first.front.trans second.front, fun room => ?_⟩
  have same := first.keeps (second.front.length_le.trans room)
  rw [second.keeps (by rwa [same]), same]

theorem extends_append (buffer : Buffer) (bytes : Bytes) :
    buffer.Extends (buffer.append bytes) := by
  refine ⟨?_, fun room => ?_⟩
  · rw [bytes_append]
    exact List.prefix_append _ _
  · rw [bytes_append, List.length_append] at room
    rw [append, reserve_of_le (by omega)]

end Buffer

theorem Huffman.SplitsOff.length_le {coded payload : Bytes} {left : List Bool}
    (split : SplitsOff (coded.flatMap bitsOf) payload left) :
    payload.length ≤ 8 * coded.length / 5 := by
  have codes : 5 * payload.length ≤ (payload.flatMap pathOf).length := by
    clear split
    induction payload with
    | nil => exact Nat.zero_le _
    | cons byte rest ih =>
      have long := five_le_length_pathOf byte
      rw [List.flatMap_cons, List.length_append, List.length_cons]
      omega
  have whole := congrArg List.length split.bits_eq
  rw [length_flatMap_bitsOf, List.length_append] at whole
  omega

theorem Huffman.Walk.decoded_of_step {walk : Walk} {bit : Bool} {failure : Failure}
    (failed : walk.step bit = .error failure) : failure.decoded = walk.decoded.reverse := by
  unfold step at failed
  split at failed <;> cases failed <;> rfl

namespace Machine.Nodes

namespace Filling

variable {nodes : Nodes} {filling : Filling} {model : Huffman.Walk}

theorem step_walk (nodes : Nodes) (filling : Filling) (decoded : Bytes) (bit : Bool) :
    (filling.walk decoded).step nodes bit =
      ((filling.walk []).step nodes bit).map fun next =>
        { next with decoded := next.decoded ++ decoded } := by
  simp only [Walk.step, walk]
  cases (add UInt32.size filling.depth 1 : Checked Huffman.Error Nat) with
  | error stop => rfl
  | ok depth =>
    cases (fetch nodes filling.place : Checked Huffman.Error Node) with
    | error stop => rfl
    | ok node =>
      simp only [Outcome.ok_bind]
      split
      · rfl
      split
      · split <;> rfl
      · rfl

/-- The filling stands where the walk over the tree stands, and the buffer holds its bytes. -/
structure Follows (nodes : Nodes) (filling : Filling) (model : Huffman.Walk) : Prop where
  tracks : Walk.Tracks nodes (filling.walk model.decoded) model
  bytes_eq : filling.buffer.bytes = model.decoded.reverse

inductive Agrees (nodes : Nodes) :
    Except Leftover Filling → Except Huffman.Failure Huffman.Walk → Prop
  | filled {filling : Filling} {model : Huffman.Walk} (follows : Follows nodes filling model) :
    Agrees nodes (.ok filling) (.ok model)
  | stopped (error : Huffman.Error) (buffer : Buffer) :
    Agrees nodes (.error ⟨.refused error, buffer⟩) (.error ⟨error, buffer.bytes⟩)

theorem Follows.step (atRoot : ∀ decoded, Walk.Tracks nodes (.atRoot decoded) (.atRoot decoded))
    (follows : Follows nodes filling model) (bit : Bool) :
    Agrees nodes (filling.step nodes bit) (model.step bit) := by
  -- The walk that is known to agree has bytes, and the filling takes the step of one without any.
  have agrees := follows.tracks.step atRoot bit
  rw [step_walk] at agrees
  rw [Filling.step]
  cases stepped : (filling.walk []).step nodes bit <;> cases went : model.step bit <;>
    rw [stepped, went] at agrees
  case error.error stop failure =>
    have bytes := Huffman.Walk.decoded_of_step went
    cases agrees with
    | refused valid decoded =>
      dsimp only at bytes ⊢
      rw [bytes, ← follows.bytes_eq]
      exact .stopped _ _
  case error.ok => cases agrees
  case ok.error => cases agrees
  case ok.ok next after =>
    cases agrees with
    | walked tracks =>
      have decoded : next.decoded ++ model.decoded = after.decoded := tracks.decoded_eq
      dsimp only at tracks
      rw [decoded] at tracks
      refine .filled ⟨tracks, ?_⟩
      rw [Buffer.bytes_append, follows.bytes_eq, ← decoded, List.reverse_append]

theorem Follows.run (atRoot : ∀ decoded, Walk.Tracks nodes (.atRoot decoded) (.atRoot decoded))
    (follows : Follows nodes filling model) (bits : List Bool) :
    Agrees nodes (bits.foldlM (Filling.step nodes) filling)
      (bits.foldlM Huffman.Walk.step model) := by
  induction bits generalizing filling model with
  | nil => exact .filled follows
  | cons bit bits ih =>
    rw [List.foldlM_cons, List.foldlM_cons]
    have stepped := follows.step atRoot bit
    cases first : filling.step nodes bit <;> cases second : model.step bit <;>
      rw [first, second] at stepped
    · cases stepped with
      | stopped error buffer => exact .stopped error buffer
    · cases stepped
    · cases stepped
    · cases stepped with
      | filled follows => exact ih follows

def left : Except Leftover Filling → Buffer
  | .error leftover => leftover.buffer
  | .ok filling => filling.buffer

theorem extends_step (nodes : Nodes) (filling : Filling) (bit : Bool) :
    filling.buffer.Extends (left (filling.step nodes bit)) := by
  rw [Filling.step]
  split
  · exact .refl _
  · exact Buffer.extends_append _ _

theorem extends_run (nodes : Nodes) (filling : Filling) (bits : List Bool) :
    filling.buffer.Extends (left (bits.foldlM (Filling.step nodes) filling)) := by
  induction bits generalizing filling with
  | nil => exact .refl _
  | cons bit bits ih =>
    have first := extends_step nodes filling bit
    rw [List.foldlM_cons]
    cases stepped : filling.step nodes bit with
    | error leftover =>
      rw [stepped] at first
      exact first
    | ok next =>
      rw [stepped] at first
      exact first.trans (ih next)

end Filling

theorem Filling.follows_atRoot {nodes : Nodes}
    (atRoot : ∀ decoded, Walk.Tracks nodes (.atRoot decoded) (.atRoot decoded)) (buffer : Buffer) :
    Follows nodes (.atRoot buffer) (.atRoot buffer.bytes.reverse) :=
  ⟨atRoot _, (List.reverse_reverse _).symm⟩

/-- Decoding into a buffer gives what decoding behind its bytes gives. -/
theorem fill_eq (coded : Bytes) (buffer : Buffer) :
    ((fill coded buffer).map Buffer.bytes).mapError
        (fun leftover => (leftover.stop, leftover.buffer.bytes)) =
      (Huffman.decodeOnto buffer.bytes coded).mapError
        fun failure => (.refused failure.error, failure.decoded) := by
  obtain ⟨nodes, plan, built, rooted, erased, complete⟩ := build_eq_ok Huffman.Error
  have atRoot := Walk.tracks_atRoot rooted erased complete
  have agrees := (Filling.follows_atRoot atRoot buffer).run atRoot (coded.flatMap Huffman.bitsOf)
  rw [fill, built, Huffman.decodeOnto, Huffman.Walk.read_eq]
  simp only [Except.mapError, Outcome.ok_bind]
  generalize (coded.flatMap Huffman.bitsOf).foldlM (Filling.step nodes) (.atRoot buffer) = filled
    at *
  generalize (coded.flatMap Huffman.bitsOf).foldlM Huffman.Walk.step
    (.atRoot buffer.bytes.reverse) = model at *
  cases agrees with
  | stopped error buffer => rfl
  | @filled filling model follows =>
    have depth : filling.depth = model.depth := follows.tracks.depth_eq
    have ones : filling.allOnes = model.allOnes := follows.tracks.allOnes_eq
    simp only [Outcome.ok_bind, Except.bind, Filling.finish, Filling.walk, Walk.finish,
      Huffman.Walk.finish, depth, ones, ← follows.bytes_eq]
    cases decide (7 < model.depth) || !model.allOnes <;> rfl

theorem extends_decodeInto (coded : Bytes) (buffer : Buffer) :
    buffer.Extends (decodeInto coded buffer).2 := by
  obtain ⟨nodes, plan, built, -⟩ := build_eq_ok Huffman.Error
  have run := Filling.extends_run nodes (.atRoot buffer) (coded.flatMap Huffman.bitsOf)
  rw [decodeInto, fill, built]
  simp only [Except.mapError, Outcome.ok_bind]
  cases filled : (coded.flatMap Huffman.bitsOf).foldlM (Filling.step nodes) (.atRoot buffer) with
  | error leftover =>
    rw [filled] at run
    exact run
  | ok filling =>
    rw [filled] at run
    rw [Outcome.ok_bind, Filling.finish]
    cases (filling.walk []).finish <;> exact run

theorem decodeInto_of_splitsOff {coded payload : Bytes} {left : List Bool}
    (split : Huffman.SplitsOff (coded.flatMap Huffman.bitsOf) payload left) (buffer : Buffer) :
    (decodeInto coded buffer).1.map (fun _ => payload) = decode coded ∧
      (decodeInto coded buffer).2.bytes = buffer.bytes ++ payload := by
  have same := fill_eq coded buffer
  rw [decodeInto, (decode_eq coded).1, Huffman.decode, split.decodeOnto_eq]
  rw [split.decodeOnto_eq] at same
  cases filled : fill coded buffer with
  | error leftover =>
    obtain ⟨stop, after⟩ := leftover
    rw [filled] at same
    split_ifs at same ⊢ <;> simp only [Except.map, Except.mapError, reduceCtorEq,
      Except.error.injEq, Prod.mk.injEq] at same
    all_goals
      obtain ⟨rfl, bytes⟩ := same
      exact ⟨rfl, bytes⟩
  | ok after =>
    rw [filled] at same
    split_ifs at same ⊢ <;> simp only [Except.map, Except.mapError, reduceCtorEq,
      Except.ok.injEq] at same
    exact ⟨rfl, same⟩

/-- Data decodes to at most eight bytes for every five that it has, and they are put behind those
of the buffer before decoding ends or fails. A buffer with room for as many does not grow, and so
the one that is set aside for a literal takes them all. -/
theorem decoding_stays_in_room (coded : Bytes) :
    ∃ emitted : Bytes, emitted.length ≤ 8 * coded.length / 5 ∧
      (∀ buffer, Huffman.decodeOnto buffer coded = .ok (buffer ++ emitted) ∨
        ∃ error, Huffman.decodeOnto buffer coded = .error ⟨error, buffer ++ emitted⟩) ∧
      (∀ buffer : Buffer,
        (decodeInto coded buffer).1.map (fun _ => emitted) = decode coded ∧
        (decodeInto coded buffer).2.bytes = buffer.bytes ++ emitted ∧
        (buffer.bytes.length + 8 * coded.length / 5 ≤ buffer.capacity →
          (decodeInto coded buffer).2.capacity = buffer.capacity)) ∧
      (decodeInto coded ⟨[], coded.length * 8 / 5 + 1⟩).2 =
        ⟨emitted, coded.length * 8 / 5 + 1⟩ := by
  obtain ⟨emitted, left, split⟩ := Huffman.exists_splitsOff (coded.flatMap Huffman.bitsOf)
  have short := split.length_le
  have keeps (buffer : Buffer)
      (room : buffer.bytes.length + 8 * coded.length / 5 ≤ buffer.capacity) :
      (decodeInto coded buffer).2.capacity = buffer.capacity := by
    apply (extends_decodeInto coded buffer).keeps
    rw [(decodeInto_of_splitsOff split buffer).2, List.length_append]
    omega
  refine ⟨emitted, short, ?_, ?_, ?_⟩
  · intro buffer
    rw [split.decodeOnto_eq]
    split_ifs
    · exact .inr ⟨_, rfl⟩
    · exact .inl rfl
    · exact .inr ⟨_, rfl⟩
  · intro buffer
    obtain ⟨ends, bytes⟩ := decodeInto_of_splitsOff split buffer
    exact ⟨ends, bytes, keeps buffer⟩
  · have bytes := (decodeInto_of_splitsOff split ⟨[], coded.length * 8 / 5 + 1⟩).2
    have capacity := keeps ⟨[], coded.length * 8 / 5 + 1⟩ (by dsimp only [List.length_nil]; omega)
    exact Buffer.ext bytes capacity

theorem decoding_stays_in_room_filled :
    let buffer : Buffer := ⟨[7], 10⟩
    buffer.bytes.length + 8 * 6 / 5 ≤ buffer.capacity ∧
      (decodeInto [0, 0, 0, 0, 0, 24] buffer).2 =
        ⟨[7, 48, 48, 48, 48, 48, 48, 48, 48, 97], 10⟩ := by
  intro buffer
  have refused : Huffman.decodeOnto [7] [0, 0, 0, 0, 0, 24] =
      .error ⟨.invalidPadding, [7, 48, 48, 48, 48, 48, 48, 48, 48, 97]⟩ := by
    decide +kernel
  obtain ⟨emitted, -, plain, into, -⟩ := decoding_stays_in_room [0, 0, 0, 0, 0, 24]
  obtain ⟨-, bytes, keeps⟩ := into buffer
  have room : buffer.bytes.length + 8 * 6 / 5 ≤ buffer.capacity := by
    decide
  have capacity := keeps room
  have whole : [7] ++ emitted = [7, 48, 48, 48, 48, 48, 48, 48, 48, 97] := by
    obtain decoded | ⟨error, failed⟩ := plain [7]
    · cases refused.symm.trans decoded
    · exact congrArg Huffman.Failure.decoded (Except.error.inj (failed.symm.trans refused))
  refine ⟨room, ?_⟩
  exact Buffer.ext (bytes.trans whole) capacity

end Machine.Nodes

end HeaderCodec
