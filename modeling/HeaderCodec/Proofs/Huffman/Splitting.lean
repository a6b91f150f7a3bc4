import HeaderCodec.Proofs.Huffman.Canonical
import HeaderCodec.Proofs.Machine.Nodes

/-! No code opens another, so there is one way to take codes off the front of some bits, and what is
left tells how decoding ends. -/

namespace HeaderCodec.Huffman

/-- The codes of the bytes of `payload` were taken off the front of `bits`, and none opens the
bits that are left. -/
structure SplitsOff (bits : List Bool) (payload : Bytes) (left : List Bool) : Prop where
  bits_eq : bits = payload.flatMap pathOf ++ left
  stops : ∀ byte, ¬pathOf byte <+: left

def IsPadding (left : List Bool) : Prop :=
  left.length ≤ 7 ∧ left.all id = true

instance (left : List Bool) : Decidable (IsPadding left) :=
  inferInstanceAs (Decidable (_ ∧ _))

variable {bits left left' : List Bool} {payload payload' : Bytes}

theorem eq_of_pathOf_opens {first second : UInt8} (opens : pathOf first <+: pathOf second) :
    first = second := by
  obtain ⟨more, whole⟩ := opens
  have reached := follow_pathOf second
  rw [← whole, Tree.follow_append, follow_pathOf] at reached
  cases more with
  | nil =>
    cases reached
    rfl
  | cons bit more => exact absurd reached Tree.follow_leaf_ne_leaf

theorem exists_splitsOff (bits : List Bool) : ∃ payload left, SplitsOff bits payload left := by
  by_cases opens : ∃ byte, pathOf byte <+: bits
  · obtain ⟨byte, rest, whole⟩ := opens
    have shorter : rest.length < bits.length := by
      have long := five_le_length_pathOf byte
      rw [← whole, List.length_append]
      omega
    obtain ⟨payload, left, split⟩ := exists_splitsOff rest
    refine ⟨byte :: payload, left, ?_, split.stops⟩
    rw [List.flatMap_cons, List.append_assoc, ← split.bits_eq, whole]
  · exact ⟨[], bits, rfl, fun byte here => opens ⟨byte, here⟩⟩
termination_by bits.length

theorem SplitsOff.unique (split : SplitsOff bits payload left)
    (split' : SplitsOff bits payload' left') : payload' = payload ∧ left' = left := by
  have whole := split.bits_eq.symm.trans split'.bits_eq
  induction payload generalizing bits payload' with
  | nil =>
    cases payload' with
    | nil => exact ⟨rfl, whole.symm⟩
    | cons byte rest =>
      rw [List.flatMap_cons, List.append_assoc] at whole
      exact absurd ⟨_, whole.symm⟩ (split.stops byte)
  | cons byte rest ih =>
    rw [List.flatMap_cons, List.append_assoc] at whole
    cases payload' with
    | nil => exact absurd ⟨_, whole⟩ (split'.stops byte)
    | cons byte' rest' =>
      rw [List.flatMap_cons, List.append_assoc] at whole
      have opens : pathOf byte <+: pathOf byte' ++ (rest'.flatMap pathOf ++ left') := ⟨_, whole⟩
      have same : byte = byte' := by
        rcases List.prefix_or_prefix_of_prefix opens (List.prefix_append _ _) with shorter | longer
        · exact eq_of_pathOf_opens shorter
        · exact (eq_of_pathOf_opens longer).symm
      rw [same, List.append_cancel_left_eq] at whole
      obtain ⟨rfl, rfl⟩ := ih ⟨rfl, split.stops⟩ ⟨whole, split'.stops⟩ whole
      exact ⟨by rw [same], rfl⟩

/-- In a tree without loose ends a path meets a leaf or stays on nodes. -/
theorem Tree.leaf_or_isNode {tree : Tree} {depth : Nat}
    (complete : tree.completeWithin depth = true) (path : List Bool) :
    (∃ front symbol, front <+: path ∧ tree.follow front = leaf symbol) ∨
      (tree.follow path).isNode = true := by
  induction path generalizing tree depth with
  | nil =>
    cases tree with
    | missing => cases depth <;> cases complete
    | leaf symbol => exact .inl ⟨[], symbol, List.prefix_rfl, rfl⟩
    | node zero one => exact .inr rfl
  | cons bit path ih =>
    cases tree with
    | missing => cases depth <;> cases complete
    | leaf symbol => exact .inl ⟨[], symbol, List.nil_prefix, rfl⟩
    | node zero one =>
      obtain ⟨less, rfl, children⟩ := completeWithin_child complete
      refine (ih (children bit)).imp_left ?_
      rintro ⟨front, symbol, opens, reached⟩
      exact ⟨bit :: front, symbol, List.cons_prefix_cons.mpr ⟨rfl, opens⟩, reached⟩

theorem completeWithin_codeTree : codeTree.completeWithin 30 = true := by
  obtain ⟨-, -, -, -, -, complete⟩ := Machine.build_eq_ok Error
  exact complete

theorem isNode_follow_of_stops (stops : ∀ byte, ¬pathOf byte <+: left)
    (unended : ¬endOfStringCode.path <+: left) : (codeTree.follow left).isNode = true := by
  apply (Tree.leaf_or_isNode completeWithin_codeTree left).resolve_left
  rintro ⟨front, symbol, opens, reached⟩
  cases symbol with
  | byte value =>
    rw [eq_pathOf_of_follow reached] at opens
    exact stops value opens
  | endOfString =>
    rw [eq_endOfStringCode_of_follow reached] at opens
    exact unended opens

theorem IsPadding.not_ended (padding : IsPadding left) : ¬endOfStringCode.path <+: left := by
  intro ended
  have long : endOfStringCode.length ≤ left.length := by
    rw [← Code.length_path]
    exact ended.length_le
  exact absurd (long.trans padding.1) (by decide)

theorem SplitsOff.foldlM_step (split : SplitsOff bits payload left) (decoded : Bytes) :
    bits.foldlM Walk.step (.atRoot decoded) =
      left.foldlM Walk.step (.atRoot (payload.reverse ++ decoded)) := by
  rw [split.bits_eq, List.foldlM_append, Walk.foldlM_step_codes, Outcome.ok_bind]

/-- The bytes that were split off are decoded, and what is left decides how decoding ends. -/
theorem SplitsOff.decodeOnto_eq {coded : Bytes}
    (split : SplitsOff (coded.flatMap bitsOf) payload left) (buffer : Bytes) :
    decodeOnto buffer coded =
      if endOfStringCode.path <+: left then .error ⟨.endOfStringInside, buffer ++ payload⟩
      else if IsPadding left then .ok (buffer ++ payload)
      else .error ⟨.invalidPadding, buffer ++ payload⟩ := by
  have bytes : (payload.reverse ++ buffer.reverse).reverse = buffer ++ payload := by
    rw [List.reverse_append, List.reverse_reverse, List.reverse_reverse]
  rw [decodeOnto, Walk.read_eq, split.foldlM_step]
  split
  next ended =>
    obtain ⟨more, rfl⟩ := ended
    have leaf : (Walk.atRoot (payload.reverse ++ buffer.reverse)).tree.follow
        endOfStringCode.path = .leaf .endOfString := by
      rw [Walk.tree_atRoot, follow_endOfStringCode]
    rw [List.foldlM_append, Walk.foldlM_step_of_leaf leaf (List.cons_ne_nil _ _), Walk.arrive,
      Outcome.error_bind, Walk.decoded_atRoot, bytes]
    rfl
  next unended =>
    have inner : ((Walk.atRoot (payload.reverse ++ buffer.reverse)).tree.follow left).isNode =
        true := by
      rw [Walk.tree_atRoot, isNode_follow_of_stops split.stops unended]
    rw [Walk.foldlM_step_of_isNode inner, Walk.decoded_atRoot]
    simp only [Except.bind, Walk.finish, Walk.atRoot, Nat.zero_add, Bool.true_and, bytes,
      Bool.or_eq_true, decide_eq_true_eq, Bool.not_eq_true']
    by_cases padding : IsPadding left
    · have inside : ¬(7 < left.length ∨ left.all id = false) := by
        simp [padding.2, padding.1]
      rw [if_neg inside, if_pos padding]
    · have outside : 7 < left.length ∨ left.all id = false := by
        rw [IsPadding, not_and_or, Bool.not_eq_true, Nat.not_le] at padding
        exact padding
      rw [if_pos outside, if_neg padding]

/-- Coded data is split by the table in exactly one way. Decoding gives the bytes that were split
off and then ends as what is left says: inside the end of a string, with a padding, or with bits
that are none. Decoding on the array of nodes does the same. -/
theorem decoding_classified (coded : Bytes) :
    (∃! split : Bytes × List Bool, SplitsOff (coded.flatMap bitsOf) split.1 split.2) ∧
    (∀ buffer payload left, SplitsOff (coded.flatMap bitsOf) payload left →
      (decodeOnto buffer coded = .error ⟨.endOfStringInside, buffer ++ payload⟩ ↔
        endOfStringCode.path <+: left) ∧
      (decodeOnto buffer coded = .ok (buffer ++ payload) ↔
        left.length ≤ 7 ∧ left.all id = true) ∧
      (decodeOnto buffer coded = .error ⟨.invalidPadding, buffer ++ payload⟩ ↔
        ¬endOfStringCode.path <+: left ∧ ¬(left.length ≤ 7 ∧ left.all id = true)) ∧
      (∀ result, decodeOnto buffer coded = .ok result → result = buffer ++ payload) ∧
      ∀ failure, decodeOnto buffer coded = .error failure →
        failure.error ≠ .invalidCode ∧ failure.decoded = buffer ++ payload) ∧
    Machine.Nodes.decode coded = (decodeOnto [] coded).mapError (.refused ·.error) := by
  refine ⟨?_, ?_, (Machine.Nodes.decode_eq coded).1⟩
  · obtain ⟨payload, left, split⟩ := exists_splitsOff (coded.flatMap bitsOf)
    exact ⟨(payload, left), split, fun _ split' => Prod.ext_iff.mpr (split.unique split')⟩
  · intro buffer payload left split
    have exclusive : IsPadding left → ¬endOfStringCode.path <+: left := IsPadding.not_ended
    change _ ∧ (_ ↔ IsPadding left) ∧ (_ ↔ _ ∧ ¬IsPadding left) ∧ _
    rw [split.decodeOnto_eq buffer]
    split
    next ended => simp [ended, mt exclusive (not_not.mpr ended)]
    next unended => split <;> simp [*]

theorem decoding_classified_ended :
    SplitsOff (([31, 255, 255, 255, 255] : Bytes).flatMap bitsOf) [97] (List.replicate 35 true) ∧
      decodeOnto [7] [31, 255, 255, 255, 255] = .error ⟨.endOfStringInside, [7, 97]⟩ := by
  have stops : ∀ byte : UInt8, ¬pathOf byte <+: List.replicate 35 true := by
    have all : ∀ n : Fin 256, ¬pathOf n.val.toUInt8 <+: List.replicate 35 true := by
      decide +kernel
    intro byte
    have opens := all ⟨byte.toNat, byte.toNat_lt⟩
    simpa using opens
  have split : SplitsOff (([31, 255, 255, 255, 255] : Bytes).flatMap bitsOf) [97]
      (List.replicate 35 true) := ⟨by decide, stops⟩
  obtain ⟨ended, -⟩ := (decoding_classified _).2.1 [7] _ _ split
  exact ⟨split, ended.mpr (by decide)⟩

end HeaderCodec.Huffman
