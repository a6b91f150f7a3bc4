import HeaderCodec.Proofs.Huffman.RoundTrip

/-! The leaves of the code tree are the symbols of the code and no others. So a walk that emitted
some bytes went along their codes, and what is left of the last byte can only be ones. -/

namespace HeaderCodec.Huffman

theorem Code.path_injective {length first second : Nat} (small : first < 2 ^ length)
    (small' : second < 2 ^ length) (same : (mk first length).path = (mk second length).path) :
    first = second := by
  have digits : ∀ i ∈ List.range length,
      first.testBit (length - 1 - i) = second.testBit (length - 1 - i) :=
    List.map_inj_left.mp same
  apply Nat.eq_of_testBit_eq
  intro i
  by_cases inside : i < length
  · have digit := digits (length - 1 - i) (List.mem_range.mpr (by omega))
    have place : length - 1 - (length - 1 - i) = i := by omega
    rwa [place] at digit
  · have room : 2 ^ length ≤ 2 ^ i := Nat.pow_le_pow_right (by decide) (Nat.le_of_not_lt inside)
    rw [Nat.testBit_lt_two_pow (Nat.lt_of_lt_of_le small room),
      Nat.testBit_lt_two_pow (Nat.lt_of_lt_of_le small' room)]

theorem bitsOf_injective {first second : UInt8} (same : bitsOf first = bitsOf second) :
    first = second :=
  UInt8.toNat_inj.mp (Code.path_injective first.toNat_lt second.toNat_lt same)

theorem flatMap_bitsOf_injective {first second : Bytes}
    (same : first.flatMap bitsOf = second.flatMap bitsOf) : first = second := by
  induction first generalizing second with
  | nil =>
    have length := congrArg List.length same
    rw [length_flatMap_bitsOf, length_flatMap_bitsOf, List.length_nil] at length
    exact (List.eq_nil_of_length_eq_zero (by omega)).symm
  | cons byte rest ih =>
    cases second with
    | nil =>
      have length := congrArg List.length same
      rw [length_flatMap_bitsOf, length_flatMap_bitsOf, List.length_cons, List.length_nil] at length
      omega
    | cons byte' rest' =>
      rw [List.flatMap_cons, List.flatMap_cons] at same
      obtain ⟨heads, tails⟩ := List.append_inj same (by rw [length_bitsOf, length_bitsOf])
      rw [bitsOf_injective heads, ih tails]

/-- Whole bytes leave no choice of how many ones fill the last of them. -/
theorem eq_of_bits_padded {first second : Bytes} {bits : List Bool} {padding padding' : Nat}
    (short : padding < 8) (short' : padding' < 8)
    (filled : first.flatMap bitsOf = bits ++ List.replicate padding true)
    (filled' : second.flatMap bitsOf = bits ++ List.replicate padding' true) :
    first = second := by
  have length := congrArg List.length filled
  have length' := congrArg List.length filled'
  rw [length_flatMap_bitsOf, List.length_append, List.length_replicate] at length length'
  have same : padding = padding' := by omega
  rw [← same] at filled'
  exact flatMap_bitsOf_injective (filled.trans filled'.symm)

theorem encodeOnto_eq_append (buffer payload : Bytes) :
    encodeOnto buffer payload = buffer ++ encode payload := by
  obtain ⟨padding, short, filled⟩ := bitsOf_encodeOnto buffer payload
  obtain ⟨padding', short', filled'⟩ := bitsOf_encode payload
  refine eq_of_bits_padded short short' filled ?_
  rw [List.flatMap_append, filled', List.append_assoc]

namespace Tree

theorem follow_leaf_ne_leaf {symbol found : Symbol} {bit : Bool} {path : List Bool} :
    (leaf symbol).follow (bit :: path) ≠ leaf found := by
  intro reached
  exact absurd (Tree.isNode_of_follow_cons (by rw [reached]; simp)) (by simp [isNode])

theorem child_insert_cons (tree : Tree) (bit other : Bool) (path : List Bool) (symbol : Symbol) :
    (tree.insert (bit :: path) symbol).child other =
      if other = bit then (tree.child bit).insert path symbol else tree.child other := by
  cases tree <;> cases bit <;> cases other <;> rfl

theorem isNode_insert_cons (tree : Tree) (bit : Bool) (path : List Bool) (symbol : Symbol) :
    (tree.insert (bit :: path) symbol).isNode = true := by
  cases tree <;> cases bit <;> rfl

theorem follow_insert {tree : Tree} {path other : List Bool} {symbol found : Symbol}
    (reached : (tree.insert path symbol).follow other = leaf found) :
    (found, other) = (symbol, path) ∨ tree.follow other = leaf found := by
  induction path generalizing tree other with
  | nil =>
    have placed : tree.insert [] symbol = leaf symbol := by
      cases tree <;> rfl
    rw [placed] at reached
    cases other with
    | nil =>
      cases reached
      exact .inl rfl
    | cons bit rest => exact absurd reached follow_leaf_ne_leaf
  | cons bit path ih =>
    cases other with
    | nil =>
      have node := isNode_insert_cons tree bit path symbol
      rw [follow_nil] at reached
      rw [reached] at node
      cases node
    | cons first rest =>
      rw [follow_cons, child_insert_cons] at reached
      split at reached
      next same =>
        rw [same, follow_cons]
        refine (ih reached).imp_left fun here => ?_
        rw [Prod.mk.injEq] at here ⊢
        exact ⟨here.1, by rw [here.2]⟩
      next => exact .inr reached

theorem follow_foldl_insert {entries : List (Symbol × List Bool)} {tree : Tree}
    {path : List Bool} {found : Symbol}
    (reached : (entries.foldl (fun tree (symbol, path) => tree.insert path symbol) tree).follow
      path = leaf found) :
    (found, path) ∈ entries ∨ tree.follow path = leaf found := by
  induction entries generalizing tree with
  | nil => exact .inr reached
  | cons entry rest ih =>
    rcases ih reached with later | earlier
    · exact .inl (List.mem_cons_of_mem _ later)
    · refine (follow_insert earlier).imp_left fun here => ?_
      rw [here]
      exact List.mem_cons_self

end Tree

theorem mem_symbolPaths_of_follow {path : List Bool} {symbol : Symbol}
    (reached : codeTree.follow path = .leaf symbol) : (symbol, path) ∈ symbolPaths := by
  rcases Tree.follow_foldl_insert reached with listed | missing
  · exact listed
  · rw [Tree.follow_missing] at missing
    cases missing

theorem eq_pathOf_of_follow {path : List Bool} {value : UInt8}
    (reached : codeTree.follow path = .leaf (.byte value)) : path = pathOf value := by
  rcases List.mem_append.mp (mem_symbolPaths_of_follow reached) with byte | last
  · obtain ⟨i, -, entry⟩ := List.mem_map.mp byte
    rw [Prod.mk.injEq, Symbol.byte.injEq] at entry
    rw [← entry.2, entry.1]
  · rw [List.mem_singleton, Prod.mk.injEq] at last
    cases last.1

theorem eq_endOfStringCode_of_follow {path : List Bool}
    (reached : codeTree.follow path = .leaf .endOfString) : path = endOfStringCode.path := by
  rcases List.mem_append.mp (mem_symbolPaths_of_follow reached) with byte | last
  · obtain ⟨i, -, entry⟩ := List.mem_map.mp byte
    rw [Prod.mk.injEq] at entry
    cases entry.1
  · exact congrArg Prod.snd (List.mem_singleton.mp last)

namespace Walk

/-- The walk has read the codes of `payload` on top of the bytes that it began with, and after
them the bits `pending` of a code that is not complete. -/
structure Reads (walk : Walk) (before payload : Bytes) (pending : List Bool) : Prop where
  decoded_eq : walk.decoded = payload.reverse ++ before
  tree_eq : walk.tree = codeTree.follow pending
  depth_eq : walk.depth = pending.length
  allOnes_eq : walk.allOnes = pending.all id

theorem reads_atRoot (before : Bytes) : (atRoot before).Reads before [] [] :=
  ⟨rfl, by rw [tree_atRoot, Tree.follow_nil], rfl, rfl⟩

section

variable {walk after : Walk} {before payload : Bytes} {pending : List Bool} {bit : Bool}

theorem Reads.step (reads : walk.Reads before payload pending) (stepped : walk.step bit = .ok after) :
    (∃ value, pending ++ [bit] = pathOf value ∧ after.Reads before (payload ++ [value]) []) ∨
      after.Reads before payload (pending ++ [bit]) := by
  have below : codeTree.follow (pending ++ [bit]) = walk.tree.child bit := by
    rw [Tree.follow_append, ← reads.tree_eq]
    rfl
  unfold Walk.step at stepped
  split at stepped
  · cases stepped
  · cases stepped
  next value leaf =>
    cases stepped
    rw [leaf] at below
    refine .inl ⟨value, eq_pathOf_of_follow below, ?_, ?_, rfl, rfl⟩
    · rw [decoded_atRoot, reads.decoded_eq, List.reverse_append, List.reverse_singleton,
        List.singleton_append, List.cons_append]
    · rw [tree_atRoot, Tree.follow_nil]
  · cases stepped
    refine .inr ⟨reads.decoded_eq, below.symm, ?_, ?_⟩
    · rw [List.length_append, ← reads.depth_eq, List.length_singleton]
    · rw [List.all_append, ← reads.allOnes_eq]
      simp

theorem Reads.run (reads : walk.Reads before payload pending) {path : List Bool}
    (walked : path.foldlM Walk.step walk = .ok after) :
    ∃ payload' pending', after.Reads before payload' pending' ∧
      payload'.flatMap pathOf ++ pending' = payload.flatMap pathOf ++ pending ++ path := by
  induction path generalizing walk payload pending with
  | nil =>
    cases walked
    exact ⟨payload, pending, reads, (List.append_nil _).symm⟩
  | cons bit path ih =>
    rw [List.foldlM_cons] at walked
    obtain ⟨middle, stepped, walked⟩ := Outcome.bind_eq_ok_iff.mp walked
    rcases reads.step stepped with ⟨value, completed, leaf⟩ | inner
    · obtain ⟨payload', pending', reached, bits⟩ := ih leaf walked
      refine ⟨payload', pending', reached, ?_⟩
      rw [bits, List.flatMap_append, List.flatMap_singleton, ← completed]
      simp
    · obtain ⟨payload', pending', reached, bits⟩ := ih inner walked
      refine ⟨payload', pending', reached, ?_⟩
      rw [bits]
      simp

theorem Reads.finish (reads : walk.Reads before payload pending) {result : Bytes}
    (finished : walk.finish = .ok result) :
    result = before.reverse ++ payload ∧ pending.length < 8 ∧
      pending = List.replicate pending.length true := by
  obtain ⟨decoded, tree, depth, allOnes⟩ := walk
  obtain ⟨decoded_eq, -, depth_eq, allOnes_eq⟩ := reads
  dsimp only at decoded_eq depth_eq allOnes_eq
  simp only [Walk.finish] at finished
  split at finished
  · cases finished
  next padded =>
    cases finished
    simp only [Bool.or_eq_true, decide_eq_true_eq, Bool.not_eq_true', not_or,
      Bool.not_eq_false] at padded
    obtain ⟨shallow, ones⟩ := padded
    refine ⟨?_, by omega, ?_⟩
    · rw [decoded_eq, List.reverse_append, List.reverse_reverse]
    · refine List.eq_replicate_of_mem fun bit listed => ?_
      exact List.all_eq_true.mp (allOnes_eq.symm.trans ones) bit listed

end

end Walk

theorem decodeOnto_eq_ok_iff {buffer coded result : Bytes} :
    decodeOnto buffer coded = .ok result ↔
      ∃ payload, result = buffer ++ payload ∧ coded = encode payload := by
  constructor
  · intro decoded
    obtain ⟨walk, walked, finished⟩ := Outcome.bind_eq_ok_iff.mp decoded
    rw [Walk.read_eq] at walked
    obtain ⟨payload, pending, reads, bits⟩ := (Walk.reads_atRoot buffer.reverse).run walked
    obtain ⟨whole, short, ones⟩ := reads.finish finished
    obtain ⟨padding, short', filled⟩ := bitsOf_encode payload
    refine ⟨payload, by rwa [List.reverse_reverse] at whole, ?_⟩
    refine eq_of_bits_padded short short' ?_ filled
    rw [← ones, bits]
    rfl
  · rintro ⟨payload, rfl, rfl⟩
    exact decodeOnto_encode buffer payload

end HeaderCodec.Huffman
