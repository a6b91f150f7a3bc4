import HeaderCodec.Proofs.Huffman.Packing
import HeaderCodec.Proofs.Outcome

/-! The path of every symbol ends at its leaf of the code tree, so a walk along the codes of a byte
string emits these bytes; the ones behind them stay inside the end-of-string code. -/

namespace HeaderCodec.Huffman

namespace Tree

/-- The place that a path leads to; there is nothing below a leaf. -/
def follow (tree : Tree) (path : List Bool) : Tree :=
  path.foldl child tree

def isNode : Tree → Bool
  | node _ _ => true
  | _ => false

@[simp] theorem follow_nil (tree : Tree) : tree.follow [] = tree := rfl

@[simp] theorem follow_cons (tree : Tree) (bit : Bool) (path : List Bool) :
    tree.follow (bit :: path) = (tree.child bit).follow path := rfl

@[simp] theorem follow_missing (path : List Bool) : missing.follow path = missing := by
  induction path with
  | nil => rfl
  | cons bit path ih => rw [follow_cons]; exact ih

theorem follow_append (tree : Tree) (front back : List Bool) :
    tree.follow (front ++ back) = (tree.follow front).follow back :=
  List.foldl_append

theorem isNode_of_follow_cons {tree : Tree} {bit : Bool} {path : List Bool}
    (reached : tree.follow (bit :: path) ≠ missing) : tree.isNode = true := by
  rw [follow_cons] at reached
  cases tree with
  | node zero one => rfl
  | missing => exact absurd (follow_missing path) reached
  | leaf symbol => exact absurd (follow_missing path) reached

end Tree

set_option maxRecDepth 20000 in
/-- The tree holds the whole code: no later code overwrote or cut off an earlier one. -/
theorem follow_symbolPaths :
    ∀ entry ∈ symbolPaths, codeTree.follow entry.2 = .leaf entry.1 := by
  decide +kernel

theorem follow_pathOf (byte : UInt8) : codeTree.follow (pathOf byte) = .leaf (.byte byte) := by
  have listed : (Symbol.byte byte, pathOf byte) ∈ symbolPaths := by
    refine List.mem_append_left _ (List.mem_map.mpr ⟨byte.toNat, ?_, by simp⟩)
    exact List.mem_range.mpr byte.toNat_lt
  exact follow_symbolPaths _ listed

theorem five_le_length_pathOf (byte : UInt8) : 5 ≤ (pathOf byte).length := by
  have long : ∀ code ∈ byteCodes.toList, 5 ≤ code.length := by decide +kernel
  have listed : codeOf byte ∈ byteCodes.toList := Vector.mem_toList_iff.mpr (Vector.getElem_mem _)
  rw [pathOf, Code.length_path]
  exact long _ listed

theorem pathOf_ne_nil (byte : UInt8) : pathOf byte ≠ [] := by
  apply List.ne_nil_of_length_pos
  exact Nat.lt_of_lt_of_le (by decide) (five_le_length_pathOf byte)

theorem follow_endOfStringCode : codeTree.follow endOfStringCode.path = .leaf .endOfString :=
  follow_symbolPaths (.endOfString, endOfStringCode.path)
    (List.mem_append_right _ (List.mem_singleton.mpr rfl))

theorem isNode_follow_ones {count : Nat} (short : count < 30) :
    (codeTree.follow (List.replicate count true)).isNode = true := by
  have leaf := follow_endOfStringCode
  have ones : endOfStringCode.path =
      List.replicate count true ++ true :: List.replicate (29 - count) true := by
    rw [← List.replicate_succ, List.replicate_append_replicate,
      show count + (29 - count + 1) = 30 by omega]
    decide
  rw [ones, Tree.follow_append] at leaf
  exact Tree.isNode_of_follow_cons (by rw [leaf]; simp)

namespace Walk

@[simp] theorem decoded_atRoot (decoded : Bytes) : (atRoot decoded).decoded = decoded := rfl

@[simp] theorem tree_atRoot (decoded : Bytes) : (atRoot decoded).tree = codeTree := by
  simp only [atRoot]

theorem step_of_isNode {walk : Walk} {bit : Bool} (inner : (walk.tree.child bit).isNode = true) :
    walk.step bit =
      .ok ⟨walk.decoded, walk.tree.child bit, walk.depth + 1, walk.allOnes && bit⟩ := by
  unfold step
  cases below : walk.tree.child bit with
  | node zero one => rfl
  | missing => simp [below, Tree.isNode] at inner
  | leaf symbol => simp [below, Tree.isNode] at inner

theorem foldlM_step_of_isNode {walk : Walk} {path : List Bool}
    (inner : (walk.tree.follow path).isNode = true) :
    path.foldlM step walk =
      .ok ⟨walk.decoded, walk.tree.follow path, walk.depth + path.length,
        walk.allOnes && path.all id⟩ := by
  induction path generalizing walk with
  | nil => simp; rfl
  | cons bit path ih =>
    have node : (walk.tree.child bit).isNode = true := by
      cases path with
      | nil => exact inner
      | cons next path =>
        have stays : (walk.tree.child bit).follow (next :: path) ≠ .missing := by
          intro left
          rw [Tree.follow_cons, left] at inner
          cases inner
        exact Tree.isNode_of_follow_cons stays
    rw [List.foldlM_cons, step_of_isNode node]
    refine (ih inner).trans ?_
    simp [Nat.add_comm, Nat.add_left_comm, Bool.and_assoc]

/-- A walk that comes to a leaf emits its byte and starts again, or ends there. -/
def arrive (walk : Walk) : Symbol → Except Failure Walk
  | .byte value => .ok (atRoot (value :: walk.decoded))
  | .endOfString => .error ⟨.endOfStringInside, walk.decoded.reverse⟩

theorem foldlM_step_of_leaf {walk : Walk} {path : List Bool} {symbol : Symbol}
    (reached : walk.tree.follow path = .leaf symbol) (moved : path ≠ []) :
    path.foldlM step walk = walk.arrive symbol := by
  obtain ⟨front, last, rfl⟩ : ∃ front last, path = front ++ [last] :=
    ⟨path.dropLast, path.getLast moved, (List.dropLast_concat_getLast moved).symm⟩
  rw [Tree.follow_append] at reached
  have above : (walk.tree.follow front).isNode = true :=
    Tree.isNode_of_follow_cons (by rw [reached]; simp)
  have leaf : (walk.tree.follow front).child last = .leaf symbol := reached
  rw [List.foldlM_append, foldlM_step_of_isNode above, Outcome.ok_bind, List.foldlM_cons]
  cases symbol with
  | byte value =>
    simp only [step, leaf, Outcome.ok_bind, List.foldlM_nil]
    rfl
  | endOfString => simp only [step, leaf, Outcome.error_bind, arrive]

theorem foldlM_step_codes (payload decoded : Bytes) :
    (payload.flatMap pathOf).foldlM step (atRoot decoded) =
      .ok (atRoot (payload.reverse ++ decoded)) := by
  induction payload generalizing decoded with
  | nil => rfl
  | cons byte rest ih =>
    have leaf : (atRoot decoded).tree.follow (pathOf byte) = .leaf (.byte byte) := by
      rw [tree_atRoot, follow_pathOf]
    rw [List.flatMap_cons, List.foldlM_append, foldlM_step_of_leaf leaf (pathOf_ne_nil byte),
      arrive, Outcome.ok_bind, decoded_atRoot, ih, List.reverse_cons, List.append_assoc,
      List.singleton_append]

theorem foldlM_step_padding (decoded : Bytes) {count : Nat} (short : count < 30) :
    (List.replicate count true).foldlM step (atRoot decoded) =
      .ok ⟨decoded, codeTree.follow (List.replicate count true), count, true⟩ := by
  have inner : ((atRoot decoded).tree.follow (List.replicate count true)).isNode = true := by
    rw [tree_atRoot, isNode_follow_ones short]
  rw [foldlM_step_of_isNode inner, tree_atRoot, decoded_atRoot, List.length_replicate]
  simp [atRoot]

end Walk

theorem decodeOnto_encode (buffer payload : Bytes) :
    decodeOnto buffer (encode payload) = .ok (buffer ++ payload) := by
  obtain ⟨padding, short, bits⟩ := bitsOf_encode payload
  have shallow : ¬7 < padding := by omega
  rw [decodeOnto, Walk.read_eq, bits, List.foldlM_append, Walk.foldlM_step_codes, Outcome.ok_bind,
    Walk.foldlM_step_padding _ (by omega)]
  simp [Except.bind, Walk.finish, shallow]

theorem decode_encode (payload : Bytes) : decode (encode payload) = .ok payload :=
  decodeOnto_encode [] payload

end HeaderCodec.Huffman
