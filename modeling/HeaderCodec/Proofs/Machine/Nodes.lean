import HeaderCodec.Machine.Nodes
import HeaderCodec.Proofs.Huffman.RoundTrip

/-! A plan is a code tree that knows where each of its nodes stands in the array. No two nodes share
a place, so putting a symbol into the array does to it what putting it into the plan does. -/

namespace HeaderCodec

/-- Every way from the root ends at a leaf after at most `depth` bits. -/
def Huffman.Tree.completeWithin : (depth : Nat) → Tree → Bool
  | _, leaf _ => true
  | depth + 1, node zero one => zero.completeWithin depth && one.completeWithin depth
  | _, _ => false

theorem Huffman.Tree.completeWithin_child {zero one : Tree} {depth : Nat}
    (complete : (node zero one).completeWithin depth = true) :
    ∃ less, depth = less + 1 ∧
      ∀ bit, ((node zero one).child bit).completeWithin less = true := by
  cases depth with
  | zero => cases complete
  | succ less =>
    rw [completeWithin, Bool.and_eq_true] at complete
    refine ⟨less, rfl, fun bit => ?_⟩
    cases bit with
    | false => exact complete.1
    | true => exact complete.2

namespace Machine

open Huffman (Symbol Tree codeTree symbolPaths)

namespace Slot

/-- Places below this one fit into a slot that is not marked. -/
def limit : Nat := 2 ^ 15

variable {place : Nat}

theorem toNat_place (small : place < limit) : place.toUInt16.toNat = place := by
  rw [limit] at small
  simp only [UInt16.toNat_ofNat']
  omega

theorem place_ne_empty (inner : 0 < place) (small : place < limit) :
    place.toUInt16 ≠ empty := by
  intro same
  have zero := congrArg UInt16.toNat same
  rw [toNat_place small] at zero
  exact inner.ne' zero

theorem place_unmarked (small : place < limit) : place.toUInt16 &&& leafMark = 0 := by
  apply UInt16.toNat_inj.mp
  have mark : leafMark.toNat = 2 ^ 15 := rfl
  rw [UInt16.toNat_and, toNat_place small, mark, Nat.and_two_pow, Nat.testBit_lt_two_pow small]
  rfl

theorem leaf_marked (symbol : Symbol) :
    leaf symbol ≠ empty ∧ leaf symbol &&& leafMark ≠ 0 ∧
      leaf symbol &&& ~~~leafMark = number symbol := by
  have all : ∀ n : Fin 257, (leafMark ||| n.val.toUInt16) ≠ empty ∧
      (leafMark ||| n.val.toUInt16) &&& leafMark ≠ 0 ∧
      (leafMark ||| n.val.toUInt16) &&& ~~~leafMark = n.val.toUInt16 := by
    decide +kernel
  cases symbol with
  | byte value =>
    have below : value.toNat < 257 := by
      have := value.toNat_lt
      omega
    have same : value.toNat.toUInt16 = value.toUInt16 := by
      apply UInt16.toNat_inj.mp
      simp
    have marked := all ⟨value.toNat, below⟩
    rwa [same] at marked
  | endOfString => exact all 256

theorem number_byte_ne (value : UInt8) : number (.byte value) ≠ number .endOfString := by
  intro same
  have large := congrArg UInt16.toNat same
  simp [number] at large
  have := value.toNat_lt
  omega

theorem toUInt8_number (value : UInt8) : (number (.byte value)).toUInt8 = value := by
  simp [number]

end Slot

def Node.fork (bit : Bool) (below beside : UInt16) : Node :=
  if bit then ⟨beside, below⟩ else ⟨below, beside⟩

@[simp] theorem Node.slot_fork (bit : Bool) (below beside : UInt16) :
    (fork bit below beside).slot bit = below := by
  cases bit <;> rfl

@[simp] theorem Node.put_fork (bit : Bool) (below beside slot : UInt16) :
    (fork bit below beside).put bit slot = fork bit slot beside := by
  cases bit <;> rfl

theorem Node.fork_not (bit : Bool) (below beside : UInt16) :
    fork (!bit) beside below = fork bit below beside := by
  cases bit <;> rfl

theorem Node.new_eq_fork (bit : Bool) : new = fork bit Slot.empty Slot.empty := by
  cases bit <;> rfl

section

variable {ε : Type} {nodes : Nodes} {place : Nat} {bit : Bool} {below beside : UInt16}

theorem fetch_eq_ok_iff {node : Node} :
    (fetch nodes place : Checked ε Node) = .ok node ↔ nodes[place]? = some node := by
  unfold fetch
  cases nodes[place]? <;> simp

theorem putSlot_fork (slot : UInt16) (held : nodes[place]? = some (.fork bit below beside)) :
    (nodes.putSlot place bit slot : Checked ε Nodes) =
      .ok (nodes.set place (.fork bit slot beside)) := by
  have inside : place < nodes.length := (List.getElem?_eq_some_iff.mp held).1
  rw [Nodes.putSlot, fetch_eq_ok_iff.mpr held, Outcome.ok_bind, Node.put_fork, store,
    if_pos inside]

end

/-- A code tree whose nodes have places. -/
inductive Plan
  | missing
  | leaf (symbol : Symbol)
  | node (place : Nat) (zero one : Plan)

namespace Plan

def erase : Plan → Tree
  | missing => .missing
  | leaf symbol => .leaf symbol
  | node _ zero one => .node zero.erase one.erase

def slot : Plan → UInt16
  | missing => Slot.empty
  | leaf symbol => Slot.leaf symbol
  | node place _ _ => place.toUInt16

def Uses : Plan → Nat → Prop
  | node place zero one, other => other = place ∨ zero.Uses other ∨ one.Uses other
  | _, _ => False

def fork (place : Nat) (bit : Bool) (below beside : Plan) : Plan :=
  if bit then node place beside below else node place below beside

def child : Plan → Bool → Plan
  | node _ zero one, bit => if bit then one else zero
  | _, _ => missing

/-- Puts a symbol at the end of a path. Nodes that are not there yet get the places from `fresh` on,
as long as these fit into a slot. -/
def grow (symbol : Symbol) : (fresh : Nat) → Plan → List Bool → Option (Plan × Nat)
  | fresh, _, [] => some (leaf symbol, fresh)
  | fresh, missing, bit :: path =>
    if fresh < Slot.limit then
      (grow symbol (fresh + 1) missing path).map fun (below, after) =>
        (fork fresh bit below missing, after)
    else none
  | fresh, node place zero one, bit :: path =>
    let plan := node place zero one
    (grow symbol fresh (plan.child bit) path).map fun (below, after) =>
      (fork place bit below (plan.child !bit), after)
  | _, leaf _, _ :: _ => none

@[simp] theorem slot_fork (place : Nat) (bit : Bool) (below beside : Plan) :
    (fork place bit below beside).slot = place.toUInt16 := by
  cases bit <;> rfl

theorem uses_fork {place other : Nat} {bit : Bool} {below beside : Plan} :
    (fork place bit below beside).Uses other ↔
      other = place ∨ below.Uses other ∨ beside.Uses other := by
  cases bit
  · rfl
  · simp only [fork, if_true, Uses, or_comm (a := beside.Uses other)]

theorem node_eq_fork (place : Nat) (zero one : Plan) (bit : Bool) :
    node place zero one =
      fork place bit ((node place zero one).child bit) ((node place zero one).child !bit) := by
  cases bit <;> rfl

/-- The array holds the nodes of the plan at their places, which are all different. None of them is
the root of the array. -/
def Stored (nodes : Nodes) : Plan → Prop
  | node place zero one =>
    (0 < place ∧ place < Slot.limit) ∧ nodes[place]? = some ⟨zero.slot, one.slot⟩ ∧
      (¬zero.Uses place ∧ ¬one.Uses place ∧ ∀ other, zero.Uses other → ¬one.Uses other) ∧
      zero.Stored nodes ∧ one.Stored nodes
  | _ => True

structure Holds (nodes : Nodes) (place : Nat) (bit : Bool) (below beside : Plan) : Prop where
  slots : nodes[place]? = some (.fork bit below.slot beside.slot)
  not_below : ¬below.Uses place
  not_beside : ¬beside.Uses place
  apart : ∀ other, below.Uses other → ¬beside.Uses other
  below_stored : below.Stored nodes
  beside_stored : beside.Stored nodes

section

variable {nodes after : Nodes} {plan below beside grown : Plan} {place : Nat} {bit : Bool}

theorem Holds.flip (held : Holds nodes place bit below beside) :
    Holds nodes place (!bit) beside below where
  slots := by rw [Node.fork_not, held.slots]
  not_below := held.not_beside
  not_beside := held.not_below
  apart := fun other beside below => held.apart other below beside
  below_stored := held.beside_stored
  beside_stored := held.below_stored

theorem stored_fork : (fork place bit below beside).Stored nodes ↔
    (0 < place ∧ place < Slot.limit) ∧ Holds nodes place bit below beside := by
  have either (zero one : Plan) : (node place zero one).Stored nodes ↔
      (0 < place ∧ place < Slot.limit) ∧ Holds nodes place false zero one := by
    simp only [Stored]
    constructor
    · rintro ⟨limits, slots, ⟨not_zero, not_one, apart⟩, zero_stored, one_stored⟩
      exact ⟨limits, slots, not_zero, not_one, apart, zero_stored, one_stored⟩
    · rintro ⟨limits, slots, not_zero, not_one, apart, zero_stored, one_stored⟩
      exact ⟨limits, slots, ⟨not_zero, not_one, apart⟩, zero_stored, one_stored⟩
  cases bit with
  | false => exact either below beside
  | true => exact (either beside below).trans (and_congr_right fun _ => ⟨.flip, .flip⟩)

theorem Holds.turn {zero one : Plan} (held : Holds nodes place false zero one) (bit : Bool) :
    Holds nodes place bit ((node place zero one).child bit) ((node place zero one).child !bit) := by
  cases bit with
  | false => exact held
  | true => exact held.flip

theorem Stored.lt_length (stored : plan.Stored nodes) {other : Nat} (used : plan.Uses other) :
    other < nodes.length := by
  induction plan with
  | missing => cases used
  | leaf symbol => cases used
  | node place zero one zero_ih one_ih =>
    obtain ⟨-, slots, -, zero_stored, one_stored⟩ := stored
    rcases used with rfl | used | used
    · exact (List.getElem?_eq_some_iff.mp slots).1
    · exact zero_ih zero_stored used
    · exact one_ih one_stored used

theorem Stored.frame (stored : plan.Stored nodes)
    (same : ∀ other, plan.Uses other → after[other]? = nodes[other]?) : plan.Stored after := by
  induction plan with
  | missing => trivial
  | leaf symbol => trivial
  | node place zero one zero_ih one_ih =>
    obtain ⟨limits, slots, apart, zero_stored, one_stored⟩ := stored
    refine ⟨limits, ?_, apart, zero_ih zero_stored ?_, one_ih one_stored ?_⟩
    · rw [same place (.inl rfl), slots]
    · exact fun other used => same other (.inr (.inl used))
    · exact fun other used => same other (.inr (.inr used))

theorem Holds.regrow (held : Holds nodes place bit below beside) (stored : grown.Stored after)
    (slots : after[place]? = some (.fork bit grown.slot beside.slot))
    (uses : ∀ other, grown.Uses other → below.Uses other ∨ nodes.length ≤ other)
    (same : ∀ other, beside.Uses other → after[other]? = nodes[other]?) :
    Holds after place bit grown beside where
  slots := slots
  not_below := by
    intro used
    have inside := (List.getElem?_eq_some_iff.mp held.slots).1
    rcases uses place used with old | new
    · exact held.not_below old
    · omega
  not_beside := held.not_beside
  apart := by
    intro other used beside_used
    have inside := held.beside_stored.lt_length beside_used
    rcases uses other used with old | new
    · exact held.apart other old beside_used
    · omega
  below_stored := stored
  beside_stored := held.beside_stored.frame same

end

/-- `after` is the array `nodes` in which `grown` took the place of `below`. -/
structure Regrown (nodes after : Nodes) (place : Nat) (below grown : Plan) : Prop where
  length_le : nodes.length ≤ after.length
  uses : ∀ other, grown.Uses other → below.Uses other ∨ nodes.length ≤ other
  same : ∀ other, other < nodes.length → other ≠ place → ¬below.Uses other →
    after[other]? = nodes[other]?

section

variable {ε : Type} {nodes middle after : Nodes} {below beside grown : Plan}
  {place inner fresh : Nat} {bit next : Bool} {symbol : Symbol} {path : List Bool}

/-- Growth below a node `inner` is growth below the node above it, if `inner` was below that one or
is new. -/
theorem Regrown.outer {first second : Plan} (held : Holds nodes place bit below beside)
    (hung : middle[place]? = some (.fork bit inner.toUInt16 beside.slot))
    (longer : nodes.length ≤ middle.length)
    (kept : ∀ other, other < nodes.length → other ≠ place → middle[other]? = nodes[other]?)
    (origin : ∀ other, (fork inner next first second).Uses other →
      below.Uses other ∨ nodes.length ≤ other)
    (stored : (fork inner next grown second).Stored after)
    (regrown : Regrown middle after inner first grown) :
    Holds after place bit (fork inner next grown second) beside ∧
      Regrown nodes after place below (fork inner next grown second) := by
  have inside : place < nodes.length := (List.getElem?_eq_some_iff.mp held.slots).1
  have untouched : ∀ other, other < nodes.length → ¬below.Uses other →
      after[other]? = middle[other]? := by
    intro other old unused
    have apart : ¬(fork inner next first second).Uses other := by
      intro used
      rcases origin other used with used | new
      · exact unused used
      · omega
    rw [uses_fork, not_or, not_or] at apart
    exact regrown.same other (Nat.lt_of_lt_of_le old longer) apart.1 apart.2.1
  have uses : ∀ other, (fork inner next grown second).Uses other →
      below.Uses other ∨ nodes.length ≤ other := by
    intro other used
    rcases uses_fork.mp used with rfl | used | used
    · exact origin _ (uses_fork.mpr (.inl rfl))
    · rcases regrown.uses other used with used | new
      · exact origin _ (uses_fork.mpr (.inr (.inl used)))
      · exact .inr (Nat.le_trans longer new)
    · exact origin _ (uses_fork.mpr (.inr (.inr used)))
  constructor
  · refine held.regrow stored ?_ uses ?_
    · rw [untouched place inside held.not_below, hung, slot_fork]
    · intro other used
      have old := held.beside_stored.lt_length used
      rw [untouched other old fun below => held.apart other below used, kept other old]
      rintro rfl
      exact held.not_beside used
  · refine ⟨Nat.le_trans longer regrown.length_le, uses, ?_⟩
    intro other old elsewhere unused
    rw [untouched other old unused, kept other old elsewhere]

theorem insert_below (hung : nodes[place]? = some (.fork bit inner.toUInt16 beside.slot))
    (limits : 0 < inner ∧ inner < Slot.limit) :
    (nodes.insert symbol place (bit :: next :: path) : Checked ε Nodes) =
      nodes.insert symbol inner (next :: path) := by
  rw [Nodes.insert, fetch_eq_ok_iff.mpr hung, Outcome.ok_bind]
  dsimp only
  rw [Node.slot_fork, if_neg (Slot.place_ne_empty limits.1 limits.2),
    Slot.toNat_place limits.2]
  · simp

theorem insert_new (free : nodes[place]? = some (.fork bit Slot.empty beside.slot)) :
    (nodes.insert symbol place (bit :: next :: path) : Checked ε Nodes) =
      Nodes.insert symbol
        ((nodes ++ [Node.new]).set place (.fork bit nodes.length.toUInt16 beside.slot))
        nodes.length (next :: path) := by
  have inside : place < nodes.length := (List.getElem?_eq_some_iff.mp free).1
  have still : (nodes ++ [Node.new])[place]? = some (.fork bit Slot.empty beside.slot) := by
    rw [List.getElem?_append_left inside, free]
  rw [Nodes.insert, fetch_eq_ok_iff.mpr free, Outcome.ok_bind]
  dsimp only
  rw [Node.slot_fork, if_pos rfl]
  simp only [subtract, List.length_append, List.length_singleton, Nat.le_add_left, if_true,
    Nat.add_sub_cancel, Outcome.ok_bind, putSlot_fork _ still]
  · simp

theorem insert_of_grow (held : Holds nodes place bit below beside)
    (growth : below.grow symbol nodes.length path = some (grown, fresh)) :
    ∃ after, (nodes.insert symbol place (bit :: path) : Checked ε Nodes) = .ok after ∧
      after.length = fresh ∧ Holds after place bit grown beside ∧
      Regrown nodes after place below grown := by
  induction path generalizing nodes place bit below beside grown with
  | nil =>
    cases growth
    have inside : place < nodes.length := (List.getElem?_eq_some_iff.mp held.slots).1
    have slots : (nodes.set place (.fork bit (leaf symbol).slot beside.slot))[place]? =
        some (.fork bit (leaf symbol).slot beside.slot) := List.getElem?_set_self inside
    have same : ∀ other, other ≠ place →
        (nodes.set place (.fork bit (leaf symbol).slot beside.slot))[other]? = nodes[other]? :=
      fun other elsewhere => List.getElem?_set_ne elsewhere.symm
    refine ⟨_, putSlot_fork _ held.slots, List.length_set, ?_, ?_⟩
    · refine held.regrow trivial slots (fun _ used => used.elim) fun other used => same other ?_
      rintro rfl
      exact held.not_beside used
    · exact ⟨List.length_set.ge, fun _ used => used.elim,
        fun other _ elsewhere _ => same other elsewhere⟩
  | cons next path ih =>
    cases below with
    | leaf symbol => cases growth
    | missing =>
      have inside : place < nodes.length := (List.getElem?_eq_some_iff.mp held.slots).1
      unfold grow at growth
      split at growth
      next small =>
        obtain ⟨⟨grown, fresh⟩, growth, same⟩ := Option.map_eq_some_iff.mp growth
        cases same
        -- The new node stands behind the others, and nothing is below it yet.
        let middle := (nodes ++ [Node.new]).set place (.fork bit nodes.length.toUInt16 beside.slot)
        have length : middle.length = nodes.length + 1 := by simp [middle]
        have hung : middle[place]? = some (.fork bit nodes.length.toUInt16 beside.slot) :=
          List.getElem?_set_self (by simp; omega)
        have kept : ∀ other, other < nodes.length → other ≠ place →
            middle[other]? = nodes[other]? := by
          intro other old elsewhere
          rw [List.getElem?_set_ne elsewhere.symm, List.getElem?_append_left old]
        have opened : Holds middle nodes.length next missing missing := by
          refine ⟨?_, id, id, fun _ used => used.elim, trivial, trivial⟩
          rw [List.getElem?_set_ne inside.ne, List.getElem?_concat_length, Node.new_eq_fork next]
          rfl
        rw [← length] at growth
        obtain ⟨after, inserted, size, holds, regrown⟩ := ih opened growth
        have limits : 0 < nodes.length ∧ nodes.length < Slot.limit := ⟨by omega, small⟩
        have outer := Regrown.outer held hung (by omega) kept ?_ (stored_fork.mpr ⟨limits, holds⟩)
          regrown
        · refine ⟨after, ?_, size, outer⟩
          rw [insert_new held.slots, inserted]
        · intro other used
          rcases uses_fork.mp used with rfl | used | used
          · exact .inr (Nat.le_refl _)
          · exact used.elim
          · exact used.elim
      · cases growth
    | node inner zero one =>
      have stored := held.below_stored
      rw [node_eq_fork inner zero one next, stored_fork] at stored
      obtain ⟨⟨grown, fresh⟩, growth, same⟩ := Option.map_eq_some_iff.mp growth
      cases same
      obtain ⟨after, inserted, size, holds, regrown⟩ := ih stored.2 growth
      have outer := Regrown.outer held held.slots (Nat.le_refl _) (fun _ _ _ => rfl) ?_
        (stored_fork.mpr ⟨stored.1, holds⟩) regrown
      · refine ⟨after, ?_, size, outer⟩
        rw [insert_below held.slots stored.1, inserted]
      · intro other used
        rw [← node_eq_fork] at used
        exact .inl used

end

def Rooted (nodes : Nodes) (plan : Plan) : Prop :=
  ∃ zero one, plan = node 0 zero one ∧ Holds nodes 0 false zero one

theorem Holds.rooted {nodes : Nodes} {below beside : Plan} {bit : Bool}
    (holds : Holds nodes 0 bit below beside) : Rooted nodes (fork 0 bit below beside) := by
  cases bit with
  | false => exact ⟨below, beside, rfl, holds⟩
  | true => exact ⟨beside, below, rfl, holds.flip⟩

theorem rooted_new : Rooted [.new] (node 0 missing missing) :=
  ⟨missing, missing, rfl, rfl, id, id, fun _ used => used.elim, trivial, trivial⟩

section

variable {ε : Type} {nodes : Nodes} {plan grown : Plan} {fresh : Nat}

theorem Rooted.insert {symbol : Symbol} {path : List Bool} (rooted : Rooted nodes plan)
    (nonempty : path ≠ []) (growth : plan.grow symbol nodes.length path = some (grown, fresh)) :
    ∃ after, (nodes.insert symbol 0 path : Checked ε Nodes) = .ok after ∧ after.length = fresh ∧
      Rooted after grown := by
  cases path with
  | nil => exact absurd rfl nonempty
  | cons bit path =>
    obtain ⟨zero, one, rfl, holds⟩ := rooted
    obtain ⟨⟨inner, fresh⟩, growth, same⟩ := Option.map_eq_some_iff.mp growth
    cases same
    obtain ⟨after, inserted, size, holds, -⟩ := insert_of_grow (holds.turn bit) growth
    exact ⟨after, inserted, size, holds.rooted⟩

theorem Rooted.foldlM_insert {entries : List (Symbol × List Bool)} (rooted : Rooted nodes plan)
    (nonempty : ∀ entry ∈ entries, entry.2 ≠ [])
    (growth : entries.foldlM (fun (state : Plan × Nat) (symbol, path) =>
      state.1.grow symbol state.2 path) (plan, nodes.length) = some (grown, fresh)) :
    ∃ after, (entries.foldlM (fun nodes (symbol, path) => nodes.insert symbol 0 path) nodes :
      Checked ε Nodes) = .ok after ∧ Rooted after grown := by
  induction entries generalizing nodes plan with
  | nil =>
    cases growth
    exact ⟨nodes, rfl, rooted⟩
  | cons entry entries ih =>
    rw [List.foldlM_cons] at growth
    obtain ⟨⟨middle, count⟩, first, growth⟩ := Option.bind_eq_some_iff.mp growth
    obtain ⟨after, inserted, rfl, rooted⟩ :=
      rooted.insert (ε := ε) (nonempty entry List.mem_cons_self) first
    obtain ⟨final, folded, rooted⟩ :=
      ih rooted (fun entry later => nonempty entry (List.mem_cons_of_mem _ later)) growth
    refine ⟨final, ?_, rooted⟩
    rw [List.foldlM_cons]
    dsimp only
    rw [inserted, Outcome.ok_bind, folded]

end

def ofCode : Option (Plan × Nat) :=
  symbolPaths.foldlM (fun (state : Plan × Nat) (symbol, path) =>
    state.1.grow symbol state.2 path) (node 0 missing missing, 1)

set_option maxRecDepth 20000 in
/-- The plan of the whole code is one of the code tree, which has no loose ends. -/
theorem erase_ofCode : (ofCode.any fun (plan, _) =>
    plan.erase == codeTree && plan.erase.completeWithin 30) = true := by
  decide +kernel

end Plan

theorem path_ne_nil : ∀ entry ∈ symbolPaths, entry.2 ≠ [] := by
  intro entry listed
  rcases List.mem_append.mp listed with byte | last
  · obtain ⟨i, -, rfl⟩ := List.mem_map.mp byte
    exact Huffman.pathOf_ne_nil _
  · rw [List.mem_singleton.mp last]
    exact List.cons_ne_nil _ _

/-- The array is built without a trap, and holds the code tree. -/
theorem build_eq_ok (ε : Type) : ∃ nodes plan, (Nodes.build : Checked ε Nodes) = .ok nodes ∧
    Plan.Rooted nodes plan ∧ plan.erase = codeTree ∧ codeTree.completeWithin 30 = true := by
  have planned := Plan.erase_ofCode
  rw [Option.any_eq_true] at planned
  obtain ⟨⟨plan, fresh⟩, growth, planned⟩ := planned
  rw [Bool.and_eq_true, beq_iff_eq] at planned
  obtain ⟨nodes, built, rooted⟩ :=
    Plan.rooted_new.foldlM_insert (ε := ε) path_ne_nil growth
  exact ⟨nodes, plan, built, rooted, planned.1, planned.1 ▸ planned.2⟩

namespace Nodes.Walk

/-- The walk over the array stands where the walk over the tree stands. Below it, every way ends at a
leaf before the depth is counted beyond the longest code. -/
structure Tracks (nodes : Nodes) (walk : Walk) (model : Huffman.Walk) : Prop where
  decoded_eq : walk.decoded = model.decoded
  depth_eq : walk.depth = model.depth
  allOnes_eq : walk.allOnes = model.allOnes
  stands : ∃ zero one, model.tree = (Plan.node walk.place zero one).erase ∧
    Plan.Holds nodes walk.place false zero one
  complete : ∃ left, walk.depth + left = 30 ∧ model.tree.completeWithin left = true

inductive Agrees (nodes : Nodes) :
    Checked Huffman.Error Walk → Except Huffman.Failure Huffman.Walk → Prop
  | walked {walk : Walk} {model : Huffman.Walk} (tracks : Tracks nodes walk model) :
    Agrees nodes (.ok walk) (.ok model)
  | refused {error : Huffman.Error} (valid : error ≠ .invalidCode) (decoded : Bytes) :
    Agrees nodes (.error (.refused error)) (.error ⟨error, decoded⟩)

variable {nodes : Nodes} {plan : Plan} {walk : Walk} {model : Huffman.Walk}

theorem tracks_atRoot (rooted : Plan.Rooted nodes plan) (erased : plan.erase = codeTree)
    (complete : codeTree.completeWithin 30 = true) (decoded : Bytes) :
    Tracks nodes (.atRoot decoded) (.atRoot decoded) := by
  obtain ⟨zero, one, rfl, holds⟩ := rooted
  have stands : (Huffman.Walk.atRoot decoded).tree = (Plan.node 0 zero one).erase := by
    rw [Huffman.Walk.tree_atRoot, erased]
  have ending : (Huffman.Walk.atRoot decoded).tree.completeWithin 30 = true := by
    rw [Huffman.Walk.tree_atRoot]
    exact complete
  exact ⟨rfl, rfl, rfl, ⟨zero, one, stands, holds⟩, 30, rfl, ending⟩

theorem Tracks.step (atRoot : ∀ decoded, Tracks nodes (.atRoot decoded) (.atRoot decoded))
    (tracks : Tracks nodes walk model) (bit : Bool) :
    Agrees nodes (walk.step nodes bit) (model.step bit) := by
  obtain ⟨zero, one, stands, holds⟩ := tracks.stands
  obtain ⟨left, depth, complete⟩ := tracks.complete
  rw [stands] at complete
  obtain ⟨less, rfl, children⟩ := Tree.completeWithin_child complete
  have counted : walk.depth + 1 < UInt32.size := by
    simp only [UInt32.size]
    omega
  have child : model.tree.child bit = ((Plan.node walk.place zero one).child bit).erase := by
    rw [stands]
    cases bit <;> rfl
  have held := holds.turn bit
  have below : ((Plan.node walk.place zero one).child bit).erase.completeWithin less = true := by
    rw [← child, stands]
    exact children bit
  unfold Walk.step Huffman.Walk.step
  rw [child, add, if_pos counted, Outcome.ok_bind, fetch_eq_ok_iff.mpr held.slots,
    Outcome.ok_bind]
  dsimp only
  rw [Node.slot_fork]
  cases found : (Plan.node walk.place zero one).child bit with
  | missing =>
    rw [found] at below
    cases less <;> cases below
  | leaf symbol =>
    obtain ⟨filled, marked, number⟩ := Slot.leaf_marked symbol
    rw [Plan.slot, if_neg filled, if_pos marked, number]
    cases symbol with
    | endOfString =>
      have valid : Huffman.Error.endOfStringInside ≠ .invalidCode := nofun
      rw [if_pos rfl]
      exact .refused valid _
    | byte value =>
      rw [if_neg (Slot.number_byte_ne value), Slot.toUInt8_number, tracks.decoded_eq]
      exact .walked (atRoot _)
  | node inner zero' one' =>
    rw [found] at below held
    have stored := held.below_stored
    rw [Plan.node_eq_fork inner zero' one' false, Plan.stored_fork] at stored
    obtain ⟨limits, holds⟩ := stored
    rw [Plan.slot, if_neg (Slot.place_ne_empty limits.1 limits.2),
      if_neg (not_not.mpr (Slot.place_unmarked limits.2)), Slot.toNat_place limits.2]
    refine .walked ⟨tracks.decoded_eq, ?_, ?_, ⟨zero', one', rfl, holds⟩, less, ?_, below⟩
    · rw [tracks.depth_eq]
    · rw [tracks.allOnes_eq]
    · show walk.depth + 1 + less = 30
      omega

theorem Tracks.run (atRoot : ∀ decoded, Tracks nodes (.atRoot decoded) (.atRoot decoded))
    (tracks : Tracks nodes walk model) (bits : List Bool) :
    Agrees nodes (bits.foldlM (Walk.step nodes) walk) (bits.foldlM Huffman.Walk.step model) := by
  induction bits generalizing walk model with
  | nil => exact .walked tracks
  | cons bit bits ih =>
    rw [List.foldlM_cons, List.foldlM_cons]
    have stepped := tracks.step atRoot bit
    cases first : Walk.step nodes walk bit <;> cases second : model.step bit <;>
      rw [first, second] at stepped
    · cases stepped with
      | refused valid decoded => exact .refused valid decoded
    · cases stepped
    · cases stepped
    · cases stepped with
      | walked tracks => exact ih tracks

end Nodes.Walk

/-- Decoding on the array does not end with a trap, and meets no empty slot. -/
theorem Nodes.decode_eq (coded : Bytes) :
    Nodes.decode coded = (Huffman.decode coded).mapError (.refused ·.error) ∧
      Nodes.decode coded ≠ .error (.refused .invalidCode) := by
  obtain ⟨nodes, plan, built, rooted, erased, complete⟩ := build_eq_ok Huffman.Error
  have atRoot := Nodes.Walk.tracks_atRoot rooted erased complete
  have agrees := (atRoot []).run atRoot (coded.flatMap Huffman.bitsOf)
  rw [Nodes.decode, built, Outcome.ok_bind, Huffman.decode, Huffman.decodeOnto,
    Huffman.Walk.read_eq, List.reverse_nil]
  generalize (coded.flatMap Huffman.bitsOf).foldlM (Nodes.Walk.step nodes) (.atRoot []) = walked at *
  generalize (coded.flatMap Huffman.bitsOf).foldlM Huffman.Walk.step (.atRoot []) = model at *
  cases agrees with
  | refused valid decoded => simpa [Except.mapError, Except.bind] using valid
  | @walked walk model tracks =>
    simp only [Outcome.ok_bind, Except.bind, Nodes.Walk.finish, Huffman.Walk.finish,
      tracks.depth_eq, tracks.allOnes_eq, tracks.decoded_eq]
    split <;> simp [Except.mapError]

theorem decodeWith_eq (coder : Coder) (coded : Bytes) :
    decodeWith coder coded = (coder.decode coded).mapError .refused := by
  cases coder with
  | huffman =>
    rw [decodeWith, (Nodes.decode_eq coded).1, Coder.decode]
    cases Huffman.decode coded <;> rfl
  | passthrough => rfl

theorem decodeWith_ne_invalidCode (coder : Coder) (coded : Bytes) :
    decodeWith coder coded ≠ .error (.refused .invalidCode) := by
  cases coder with
  | huffman => exact (Nodes.decode_eq coded).2
  | passthrough => nofun

end Machine

end HeaderCodec
