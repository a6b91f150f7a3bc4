import HeaderCodec.Header.Agent
import HeaderCodec.Proofs.Bytes
import HeaderCodec.Proofs.Outcome

/-! Whatever way an agent or a hop is made, its separators do not occur where they would be taken
for others, so its wire form is read back as it was. -/

namespace HeaderCodec

namespace Agent

variable {agent : Agent}

theorem isEmpty_iff : agent.isEmpty = true ↔ agent = empty := by
  cases agent
  simp [isEmpty, empty]

theorem value_ne_nil (agent : Agent) : agent.value ≠ [] := by
  simp [value]

/-- The first separator in the wire form is the one behind the id. -/
def Separable (agent : Agent) : Prop :=
  partSeparator ∉ agent.id

theorem separable_empty : empty.Separable :=
  List.not_mem_nil

theorem create_eq_ok_iff {id device : Bytes} :
    create id device = .ok agent ↔ partSeparator ∉ id ∧ ⟨id, device⟩ = agent := by
  unfold create
  split
  next held => simp [List.contains_iff_mem.mp held]
  next free => simp [mt List.contains_iff_mem.mpr free]

theorem separable_of_create {id device : Bytes} (made : create id device = .ok agent) :
    agent.Separable := by
  obtain ⟨free, rfl⟩ := create_eq_ok_iff.mp made
  exact free

theorem separable_of_parse {value : Bytes} (parsed : parse value = .ok agent) :
    agent.Separable := by
  unfold parse at parsed
  split at parsed
  · cases parsed
  · cases parsed
    intro found
    have other := List.mem_takeWhile_imp found
    rw [bne_self_eq_false] at other
    cases other

theorem parse_value (separable : agent.Separable) : parse agent.value = .ok agent := by
  have front : ∀ byte ∈ agent.id, (byte != partSeparator) = true := by
    intro byte listed
    rw [bne_iff_ne]
    rintro rfl
    exact separable listed
  simp [parse, value, List.takeWhile_append_of_pos front, List.dropWhile_append_of_pos front]

end Agent

namespace Hop

variable {hop : Hop}

/-- No part is taken for two, nor the hop for two hops. -/
def Separable (hop : Hop) : Prop :=
  ∀ part ∈ hop.parts, partSeparator ∉ part ∧ hopSeparator ∉ part

theorem reserved?_eq_none_iff : hop.reserved? = none ↔ hop.Separable := by
  simp [reserved?, Separable]

theorem create_eq_ok_iff {name host proto : Bytes} :
    create name host proto = .ok hop ↔ hop.Separable ∧ ⟨name, host, proto⟩ = hop := by
  rw [← reserved?_eq_none_iff]
  unfold create
  dsimp only
  constructor
  · intro made
    split at made
    · cases made
    next free =>
      cases made
      exact ⟨free, rfl⟩
  · rintro ⟨free, rfl⟩
    rw [free]

theorem separable_of_create {name host proto : Bytes}
    (made : create name host proto = .ok hop) : hop.Separable :=
  (create_eq_ok_iff.mp made).1

theorem parse_eq_ok_iff {value : Bytes} :
    parse value = .ok hop ↔ value.splitOn partSeparator = hop.parts := by
  unfold parse
  constructor
  · intro parsed
    split at parsed
    next pieces =>
      cases parsed
      exact pieces
    · cases parsed
  · intro pieces
    rw [pieces]
    rfl

theorem parse_value (separable : hop.Separable) : parse hop.value = .ok hop :=
  parse_eq_ok_iff.mpr (List.splitOn_intercalate partSeparator
    (fun part listed => (separable part listed).1) (List.cons_ne_nil _ _))

theorem mem_value {byte : UInt8} :
    byte ∈ hop.value ↔ byte = partSeparator ∨ ∃ part ∈ hop.parts, byte ∈ part := by
  simp only [value, parts, List.intercalate_cons_cons, List.intercalate_singleton,
    List.mem_append, List.mem_cons, List.not_mem_nil, or_false,
    exists_eq_or_imp, exists_eq_left]
  grind

theorem value_of_parse {value : Bytes} (parsed : parse value = .ok hop) : hop.value = value := by
  rw [Hop.value, ← parse_eq_ok_iff.mp parsed, List.intercalate_splitOn]

theorem separable_of_parse {value : Bytes} (outside : hopSeparator ∉ value)
    (parsed : parse value = .ok hop) : hop.Separable := by
  intro part listed
  constructor
  · rw [← parse_eq_ok_iff.mp parsed] at listed
    exact Bytes.not_mem_of_mem_splitOn listed
  · intro found
    rw [← value_of_parse parsed] at outside
    exact outside (mem_value.mpr (.inr ⟨part, listed, found⟩))

theorem hopSeparator_not_mem_value (separable : hop.Separable) : hopSeparator ∉ hop.value := by
  intro found
  rcases mem_value.mp found with same | ⟨part, listed, inside⟩
  · exact absurd same (by decide)
  · exact (separable part listed).2 inside

theorem value_ne_nil (hop : Hop) : hop.value ≠ [] :=
  List.ne_nil_of_mem (mem_value.mpr (.inl rfl))

end Hop

namespace Forwarded

variable {forwarded : Forwarded}

def Separable (forwarded : Forwarded) : Prop :=
  ∀ hop ∈ forwarded, hop.Separable

theorem separable_of_mapM {pieces : List Bytes} (outside : ∀ piece ∈ pieces, hopSeparator ∉ piece)
    (parsed : pieces.mapM Hop.parse = .ok forwarded) : forwarded.Separable := by
  rw [Outcome.mapM_eq_ok_iff] at parsed
  induction parsed with
  | nil => exact nofun
  | cons first _ ih =>
    obtain ⟨front, back⟩ := List.forall_mem_cons.mp outside
    exact List.forall_mem_cons.mpr ⟨Hop.separable_of_parse front first, ih back⟩

theorem separable_of_parse {value : Bytes} (parsed : parse value = .ok forwarded) :
    forwarded.Separable :=
  separable_of_mapM (fun _ listed => Bytes.not_mem_of_mem_splitOn listed) parsed

theorem mapM_parse_value (separable : forwarded.Separable) :
    (forwarded.map Hop.value).mapM Hop.parse = .ok forwarded := by
  rw [Outcome.mapM_eq_ok_iff, List.forall₂_map_left_iff, List.forall₂_same]
  exact fun hop listed => Hop.parse_value (separable hop listed)

theorem parse_value (separable : forwarded.Separable) (some : forwarded ≠ []) :
    parse forwarded.value = .ok forwarded := by
  have apart : ∀ piece ∈ forwarded.map Hop.value, hopSeparator ∉ piece := by
    intro piece listed
    obtain ⟨hop, member, rfl⟩ := List.mem_map.mp listed
    exact Hop.hopSeparator_not_mem_value (separable hop member)
  rw [parse, value, List.splitOn_intercalate hopSeparator apart (mt List.map_eq_nil_iff.mp some),
    mapM_parse_value separable]

theorem value_ne_nil (some : forwarded ≠ []) : forwarded.value ≠ [] := by
  obtain ⟨hop, rest, rfl⟩ := List.exists_cons_of_ne_nil some
  intro empty
  cases rest with
  | nil =>
    rw [value, List.map_singleton, List.intercalate_singleton] at empty
    exact hop.value_ne_nil empty
  | cons next rest =>
    rw [value, List.map_cons, List.map_cons, List.intercalate_cons_cons] at empty
    simp at empty

end Forwarded

end HeaderCodec
