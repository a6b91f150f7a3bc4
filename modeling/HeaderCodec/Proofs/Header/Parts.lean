import HeaderCodec.Proofs.Header.Agent

/-! Reading a value with parts and writing it are inverse to each other. Which values can be read is
told by counting separators, and what may be a part is what comes back from the wire form. -/

namespace HeaderCodec

namespace Agent

variable {agent : Agent} {value : Bytes}

theorem value_of_parse (parsed : parse value = .ok agent) : agent.value = value := by
  unfold parse at parsed
  split at parsed
  · cases parsed
  next byte device found =>
    cases parsed
    have separator := List.head?_dropWhile_not (· != partSeparator) value
    have whole := List.takeWhile_append_dropWhile (p := (· != partSeparator)) (l := value)
    rw [found, List.head?_cons] at separator
    rw [found] at whole
    have same : byte = partSeparator := by simpa using separator
    rw [same] at whole
    exact whole

theorem parse_eq_ok_iff : parse value = .ok agent ↔ agent.Separable ∧ agent.value = value := by
  constructor
  · intro parsed
    exact ⟨separable_of_parse parsed, value_of_parse parsed⟩
  · rintro ⟨separable, rfl⟩
    exact parse_value separable

theorem exists_parse_iff : (∃ agent, parse value = .ok agent) ↔ partSeparator ∈ value := by
  constructor
  · rintro ⟨agent, parsed⟩
    rw [← value_of_parse parsed]
    exact List.mem_append_right _ List.mem_cons_self
  · intro held
    unfold parse
    split
    next missing =>
      have other := List.dropWhile_eq_nil_iff.mp missing partSeparator held
      rw [bne_self_eq_false] at other
      cases other
    next => exact ⟨_, rfl⟩

theorem value_eq_separator_iff : agent.value = [partSeparator] ↔ agent = empty := by
  obtain ⟨id, device⟩ := agent
  cases id <;> simp [value, empty]

theorem exists_create_iff {id device : Bytes} :
    (∃ agent, create id device = .ok agent) ↔ partSeparator ∉ id := by
  simp [create_eq_ok_iff]

end Agent

namespace Hop

variable {value name host proto : Bytes}

theorem exists_create_iff :
    (∃ hop, create name host proto = .ok hop) ↔ Separable ⟨name, host, proto⟩ := by
  simp [create_eq_ok_iff]

theorem create_parts_iff {hop : Hop} :
    create hop.name hop.host hop.proto = .ok hop ↔ hop.Separable := by
  rw [create_eq_ok_iff, and_iff_left rfl]

theorem exists_parse_iff : (∃ hop, parse value = .ok hop) ↔ value.count partSeparator = 2 := by
  have pieces := Bytes.length_splitOn partSeparator value
  constructor
  · rintro ⟨hop, parsed⟩
    rw [parse_eq_ok_iff.mp parsed] at pieces
    exact (Nat.succ.inj pieces).symm
  · intro two
    rw [two] at pieces
    obtain ⟨name, host, proto, split⟩ := List.length_eq_three.mp pieces
    exact ⟨⟨name, host, proto⟩, parse_eq_ok_iff.mpr split⟩

end Hop

namespace Forwarded

variable {forwarded : Forwarded} {value : Bytes}

theorem exists_parse_iff : (∃ forwarded, parse value = .ok forwarded) ↔
    ∀ piece ∈ value.splitOn hopSeparator, piece.count partSeparator = 2 := by
  simp only [← Hop.exists_parse_iff]
  exact Outcome.exists_mapM_iff

theorem value_of_parse (parsed : parse value = .ok forwarded) : forwarded.value = value := by
  have pieces : forwarded.map Hop.value = value.splitOn hopSeparator := by
    have hops := Outcome.mapM_eq_ok_iff.mp parsed
    rw [← List.forall₂_eq_eq_eq, List.forall₂_map_left_iff]
    exact hops.flip.imp fun hop piece read => Hop.value_of_parse read
  rw [Forwarded.value, pieces, List.intercalate_splitOn]

theorem ne_nil_of_parse (parsed : parse value = .ok forwarded) : forwarded ≠ [] := by
  rintro rfl
  have hops := Outcome.mapM_eq_ok_iff.mp parsed
  exact List.splitOn_ne_nil _ _ (List.forall₂_nil_right_iff.mp hops)

theorem parse_eq_ok_iff : parse value = .ok forwarded ↔
    forwarded ≠ [] ∧ forwarded.Separable ∧ forwarded.value = value := by
  constructor
  · intro parsed
    exact ⟨ne_nil_of_parse parsed, separable_of_parse parsed, value_of_parse parsed⟩
  · rintro ⟨some, separable, rfl⟩
    exact parse_value separable some

theorem parse_value_iff (some : forwarded ≠ []) :
    parse forwarded.value = .ok forwarded ↔ forwarded.Separable := by
  rw [parse_eq_ok_iff, and_iff_left rfl, and_iff_right some]

end Forwarded

/-- A chain is read from a value with two separators in each piece between commas, an agent from a
value with one at all, and the value is then the wire form of what was read. What would not come
back from its wire form cannot be made in the first place. -/
theorem parts_codecs_inverse :
    (∀ value, ((∃ chain, Forwarded.parse value = .ok chain) ↔
        ∀ piece ∈ value.splitOn hopSeparator, piece.count partSeparator = 2) ∧
      ∀ chain, Forwarded.parse value = .ok chain →
        chain ≠ [] ∧
        (∀ hop ∈ chain, ∀ part ∈ hop.parts, partSeparator ∉ part ∧ hopSeparator ∉ part) ∧
        chain.value = value) ∧
    (∀ chain : Forwarded, chain ≠ [] →
      ((∀ hop ∈ chain, Hop.create hop.name hop.host hop.proto = .ok hop) ↔
        Forwarded.parse chain.value = .ok chain)) ∧
    (∀ name host proto, (∃ error, Hop.create name host proto = .error error) ↔
      ∃ part ∈ [name, host, proto], partSeparator ∈ part ∨ hopSeparator ∈ part) ∧
    (∀ value, ((∃ agent, Agent.parse value = .ok agent) ↔ partSeparator ∈ value) ∧
      ∀ agent, Agent.parse value = .ok agent → agent.value = value) ∧
    ∀ id device,
      (partSeparator ∉ id → Agent.create id device = .ok ⟨id, device⟩ ∧
        Agent.parse (Agent.value ⟨id, device⟩) = .ok ⟨id, device⟩) ∧
      (partSeparator ∈ id → (∃ error, Agent.create id device = .error error) ∧
        Agent.parse (Agent.value ⟨id, device⟩) ≠ .ok ⟨id, device⟩) := by
  refine ⟨fun value => ⟨Forwarded.exists_parse_iff, ?_⟩, ?_, ?_, ?_, ?_⟩
  · intro chain parsed
    exact Forwarded.parse_eq_ok_iff.mp parsed
  · intro chain some
    simp only [Hop.create_parts_iff]
    exact (Forwarded.parse_value_iff some).symm
  · intro name host proto
    rw [Outcome.exists_error_iff, Hop.exists_create_iff]
    simp only [Hop.Separable, Hop.parts, not_forall, not_and_or, not_not, exists_prop]
  · intro value
    exact ⟨Agent.exists_parse_iff, fun agent parsed => Agent.value_of_parse parsed⟩
  · intro id device
    rw [Outcome.exists_error_iff, Agent.exists_create_iff, Agent.create_eq_ok_iff,
      ne_eq, Agent.parse_eq_ok_iff, and_iff_left rfl, and_iff_left rfl]
    exact ⟨fun free => ⟨free, free⟩, fun held => ⟨not_not.mpr held, not_not.mpr held⟩⟩

theorem parts_codecs_inverse_emptyParts :
    Forwarded.parse [97, 59, 59, 44, 59, 98, 59] = .ok [⟨[97], [], []⟩, ⟨[], [98], []⟩] ∧
      Forwarded.value [⟨[97], [], []⟩, ⟨[], [98], []⟩] = [97, 59, 59, 44, 59, 98, 59] ∧
      (¬∃ chain, Forwarded.parse [97, 59, 59, 44] = .ok chain) ∧
      Agent.parse (Agent.value ⟨[97], [59, 98]⟩) = .ok ⟨[97], [59, 98]⟩ := by
  obtain ⟨chains, -, -, -, agents⟩ := parts_codecs_inverse
  have parsed : Forwarded.parse [97, 59, 59, 44, 59, 98, 59] =
      .ok [⟨[97], [], []⟩, ⟨[], [98], []⟩] := by
    decide
  refine ⟨parsed, ((chains _).2 _ parsed).2.2, ?_, ?_⟩
  · rw [(chains _).1]
    decide
  · exact ((agents [97] [59, 98]).1 (by decide)).2

end HeaderCodec
