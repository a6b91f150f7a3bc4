import HeaderCodec.Proofs.Header.Lookup
import HeaderCodec.Proofs.Header.Parts

/-! Setting or removing a field changes what is found under its name, in any case, and nothing else.
A known extension is replaced where it stands, and a new one goes last. -/

namespace HeaderCodec

namespace Attribute

def Accepts : Attribute → Bytes → Prop
  | agent, value => partSeparator ∈ value
  | forwarded, value => ∀ hop ∈ value.splitOn hopSeparator, (hop.splitOn partSeparator).length = 3
  | contentLength, value => ∃ length, Varint.Spells value length
  | _, _ => True

/-- What is found where a value was set. A content length comes back in the fewest bytes that spell
it, and an agent without id and device does not come back. -/
def Shows : Attribute → Bytes → Option Bytes → Prop
  | agent, value, shown => shown = if value = [partSeparator] then none else some value
  | contentLength, value, shown => ∃ length shortest, Varint.Spells value length ∧
    shown = some shortest ∧ Varint.Spells shortest length ∧
    ∀ other, Varint.Spells other length → shortest.length ≤ other.length
  | _, value, shown => shown = some value

end Attribute

namespace Header

variable {header source target after : Header} {key : Attribute} {name value : Bytes}

theorem valueOf?_carry_self : (source.carry target key).valueOf? key = source.valueOf? key := by
  cases key <;> rfl

theorem valueOf?_carry_of_ne {other : Attribute} (different : key ≠ other) :
    (source.carry target key).valueOf? other = target.valueOf? other := by
  cases key <;> cases other <;> first | rfl | exact absurd rfl different

theorem extensions_carry : (source.carry target key).extensions = target.extensions := by
  cases key <;> rfl

theorem clearAttribute_eq : header.clearAttribute key = empty.carry header key := by
  cases key <;> rfl

theorem parseContentLength_eq_ok_iff {length : UInt64} :
    parseContentLength value = .ok length ↔ Varint.Spells value length.toNat := by
  unfold parseContentLength
  constructor
  · intro parsed
    split at parsed
    next number size decoded =>
      split at parsed
      next whole =>
        cases parsed
        have spelled := (Varint.decode_eq_ok_iff.mp decoded).2
        rw [whole, List.take_length] at spelled
        rwa [Nat.toUInt64, UInt64.toNat_ofNat_of_lt' spelled.lt]
      · cases parsed
    · cases parsed
  · intro spelled
    have decoded := spelled.decode_append []
    rw [List.append_nil] at decoded
    simp [decoded]

theorem valueOf?_empty :
    empty.valueOf? key = if key = .contentLength then some (Varint.encode 0) else none := by
  cases key <;> rfl

theorem isSetAt_iff : header.isSetAt key = true ↔
    if key = .contentLength then header.contentLength ≠ 0
    else ∃ value, header.valueOf? key = some value := by
  cases key <;> simp [isSetAt, Option.isSome_iff_exists]

theorem carry_of_setAttribute (done : header.setAttribute value key = (.ok (), after)) :
    after = after.carry header key := by
  cases key with
  | agent | forwarded | contentLength =>
    obtain ⟨parsed, -, rfl⟩ := assign_eq_ok_iff.mp done
    rfl
  | authorization | contentType | contentEncoding =>
    cases done
    rfl

theorem setAttribute_fst_eq_ok_iff :
    (header.setAttribute value key).1 = .ok () ↔ key.Accepts value := by
  cases key with
  | agent => exact assign_fst_eq_ok_iff.trans Agent.exists_parse_iff
  | forwarded =>
    simp only [Attribute.Accepts, Bytes.length_splitOn, Nat.succ_inj]
    exact assign_fst_eq_ok_iff.trans Forwarded.exists_parse_iff
  | contentLength =>
    refine assign_fst_eq_ok_iff.trans ?_
    simp only [parseContentLength_eq_ok_iff, Attribute.Accepts]
    constructor
    · rintro ⟨length, spelled⟩
      exact ⟨length.toNat, spelled⟩
    · rintro ⟨number, spelled⟩
      exact ⟨.ofNat number, by rwa [UInt64.toNat_ofNat_of_lt' spelled.lt]⟩
  | authorization | contentType | contentEncoding => exact iff_of_true rfl trivial

theorem setAttribute_of_refused {error : HeaderError}
    (refused : (header.setAttribute value key).1 = .error error) :
    (header.setAttribute value key).2 = header := by
  cases key with
  | agent | forwarded | contentLength => exact assign_of_refused refused
  | authorization | contentType | contentEncoding => cases refused

theorem shows_of_setAttribute (filled : value ≠ [])
    (done : header.setAttribute value key = (.ok (), after)) :
    key.Shows value (after.valueOf? key) := by
  cases key with
  | agent =>
    obtain ⟨agent, parsed, rfl⟩ := assign_eq_ok_iff.mp done
    rw [← Agent.value_of_parse parsed]
    simp only [Attribute.Shows, valueOf?, agent?, Agent.isEmpty_iff, Agent.value_eq_separator_iff]
    split <;> rfl
  | forwarded =>
    obtain ⟨chain, parsed, rfl⟩ := assign_eq_ok_iff.mp done
    obtain ⟨hops, -, rfl⟩ := Forwarded.parse_eq_ok_iff.mp parsed
    exact if_neg (mt List.isEmpty_iff.mp hops)
  | contentLength =>
    obtain ⟨length, parsed, rfl⟩ := assign_eq_ok_iff.mp done
    rw [parseContentLength_eq_ok_iff] at parsed
    exact ⟨length.toNat, _, parsed, rfl, Varint.spells_encode parsed.lt,
      fun other spelled => spelled.groups.length_encode_le⟩
  | authorization | contentType | contentEncoding =>
    cases done
    exact present?_eq_some_iff.mpr ⟨filled, rfl⟩

theorem find?_putExtension (name value sought : Bytes) (fields : List Field) :
    (putExtension name value fields).find? (fun field => field.name == sought) =
      if name = sought then some ⟨name, value⟩
      else fields.find? fun field => field.name == sought := by
  induction fields with
  | nil => grind [putExtension]
  | cons field rest ih =>
    rw [putExtension]
    split
    next known =>
      obtain rfl : field.name = name := beq_iff_eq.mp known
      grind
    next unknown =>
      rw [List.find?_cons, List.find?_cons, ih]
      grind

theorem find?_without (name sought : Bytes) (fields : List Field) :
    (fields.filter fun field => field.name != name).find? (fun field => field.name == sought) =
      if name = sought then none else fields.find? fun field => field.name == sought := by
  induction fields with
  | nil => simp
  | cons field rest ih => grind

section

variable {before behind : List Field} {old : Bytes}

theorem fresh_of_nodup (distinct : ((before ++ ⟨name, old⟩ :: behind).map Field.name).Nodup) :
    name ∉ before.map Field.name ∧ name ∉ behind.map Field.name := by
  rw [List.map_append, List.map_cons, List.nodup_middle, List.nodup_cons, List.mem_append,
    not_or] at distinct
  exact distinct.1

theorem putExtension_inPlace (value : Bytes) (fresh : name ∉ before.map Field.name) :
    putExtension name value (before ++ ⟨name, old⟩ :: behind) =
      before ++ ⟨name, value⟩ :: behind := by
  induction before with
  | nil => rw [List.nil_append, putExtension, if_pos (beq_self_eq_true name), List.nil_append]
  | cons field rest ih =>
    rw [List.map_cons, List.mem_cons, not_or] at fresh
    have other : ¬(field.name == name) = true := fun same => fresh.1 (beq_iff_eq.mp same).symm
    rw [List.cons_append, putExtension, if_neg other, ih fresh.2, List.cons_append]

theorem without_of_fresh {fields : List Field} (fresh : name ∉ fields.map Field.name) :
    (fields.filter fun field => field.name != name) = fields := by
  rw [List.filter_eq_self]
  intro field listed
  rw [bne_iff_ne]
  rintro rfl
  exact fresh (List.mem_map_of_mem listed)

theorem without_inPlace (distinct : ((before ++ ⟨name, old⟩ :: behind).map Field.name).Nodup) :
    ((before ++ ⟨name, old⟩ :: behind).filter fun field => field.name != name) =
      before ++ behind := by
  obtain ⟨front, back⟩ := fresh_of_nodup distinct
  rw [List.filter_append, List.filter_cons_of_neg (by simp), without_of_fresh front,
    without_of_fresh back]

end

theorem get?_carry_of_ne {other : Bytes} (different : other.lower ≠ key.name) :
    (source.carry target key).get? other = target.get? other := by
  rcases attribute_or_free other with ⟨otherKey, named⟩ | free
  · rw [get?_of_attribute named, get?_of_attribute named, valueOf?_carry_of_ne]
    rintro rfl
    exact different named
  · rw [get?_of_free free, get?_of_free free, extension?, extension?, extensions_carry]

theorem valueOf?_withExtensions (fields : List Field) :
    valueOf? { header with extensions := fields } key = header.valueOf? key := by
  cases key <;> rfl

theorem get?_withExtensions {fields : List Field} {other : Bytes}
    (same : fields.find? (fun field => field.name == other.lower) =
      header.extensions.find? fun field => field.name == other.lower) :
    get? { header with extensions := fields } other = header.get? other := by
  rcases attribute_or_free other with ⟨otherKey, named⟩ | free
  · rw [get?_of_attribute named, get?_of_attribute named, valueOf?_withExtensions]
  · rw [get?_of_free free, get?_of_free free, extension?, extension?, same]

theorem isSet_of_attribute (named : name.lower = key.name) :
    header.isSet name = header.isSetAt key := by
  rw [isSet, Attribute.ofName?_eq_some_iff.mpr named]

theorem isSet_of_free (free : ∀ key : Attribute, name.lower ≠ key.name) :
    header.isSet name = (header.get? name).isSome := by
  rw [isSet, Attribute.ofName?_eq_none_iff.mpr free, get?_of_free free, extension?,
    Option.isSome_map, List.isSome_find?]

theorem erase_of_attribute (named : name.lower = key.name) :
    header.erase name = empty.carry header key := by
  rw [erase, Attribute.ofName?_eq_some_iff.mpr named, ← clearAttribute_eq]

theorem erase_of_free (free : ∀ key : Attribute, name.lower ≠ key.name) :
    header.erase name =
      { header with extensions := header.extensions.filter fun field => field.name != name.lower } := by
  rw [erase, Attribute.ofName?_eq_none_iff.mpr free]

/-- What setting a field that has a name and a value does to a header. -/
structure HasSet (header : Header) (name value : Bytes) (after : Header) : Prop where
  ofAttribute : ∀ key : Attribute, name.lower = key.name →
    key.Shows value (after.get? name) ∧ after.extensions = header.extensions
  ofExtension : (∀ key : Attribute, name.lower ≠ key.name) →
    after.get? name = some value ∧ (name.lower ∉ header.extensions.map Field.name →
      after.extensions = header.extensions ++ [⟨name.lower, value⟩])
  inPlace : ∀ before old behind, header.extensions = before ++ ⟨name.lower, old⟩ :: behind →
    after.extensions = before ++ ⟨name.lower, value⟩ :: behind
  others : ∀ other, other.lower ≠ name.lower → after.get? other = header.get? other

/-- What removing a field does to a header, and what is told about it. A content length is always
there, so it is told whether it was zero. -/
structure HasRemoved (header : Header) (name : Bytes) (was : Bool) (after : Header) : Prop where
  gone : after.get? name =
    if name.lower = Attribute.contentLength.name then some (Varint.encode 0) else none
  told : was = true ↔ if name.lower = Attribute.contentLength.name then header.contentLength ≠ 0
    else ∃ value, header.get? name = some value
  absent : name.lower ∉ header.extensions.map Field.name → after.extensions = header.extensions
  inPlace : ∀ before old behind, header.extensions = before ++ ⟨name.lower, old⟩ :: behind →
    after.extensions = before ++ behind
  others : ∀ other, other.lower ≠ name.lower → after.get? other = header.get? other

theorem Lawful.not_extension (lawful : header.Lawful) (named : name.lower = key.name) :
    name.lower ∉ header.extensions.map Field.name := by
  intro listed
  obtain ⟨field, extension, same⟩ := List.mem_map.mp listed
  exact lawful.name_free extension key (same.trans named)

theorem Lawful.hasSet (lawful : header.Lawful) (given : name ≠ []) (filled : value ≠ [])
    (done : header.set name value = (.ok (), after)) : header.HasSet name value after := by
  rcases attribute_or_free name with ⟨key, named⟩ | free
  · rw [set_of_attribute filled named] at done
    have taken := carry_of_setAttribute done
    have kept : after.extensions = header.extensions := by
      rw [taken, extensions_carry]
    constructor
    case ofAttribute =>
      intro other otherNamed
      obtain rfl := Attribute.name_injective (named.symm.trans otherNamed)
      rw [get?_of_attribute named]
      exact ⟨shows_of_setAttribute filled done, kept⟩
    case ofExtension =>
      intro free
      exact absurd named (free key)
    case inPlace =>
      intro before old behind listed
      have none := lawful.not_extension named
      simp [listed] at none
    case others =>
      intro other different
      rw [taken]
      exact get?_carry_of_ne (named ▸ different)
  · rw [set_of_free given filled free] at done
    cases done
    constructor
    case ofAttribute =>
      intro key named
      exact absurd named (free key)
    case ofExtension =>
      intro _
      rw [get?_of_free free, extension?, find?_putExtension, if_pos rfl]
      exact ⟨rfl, putExtension_of_fresh value⟩
    case inPlace =>
      intro before old behind listed
      have distinct := lawful.distinct
      rw [listed] at distinct
      simp only [listed, putExtension_inPlace value (fresh_of_nodup distinct).1]
    case others =>
      intro other different
      apply get?_withExtensions
      rw [find?_putExtension, if_neg different.symm]

theorem Lawful.hasRemoved (lawful : header.Lawful) (name : Bytes) :
    header.HasRemoved name (header.isSet name) (header.erase name) := by
  rcases attribute_or_free name with ⟨key, named⟩ | free
  · have counted : name.lower = Attribute.contentLength.name ↔ key = .contentLength := by
      rw [named, Attribute.name_injective.eq_iff]
    rw [erase_of_attribute named]
    constructor
    case gone => simp only [get?_of_attribute named, valueOf?_carry_self, valueOf?_empty, counted]
    case told => simp only [isSet_of_attribute named, isSetAt_iff, get?_of_attribute named, counted]
    case absent =>
      intro _
      exact extensions_carry
    case inPlace =>
      intro before old behind listed
      have none := lawful.not_extension named
      simp [listed] at none
    case others =>
      intro other different
      exact get?_carry_of_ne (named ▸ different)
  · rw [erase_of_free free]
    constructor
    case gone =>
      rw [get?_of_free free, extension?, find?_without, if_pos rfl, if_neg (free _)]
      rfl
    case told => rw [isSet_of_free free, if_neg (free _), Option.isSome_iff_exists]
    case absent => exact without_of_fresh
    case inPlace =>
      intro before old behind listed
      have distinct := lawful.distinct
      rw [listed] at distinct ⊢
      exact without_inPlace distinct
    case others =>
      intro other different
      apply get?_withExtensions
      rw [find?_without, if_neg different.symm]

theorem Lawful.erase_nil (lawful : header.Lawful) : header.erase [] = header := by
  have free (key : Attribute) : Bytes.lower [] ≠ key.name := key.name_ne_nil.symm
  rw [erase_of_free free, without_of_fresh]
  intro listed
  obtain ⟨field, extension, unnamed⟩ := List.mem_map.mp listed
  exact (lawful.extensions field extension).named unnamed

theorem set_fst_eq_ok_iff (given : name ≠ []) (filled : value ≠ []) :
    (header.set name value).1 = .ok () ↔
      ∀ key : Attribute, name.lower = key.name → key.Accepts value := by
  rcases attribute_or_free name with ⟨key, named⟩ | free
  · rw [set_of_attribute filled named, setAttribute_fst_eq_ok_iff]
    constructor
    · intro accepted other otherNamed
      rwa [← Attribute.name_injective (named.symm.trans otherNamed)]
    · intro accepted
      exact accepted key named
  · rw [set_of_free given filled free]
    exact iff_of_true rfl fun key named => absurd named (free key)

theorem set_of_refused {error : HeaderError} (given : name ≠ []) (filled : value ≠ [])
    (refused : (header.set name value).1 = .error error) : (header.set name value).2 = header := by
  rcases attribute_or_free name with ⟨key, named⟩ | free
  · rw [set_of_attribute filled named] at refused ⊢
    exact setAttribute_of_refused refused
  · rw [set_of_free given filled free] at refused
    cases refused

/-- A header maps names in any case to values, in an order. A value is refused only by an attribute
that needs another form, and then nothing changes. Otherwise the value is found under the name
afterwards, a removed one is not, and all other names lead where they led before. -/
theorem ordered_map (made : header.Reachable) (name value : Bytes) :
    (name ≠ [] → value ≠ [] →
      ((∃ error, (header.set name value).1 = .error error) ↔
        ∃ key : Attribute, name.lower = key.name ∧ ¬key.Accepts value) ∧
      (∀ error, (header.set name value).1 = .error error → (header.set name value).2 = header) ∧
      ((header.set name value).1 = .ok () →
        header.HasSet name value (header.set name value).2)) ∧
    header.HasRemoved name (header.remove name).1 (header.remove name).2 ∧
    header.set name [] = (.ok (), (header.remove name).2) ∧
    header.set [] value = (.ok (), header) := by
  have lawful := made.lawful
  refine ⟨fun given filled => ⟨?_, fun _ => set_of_refused given filled, ?_⟩,
    lawful.hasRemoved name, ?_, rfl⟩
  · rw [Outcome.exists_error_iff, Unique.exists_iff]
    refine (not_congr (set_fst_eq_ok_iff given filled)).trans ?_
    simp only [not_forall, exists_prop]
  · intro done
    exact lawful.hasSet given filled (Prod.ext done rfl)
  · by_cases given : name = []
    · rw [given, remove, lawful.erase_nil]
      rfl
    · rw [set, if_neg (mt List.isEmpty_iff.mp given)]
      rfl

theorem ordered_map_sample :
    sample.Reachable ∧
      (∃ after, sample.set [88, 45] [50] = (.ok (), after) ∧ after.get? [120, 45] = some [50] ∧
        after.extensions = [⟨[120, 45], [50]⟩] ∧
        after.get? Attribute.agent.name = some [97, 59, 98]) ∧
      (∃ error, sample.set Attribute.agent.name [97] = (.error error, sample)) ∧
      (sample.remove [88, 45]).1 = true ∧ (sample.remove [88, 45]).2.extensions = [] := by
  have extension : ∀ key : Attribute, Bytes.lower [88, 45] ≠ key.name := by
    intro key
    cases key <;> decide
  obtain ⟨assigned, removed, -, -⟩ := ordered_map reachable_sample [88, 45] [50]
  obtain ⟨-, -, done⟩ := assigned (by decide) (by decide)
  have changed := done rfl
  have agent : (sample.set [88, 45] [50]).2.get? Attribute.agent.name = some [97, 59, 98] := by
    rw [changed.others Attribute.agent.name (by decide)]
    decide
  obtain ⟨refusal, unchanged, -⟩ := (ordered_map reachable_sample Attribute.agent.name [97]).1
    Attribute.agent.name_ne_nil (by decide)
  have unseparated : ¬Attribute.agent.Accepts [97] := by
    simp [Attribute.Accepts, partSeparator]
  obtain ⟨error, refused⟩ := refusal.mpr ⟨.agent, Attribute.agent.lower_name, unseparated⟩
  refine ⟨reachable_sample, ⟨_, rfl, (changed.ofExtension extension).1,
    changed.inPlace [] [49] [] rfl, agent⟩, ⟨error, Prod.ext refused (unchanged error refused)⟩,
    ?_, removed.inPlace [] [49] [] rfl⟩
  rw [removed.told, if_neg (extension _)]
  exact ⟨[49], by decide⟩

end Header

end HeaderCodec
