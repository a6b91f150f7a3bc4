import HeaderCodec.Header.Frame
import HeaderCodec.Proofs.Dictionary
import HeaderCodec.Proofs.Header.Agent
import HeaderCodec.Stream.Asynchronous
import HeaderCodec.Stream.Blocking

/-! Each operation on a header keeps what the wire form relies on: extensions have distinct names of
their own and say something, and separators only stand between parts. -/

namespace HeaderCodec

/-- A field that is kept as it is under its name. -/
structure Field.IsExtension (field : Field) : Prop where
  named : field.name ≠ []
  valued : field.value ≠ []
  lower : field.name.lower = field.name
  free : Attribute.ofName? field.name = none

namespace Header

/-- One operation on a header, whether it is refused or not. -/
inductive Step : Header → Header → Prop
  | set (header : Header) (name value : Bytes) : Step header (header.set name value).2
  | remove (header : Header) (name : Bytes) : Step header (header.remove name).2
  | setAgent (header : Header) (id device : Bytes) : Step header (header.setAgent id device).2
  | addForwarded (header : Header) (name host proto : Bytes) :
    Step header (header.addForwarded name host proto).2
  | setAuthorization (header : Header) (value : Bytes) :
    Step header { header with authorization := value }
  | setContentLength (header : Header) (length : UInt64) :
    Step header { header with contentLength := length }
  | setContentType (header : Header) (value : Bytes) :
    Step header { header with contentType := value }
  | setContentEncoding (header : Header) (value : Bytes) :
    Step header { header with contentEncoding := value }
  | clear (header : Header) (key : Attribute) : Step header (header.clearAttribute key)
  | reset (header : Header) : Step header header.reset
  | update (header : Header) (codec : Codec) (frame : Bytes) :
    Step header (header.update codec frame).2
  | parse (header : Header) (codec : Codec) (frame : Bytes) :
    Step header (header.parse codec frame).2
  | parseFrom (header : Header) (codec : Codec) (queue : ByteQueue) :
    Step header (header.parseFrom codec queue).2.1
  | receive (header : Header) (codec : Codec) (buffer : Buffer) (queue : ByteQueue) :
    Step header (header.receive codec buffer queue).2.1

def Reachable (header : Header) : Prop :=
  Relation.ReflTransGen Step empty header

/-- What the wire form relies on. -/
structure Lawful (header : Header) : Prop where
  agent : header.agent.Separable
  forwarded : header.forwarded.Separable
  extensions : ∀ field ∈ header.extensions, field.IsExtension
  distinct : (header.extensions.map Field.name).Nodup

theorem lawful_empty : empty.Lawful :=
  ⟨Agent.separable_empty, nofun, nofun, List.nodup_nil⟩

variable {header after : Header}

theorem Lawful.clearAttribute (lawful : header.Lawful) (key : Attribute) :
    (header.clearAttribute key).Lawful := by
  obtain ⟨agent, forwarded, extensions, distinct⟩ := lawful
  cases key with
  | agent => exact ⟨Agent.separable_empty, forwarded, extensions, distinct⟩
  | forwarded => exact ⟨agent, nofun, extensions, distinct⟩
  | authorization | contentLength | contentType | contentEncoding =>
    exact ⟨agent, forwarded, extensions, distinct⟩

theorem Lawful.assign (lawful : header.Lawful) {α : Type} {made : Except HeaderError α}
    {put : α → Header} (kept : ∀ value, made = .ok value → (put value).Lawful) :
    (header.assign made put).2.Lawful := by
  cases made with
  | error error => exact lawful
  | ok value => exact kept value rfl

theorem Lawful.setAttribute (lawful : header.Lawful) (value : Bytes) (key : Attribute) :
    (header.setAttribute value key).2.Lawful := by
  cases key with
  | agent =>
    refine lawful.assign fun agent parsed => ?_
    exact ⟨Agent.separable_of_parse parsed, lawful.forwarded, lawful.extensions, lawful.distinct⟩
  | forwarded =>
    refine lawful.assign fun chain parsed => ?_
    exact ⟨lawful.agent, Forwarded.separable_of_parse parsed, lawful.extensions, lawful.distinct⟩
  | contentLength =>
    refine lawful.assign fun length parsed => ?_
    exact ⟨lawful.agent, lawful.forwarded, lawful.extensions, lawful.distinct⟩
  | authorization | contentType | contentEncoding =>
    exact ⟨lawful.agent, lawful.forwarded, lawful.extensions, lawful.distinct⟩

theorem Lawful.setAgent (lawful : header.Lawful) (id device : Bytes) :
    (header.setAgent id device).2.Lawful := by
  refine lawful.assign fun agent made => ?_
  exact ⟨Agent.separable_of_create made, lawful.forwarded, lawful.extensions, lawful.distinct⟩

theorem Lawful.addForwarded (lawful : header.Lawful) (name host proto : Bytes) :
    (header.addForwarded name host proto).2.Lawful := by
  refine lawful.assign fun hop made => ⟨lawful.agent, ?_, lawful.extensions, lawful.distinct⟩
  intro other listed
  rcases List.mem_append.mp listed with earlier | last
  · exact lawful.forwarded other earlier
  · rw [List.mem_singleton.mp last]
    exact Hop.separable_of_create made

theorem mem_putExtension {name value : Bytes} {fields : List Field} {field : Field}
    (listed : field ∈ putExtension name value fields) : field = ⟨name, value⟩ ∨ field ∈ fields := by
  induction fields with
  | nil => exact .inl (List.mem_singleton.mp listed)
  | cons first rest ih =>
    rw [putExtension] at listed
    split at listed
    · rcases List.mem_cons.mp listed with new | later
      · exact .inl new
      · exact .inr (List.mem_cons_of_mem _ later)
    · rcases List.mem_cons.mp listed with rfl | later
      · exact .inr List.mem_cons_self
      · exact (ih later).imp id (List.mem_cons_of_mem _)

theorem putExtension_of_fresh {name : Bytes} (value : Bytes) {fields : List Field}
    (fresh : name ∉ fields.map Field.name) :
    putExtension name value fields = fields ++ [⟨name, value⟩] := by
  induction fields with
  | nil => rfl
  | cons first rest ih =>
    rw [List.map_cons, List.mem_cons, not_or] at fresh
    have other : ¬(first.name == name) = true := fun same => fresh.1 (beq_iff_eq.mp same).symm
    rw [putExtension, if_neg other, ih fresh.2, List.cons_append]

theorem map_name_putExtension_of_mem {name : Bytes} (value : Bytes) {fields : List Field}
    (known : name ∈ fields.map Field.name) :
    (putExtension name value fields).map Field.name = fields.map Field.name := by
  induction fields with
  | nil => cases known
  | cons first rest ih =>
    rw [putExtension]
    split
    next same => rw [List.map_cons, List.map_cons, beq_iff_eq.mp same]
    next other =>
      have later : name ∈ rest.map Field.name := by
        rcases List.mem_cons.mp known with here | later
        · exact absurd (beq_iff_eq.mpr here.symm) other
        · exact later
      rw [List.map_cons, List.map_cons, ih later]

theorem nodup_putExtension {name : Bytes} (value : Bytes) {fields : List Field}
    (distinct : (fields.map Field.name).Nodup) :
    ((putExtension name value fields).map Field.name).Nodup := by
  by_cases known : name ∈ fields.map Field.name
  · rwa [map_name_putExtension_of_mem value known]
  · rw [putExtension_of_fresh value known, List.map_append, List.map_singleton,
      ← List.concat_eq_append]
    exact (List.nodup_concat _ _).mpr ⟨known, distinct⟩

theorem Lawful.putExtension (lawful : header.Lawful) {name value : Bytes}
    (extension : Field.IsExtension ⟨name, value⟩) :
    Lawful { header with extensions := putExtension name value header.extensions } := by
  refine ⟨lawful.agent, lawful.forwarded, ?_, nodup_putExtension value lawful.distinct⟩
  intro field listed
  rcases mem_putExtension listed with rfl | earlier
  · exact extension
  · exact lawful.extensions field earlier

theorem Lawful.erase (lawful : header.Lawful) (name : Bytes) : (header.erase name).Lawful := by
  unfold Header.erase
  split
  · exact lawful.clearAttribute _
  · refine ⟨lawful.agent, lawful.forwarded, ?_, ?_⟩
    · intro field listed
      exact lawful.extensions field (List.mem_filter.mp listed).1
    · exact lawful.distinct.sublist (List.filter_sublist.map Field.name)

theorem Lawful.set (lawful : header.Lawful) (name value : Bytes) :
    (header.set name value).2.Lawful := by
  unfold Header.set
  split
  · exact lawful
  next named =>
  split
  · exact lawful.erase name
  next valued =>
  split
  · exact lawful.setAttribute value _
  next free =>
  apply lawful.putExtension
  exact ⟨mt Bytes.lower_eq_nil_iff.mp (mt List.isEmpty_iff.mpr named),
    mt List.isEmpty_iff.mpr valued, name.lower_lower, free⟩

theorem Lawful.setAll (lawful : header.Lawful) (fields : List Field) :
    (header.setAll fields).2.Lawful := by
  induction fields generalizing header with
  | nil => exact lawful
  | cons field rest ih =>
    have first := lawful.set field.name field.value
    rw [Header.setAll]
    split
    next refused => rwa [refused] at first
    next done =>
      rw [done] at first
      exact ih first

theorem Lawful.update (lawful : header.Lawful) (codec : Codec) (frame : Bytes) :
    (header.update codec frame).2.Lawful := by
  unfold Header.update
  split
  · exact lawful
  next fields _ =>
    have all := lawful.setAll fields
    split
    next result => rwa [result] at all
    next result => rwa [result] at all

theorem lawful_parse (header : Header) (codec : Codec) (frame : Bytes) :
    (header.parse codec frame).2.Lawful := by
  have updated := lawful_empty.update codec frame
  simp only [parse, reset_eq]
  split
  · exact lawful_empty
  next result => rwa [result] at updated

theorem lawful_parseFrom (header : Header) (codec : Codec) (queue : ByteQueue) :
    (header.parseFrom codec queue).2.1.Lawful := by
  simp only [parseFrom, reset_eq]
  split
  · exact lawful_empty
  next fields _ _ =>
    have all := lawful_empty.setAll fields
    split
    · exact lawful_empty
    next result => rwa [result] at all

theorem Lawful.receive (lawful : header.Lawful) (codec : Codec) (buffer : Buffer)
    (queue : ByteQueue) : (header.receive codec buffer queue).2.1.Lawful := by
  unfold Header.receive
  split
  · exact lawful
  · exact lawful_parse ..

theorem Step.lawful (step : Step header after) (lawful : header.Lawful) : after.Lawful := by
  cases step with
  | set name value => exact lawful.set name value
  | remove name => exact lawful.erase name
  | setAgent id device => exact lawful.setAgent id device
  | addForwarded name host proto => exact lawful.addForwarded name host proto
  | setAuthorization | setContentLength | setContentType | setContentEncoding =>
    exact ⟨lawful.agent, lawful.forwarded, lawful.extensions, lawful.distinct⟩
  | clear key => exact lawful.clearAttribute key
  | reset => exact lawful_empty
  | update codec frame => exact lawful.update codec frame
  | parse codec frame => exact lawful_parse header codec frame
  | parseFrom codec queue => exact lawful_parseFrom header codec queue
  | receive codec buffer queue => exact lawful.receive codec buffer queue

theorem Reachable.lawful (reachable : header.Reachable) : header.Lawful := by
  induction reachable with
  | refl => exact lawful_empty
  | tail _ step ih => exact step.lawful ih

def sample : Header :=
  { empty with agent := ⟨[97], [98]⟩, extensions := [⟨[120, 45], [49]⟩] }

theorem reachable_sample : sample.Reachable := by
  have made : (set (empty.setAgent [97] [98]).2 [88, 45] [49]).2 = sample := rfl
  rw [Reachable, ← made]
  exact (Relation.ReflTransGen.single (.setAgent _ _ _)).tail (.set _ _ _)

end Header

end HeaderCodec
