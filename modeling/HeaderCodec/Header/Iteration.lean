import HeaderCodec.Header.Basic

/-! A header gives its fields out one at a time. The first positions belong to the attributes and
are stepped over where nothing is set, except that a content length is always there. -/

namespace HeaderCodec

structure FieldCursor where
  header : Header
  position : Nat
  deriving Repr, DecidableEq

namespace FieldCursor

def start (header : Header) : FieldCursor := ⟨header, 0⟩

def advance (cursor : FieldCursor) : FieldCursor :=
  { cursor with position := cursor.position + 1 }

def optional (key : Attribute) (value : Bytes) : Option Field :=
  (present? value).map fun value => ⟨key.name, value⟩

/-- What stands at the position, which may be a gap. Nothing stands behind the last extension. -/
def visit : FieldCursor → Option (Option Field)
  | ⟨header, 0⟩ => some (header.agent?.map fun agent => ⟨Attribute.agent.name, agent.value⟩)
  | ⟨header, 1⟩ =>
    some (if header.forwarded.isEmpty then none
      else some ⟨Attribute.forwarded.name, header.forwarded.value⟩)
  | ⟨header, 2⟩ => some (optional .authorization header.authorization)
  | ⟨header, 3⟩ =>
    some (some ⟨Attribute.contentLength.name, Varint.encode header.contentLength.toNat⟩)
  | ⟨header, 4⟩ => some (optional .contentType header.contentType)
  | ⟨header, 5⟩ => some (optional .contentEncoding header.contentEncoding)
  | ⟨header, position + 6⟩ => header.extensions[position]?.map some

theorem position_lt_of_gap {cursor : FieldCursor} (gap : cursor.visit = some none) :
    cursor.position < 6 := by
  obtain ⟨header, position⟩ := cursor
  rcases Nat.lt_or_ge position 6 with inside | outside
  · exact inside
  · obtain ⟨place, rfl⟩ := Nat.exists_eq_add_of_le' outside
    obtain ⟨field, -, same⟩ := Option.map_eq_some_iff.mp gap
    cases same

/-- The next field that is set, and the place behind it. -/
def next (cursor : FieldCursor) : Option Field × FieldCursor :=
  match found : cursor.visit with
  | none => (none, cursor.advance)
  | some (some field) => (some field, cursor.advance)
  | some none =>
    have := position_lt_of_gap found
    cursor.advance.next
termination_by 6 - cursor.position
decreasing_by
  simp only [advance]
  omega

end FieldCursor

end HeaderCodec
