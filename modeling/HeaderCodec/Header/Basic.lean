import HeaderCodec.Field
import HeaderCodec.Header.Agent
import HeaderCodec.Varint

/-! Six attributes have a place of their own, every other field is an extension, kept under its
lower-case name in the order of its first setting. An empty value means that the field is not
set. -/

namespace HeaderCodec

inductive Attribute
  | agent
  | forwarded
  | authorization
  | contentLength
  | contentType
  | contentEncoding
  deriving DecidableEq, Repr

namespace Attribute

/-- The attributes in the order in which they travel. -/
def all : List Attribute :=
  [agent, forwarded, authorization, contentLength, contentType, contentEncoding]

def text : Attribute → String
  | agent => "agent"
  | forwarded => "forwarded"
  | authorization => "authorization"
  | contentLength => "content-length"
  | contentType => "content-type"
  | contentEncoding => "content-encoding"

def name (key : Attribute) : Bytes :=
  Bytes.ofText key.text

def ofName? (name : Bytes) : Option Attribute :=
  all.find? fun key => key.name == name

end Attribute

structure Header where
  agent : Agent
  forwarded : Forwarded
  authorization : Bytes
  contentLength : UInt64
  contentType : Bytes
  contentEncoding : Bytes
  extensions : List Field
  deriving Repr, DecidableEq, BEq, ReflBEq, LawfulBEq

/-- The value, if it says anything. -/
def present? (value : Bytes) : Option Bytes :=
  if value.isEmpty then none else some value

namespace Header

def empty : Header := ⟨.empty, [], [], 0, [], [], []⟩

def agent? (header : Header) : Option Agent :=
  if header.agent.isEmpty then none else some header.agent

/-- The wire form of an attribute. The content length always has one. -/
def valueOf? (header : Header) : Attribute → Option Bytes
  | .agent => header.agent?.map Agent.value
  | .forwarded => if header.forwarded.isEmpty then none else some header.forwarded.value
  | .authorization => present? header.authorization
  | .contentLength => some (Varint.encode header.contentLength.toNat)
  | .contentType => present? header.contentType
  | .contentEncoding => present? header.contentEncoding

def extension? (header : Header) (name : Bytes) : Option Bytes :=
  (header.extensions.find? fun field => field.name == name).map Field.value

def get? (header : Header) (name : Bytes) : Option Bytes :=
  match Attribute.ofName? name.lower with
  | some key => header.valueOf? key
  | none => header.extension? name.lower

/-- All fields that are set, in the order in which they travel. -/
def fields (header : Header) : List Field :=
  (Attribute.all.filterMap fun key =>
    (header.valueOf? key).map fun value => ⟨key.name, value⟩) ++ header.extensions

/-- Puts a value in its place. One that could not be made leaves the header as it was. -/
def assign {α : Type} (header : Header) (made : Except HeaderError α) (put : α → Header) :
    Except HeaderError Unit × Header :=
  match made with
  | .error error => (.error error, header)
  | .ok value => (.ok (), put value)

section

variable {α : Type} {header after : Header} {made : Except HeaderError α} {put : α → Header}

theorem assign_eq_ok_iff :
    header.assign made put = (.ok (), after) ↔ ∃ value, made = .ok value ∧ put value = after := by
  cases made <;> simp [assign]

theorem assign_fst_eq_error_iff {error : HeaderError} :
    (header.assign made put).1 = .error error ↔ made = .error error := by
  cases made <;> simp [assign]

theorem assign_fst_eq_ok_iff :
    (header.assign made put).1 = .ok () ↔ ∃ value, made = .ok value := by
  cases made <;> simp [assign]

theorem assign_of_refused {error : HeaderError}
    (refused : (header.assign made put).1 = .error error) :
    (header.assign made put).2 = header := by
  rw [assign_fst_eq_error_iff.mp refused]
  rfl

end

def setAgent (header : Header) (id device : Bytes) : Except HeaderError Unit × Header :=
  header.assign (Agent.create id device) fun agent => { header with agent }

def addForwarded (header : Header) (name host proto : Bytes) : Except HeaderError Unit × Header :=
  header.assign (Hop.create name host proto) fun hop =>
    { header with forwarded := header.forwarded ++ [hop] }

/-- A content length is one varint and nothing after it. -/
def parseContentLength (value : Bytes) : Except HeaderError UInt64 :=
  match Varint.decode value with
  | .ok (length, size) =>
    if size = value.length then .ok length.toUInt64 else .error .invalidContentLength
  | .error _ => .error .invalidContentLength

/-- Sets an attribute from its wire form. -/
def setAttribute (header : Header) (value : Bytes) :
    Attribute → Except HeaderError Unit × Header
  | .agent => header.assign (Agent.parse value) fun agent => { header with agent }
  | .forwarded => header.assign (Forwarded.parse value) fun forwarded => { header with forwarded }
  | .authorization => (.ok (), { header with authorization := value })
  | .contentLength =>
    header.assign (parseContentLength value) fun contentLength => { header with contentLength }
  | .contentType => (.ok (), { header with contentType := value })
  | .contentEncoding => (.ok (), { header with contentEncoding := value })

def clearAttribute (header : Header) : Attribute → Header
  | .agent => { header with agent := .empty }
  | .forwarded => { header with forwarded := [] }
  | .authorization => { header with authorization := [] }
  | .contentLength => { header with contentLength := 0 }
  | .contentType => { header with contentType := [] }
  | .contentEncoding => { header with contentEncoding := [] }

def isSetAt (header : Header) : Attribute → Bool
  | .contentLength => header.contentLength != 0
  | key => (header.valueOf? key).isSome

/-- Replaces the value of an extension where it stands, or appends a new one. -/
def putExtension (name value : Bytes) : List Field → List Field
  | [] => [⟨name, value⟩]
  | field :: rest =>
    if field.name == name then ⟨name, value⟩ :: rest
    else field :: putExtension name value rest

def isSet (header : Header) (name : Bytes) : Bool :=
  match Attribute.ofName? name.lower with
  | some key => header.isSetAt key
  | none => header.extensions.any fun field => field.name == name.lower

def erase (header : Header) (name : Bytes) : Header :=
  match Attribute.ofName? name.lower with
  | some key => header.clearAttribute key
  | none =>
    { header with extensions := header.extensions.filter fun field => field.name != name.lower }

def remove (header : Header) (name : Bytes) : Bool × Header :=
  (header.isSet name, header.erase name)

/-- Sets a field by its name in any case. An empty name is ignored, and an empty value removes
the field. -/
def set (header : Header) (name value : Bytes) : Except HeaderError Unit × Header :=
  if name.isEmpty then (.ok (), header)
  else if value.isEmpty then (.ok (), header.erase name)
  else
    match Attribute.ofName? name.lower with
    | some key => header.setAttribute value key
    | none =>
      (.ok (), { header with extensions := putExtension name.lower value header.extensions })

def reset (header : Header) : Header :=
  { Attribute.all.foldl clearAttribute header with extensions := [] }

@[simp] theorem reset_eq (header : Header) : header.reset = empty := rfl

/-- Sets fields one after the other up to the first that is refused. -/
def setAll (header : Header) : List Field → Except HeaderError Unit × Header
  | [] => (.ok (), header)
  | field :: rest =>
    match header.set field.name field.value with
    | (.error error, header) => (.error error, header)
    | (.ok (), header) => header.setAll rest

end Header

end HeaderCodec
