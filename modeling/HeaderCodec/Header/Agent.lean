import HeaderCodec.Bytes
import HeaderCodec.Header.Error

/-! An agent is an id and a device, split at the first separator. A forwarding chain is a list of
hops of three parts each, and no part may hold either separator. -/

namespace HeaderCodec

/-- Stands between the parts of an agent and of a hop: a semicolon. -/
def partSeparator : UInt8 := 59

/-- Stands between the hops of a chain: a comma. -/
def hopSeparator : UInt8 := 44

structure Agent where
  id : Bytes
  device : Bytes
  deriving Repr, DecidableEq, BEq, ReflBEq, LawfulBEq

namespace Agent

def empty : Agent := ⟨[], []⟩

def create (id device : Bytes) : Except HeaderError Agent :=
  if id.contains partSeparator then .error (.reservedSeparator .agentId partSeparator)
  else .ok ⟨id, device⟩

def parse (value : Bytes) : Except HeaderError Agent :=
  match value.dropWhile (· != partSeparator) with
  | [] => .error .invalidAgent
  | _ :: device => .ok ⟨value.takeWhile (· != partSeparator), device⟩

def value (agent : Agent) : Bytes :=
  agent.id ++ partSeparator :: agent.device

def isEmpty (agent : Agent) : Bool :=
  agent.id.isEmpty && agent.device.isEmpty

end Agent

structure Hop where
  name : Bytes
  host : Bytes
  proto : Bytes
  deriving Repr, DecidableEq, BEq, ReflBEq, LawfulBEq

namespace Hop

def parts (hop : Hop) : List Bytes := [hop.name, hop.host, hop.proto]

/-- The first separator found in the parts, taken in order. -/
def reserved? (hop : Hop) : Option UInt8 :=
  hop.parts.findSome? fun part => [partSeparator, hopSeparator].find? fun separator =>
    part.contains separator

def create (name host proto : Bytes) : Except HeaderError Hop :=
  let hop : Hop := ⟨name, host, proto⟩
  match hop.reserved? with
  | some separator => .error (.reservedSeparator .forwardedHop separator)
  | none => .ok hop

def parse (value : Bytes) : Except HeaderError Hop :=
  match value.splitOn partSeparator with
  | [name, host, proto] => .ok ⟨name, host, proto⟩
  | _ => .error .invalidForwarded

def value (hop : Hop) : Bytes :=
  [partSeparator].intercalate hop.parts

end Hop

abbrev Forwarded := List Hop

namespace Forwarded

/-- Every piece between commas has to be a hop, so the empty value is no chain. -/
def parse (value : Bytes) : Except HeaderError Forwarded :=
  (value.splitOn hopSeparator).mapM Hop.parse

def value (forwarded : Forwarded) : Bytes :=
  [hopSeparator].intercalate (forwarded.map Hop.value)

end Forwarded

end HeaderCodec
