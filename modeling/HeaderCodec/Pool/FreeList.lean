/-! Items that wait to be used again, up to a number of them; the last one put back is the first one
taken. -/

namespace HeaderCodec

structure FreeList (α : Type) where
  idle : List α
  maxIdle : Nat
  deriving Repr

namespace FreeList

variable {α β : Type}

def ofMaxIdle (maxIdle : Nat) : FreeList α := ⟨[], maxIdle⟩

def idleCount (list : FreeList α) : Nat := list.idle.length

def pop (list : FreeList α) : Option α × FreeList α :=
  match list.idle with
  | [] => (none, list)
  | item :: rest => (some item, { list with idle := rest })

/-- Puts an item back and says whether it was kept: a full list drops it. -/
def push (list : FreeList α) (item : α) : Bool × FreeList α :=
  if list.maxIdle ≤ list.idleCount then (false, list)
  else (true, { list with idle := item :: list.idle })

theorem push_of_le {list : FreeList α} (full : list.maxIdle ≤ list.idleCount) (item : α) :
    list.push item = (false, list) := if_pos full

theorem push_of_lt {list : FreeList α} (room : list.idleCount < list.maxIdle) (item : α) :
    list.push item = (true, { list with idle := item :: list.idle }) := if_neg (Nat.not_le.mpr room)

def map (f : α → β) (list : FreeList α) : FreeList β :=
  ⟨list.idle.map f, list.maxIdle⟩

@[simp] theorem idleCount_map (f : α → β) (list : FreeList α) :
    (list.map f).idleCount = list.idleCount := List.length_map f

theorem push_map (f : α → β) (list : FreeList α) (item : α) :
    (list.map f).push (f item) = ((list.push item).1, (list.push item).2.map f) := by
  rcases Nat.lt_or_ge list.idleCount list.maxIdle with room | full
  · rw [push_of_lt room, push_of_lt (by rwa [idleCount_map])]
    rfl
  · rw [push_of_le full, push_of_le (by rwa [idleCount_map])]

end FreeList

end HeaderCodec
