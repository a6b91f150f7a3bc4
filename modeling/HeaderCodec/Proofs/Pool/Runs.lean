import HeaderCodec.Pool.Endpoints
import Mathlib

/-! Between two operations on a pool the clients do with their items what they like, so any item
whatever may be put back. What the pool hands out depends on nothing but its settings. -/

namespace HeaderCodec

inductive PoolAction
  | acquire
  | release
  deriving DecidableEq, Repr

/-- An operation as its client sees it, with the number of idle items that it leaves. -/
inductive PoolEvent (Item : Type)
  | acquired (item : Item) (idle : Nat)
  | released (idle : Nat)
  deriving DecidableEq, Repr

namespace PoolEvent

variable {Item : Type}

def action : PoolEvent Item → PoolAction
  | acquired _ _ => .acquire
  | released _ => .release

/-- What is seen of a pool that hands out nothing but `fresh` and keeps up to `maxIdle` items. -/
def replay (fresh : Item) (maxIdle : Nat) :
    (idle : Nat) → (actions : List PoolAction) → List (PoolEvent Item)
  | _, [] => []
  | idle, .acquire :: rest =>
    let idle := idle - 1
    .acquired fresh idle :: replay fresh maxIdle idle rest
  | idle, .release :: rest =>
    let idle := min (idle + 1) maxIdle
    .released idle :: replay fresh maxIdle idle rest

end PoolEvent

structure Lending (Pool Item : Type) where
  acquire : Pool → Item × Pool
  release : Pool → Item → Pool
  idleCount : Pool → Nat

namespace Lending

variable {Pool Item : Type} {lending : Lending Pool Item} {pool last : Pool}
  {events : List (PoolEvent Item)}

inductive Run (lending : Lending Pool Item) : Pool → List (PoolEvent Item) → Pool → Prop
  | done (pool : Pool) : Run lending pool [] pool
  | acquire {pool next last : Pool} {item : Item} {events : List (PoolEvent Item)}
    (taken : lending.acquire pool = (item, next)) (later : Run lending next events last) :
    Run lending pool (.acquired item (lending.idleCount next) :: events) last
  | release {pool next last : Pool} {item : Item} {events : List (PoolEvent Item)}
    (given : lending.release pool item = next) (later : Run lending next events last) :
    Run lending pool (.released (lending.idleCount next) :: events) last

/-- A state of a pool that its operations keep and in which it hands out nothing but `fresh`. -/
structure Seals (lending : Lending Pool Item) (fresh : Item) (maxIdle : Nat)
    (Clean : Pool → Prop) : Prop where
  acquire {pool : Pool} (clean : Clean pool) : (lending.acquire pool).1 = fresh ∧
    lending.idleCount (lending.acquire pool).2 = lending.idleCount pool - 1 ∧
    Clean (lending.acquire pool).2
  release {pool : Pool} (clean : Clean pool) (item : Item) :
    lending.idleCount (lending.release pool item) = min (lending.idleCount pool + 1) maxIdle ∧
    Clean (lending.release pool item)

/-- A sealed pool shows what its settings determine, whatever was put back. -/
theorem Seals.run {fresh : Item} {maxIdle : Nat} {Clean : Pool → Prop}
    (seals : lending.Seals fresh maxIdle Clean) (run : lending.Run pool events last)
    (clean : Clean pool) : Clean last ∧
      events = PoolEvent.replay fresh maxIdle (lending.idleCount pool)
        (events.map PoolEvent.action) := by
  induction run with
  | done pool => exact ⟨clean, rfl⟩
  | acquire taken later ih =>
    obtain ⟨item, counted, kept⟩ := seals.acquire clean
    rw [taken] at item counted kept
    obtain ⟨cleanLast, seen⟩ := ih kept
    refine ⟨cleanLast, ?_⟩
    rw [List.map_cons, PoolEvent.action, PoolEvent.replay, ← counted, ← seen, ← item]
  | @release _ _ _ item _ given later ih =>
    obtain ⟨counted, kept⟩ := seals.release clean item
    rw [given] at counted kept
    obtain ⟨cleanLast, seen⟩ := ih kept
    refine ⟨cleanLast, ?_⟩
    rw [List.map_cons, PoolEvent.action, PoolEvent.replay, ← counted, ← seen]

end Lending

structure FreeList.Tidy {α : Type} (clean : α → Prop) (list : FreeList α) : Prop where
  clean : ∀ item ∈ list.idle, clean item
  bounded : list.idleCount ≤ list.maxIdle

namespace FreeList

variable {α : Type} {clean : α → Prop} {list : FreeList α}

@[simp] theorem maxIdle_pop (list : FreeList α) : list.pop.2.maxIdle = list.maxIdle := by
  obtain ⟨_ | ⟨item, rest⟩, maxIdle⟩ := list <;> rfl

@[simp] theorem maxIdle_push (list : FreeList α) (item : α) :
    (list.push item).2.maxIdle = list.maxIdle := by
  unfold push
  split <;> rfl

theorem idleCount_pop (list : FreeList α) : list.pop.2.idleCount = list.idleCount - 1 := by
  obtain ⟨_ | ⟨item, rest⟩, maxIdle⟩ := list <;> rfl

theorem tidy_ofMaxIdle (maxIdle : Nat) : (ofMaxIdle maxIdle : FreeList α).Tidy clean :=
  ⟨nofun, Nat.zero_le _⟩

theorem Tidy.pop (tidy : list.Tidy clean) (new : α) (fresh : clean new) :
    clean (list.pop.1.getD new) ∧ list.pop.2.Tidy clean := by
  obtain ⟨idle, maxIdle⟩ := list
  cases idle with
  | nil => exact ⟨fresh, tidy⟩
  | cons item rest =>
    have others : ∀ other ∈ rest, clean other := fun other listed =>
      tidy.clean other (List.mem_cons_of_mem _ listed)
    exact ⟨tidy.clean item List.mem_cons_self, others, Nat.le_of_succ_le tidy.bounded⟩

theorem eq_or_mem_of_push {item other : α} (listed : other ∈ (list.push item).2.idle) :
    other = item ∨ other ∈ list.idle := by
  rcases Nat.lt_or_ge list.idleCount list.maxIdle with room | full
  · rw [push_of_lt room] at listed
    exact List.mem_cons.mp listed
  · rw [push_of_le full] at listed
    exact .inr listed

theorem Tidy.idleCount_push (tidy : list.Tidy clean) (item : α) :
    (list.push item).2.idleCount = min (list.idleCount + 1) list.maxIdle := by
  rcases Nat.lt_or_ge list.idleCount list.maxIdle with room | full
  · rw [push_of_lt room, Nat.min_eq_left room]
    rfl
  · rw [push_of_le full, Nat.min_eq_right (Nat.le_succ_of_le full)]
    exact Nat.le_antisymm tidy.bounded full

theorem Tidy.push (tidy : list.Tidy clean) {item : α} (cleaned : clean item) :
    (list.push item).2.Tidy clean := by
  constructor
  · intro other listed
    rcases eq_or_mem_of_push listed with rfl | earlier
    · exact cleaned
    · exact tidy.clean other earlier
  · rw [tidy.idleCount_push, maxIdle_push]
    exact Nat.min_le_right _ _

end FreeList

namespace EndpointPool

def lending : Lending EndpointPool Endpoint := ⟨acquire, release, idleCount⟩

structure Clean (settings : Codec) (maxIdle : Nat) (pool : EndpointPool) : Prop where
  settings : pool.settings = settings
  maxIdle : pool.free.maxIdle = maxIdle
  free : pool.free.Tidy fun endpoint => endpoint.scratch = []

theorem seals (settings : Codec) (maxIdle : Nat) :
    lending.Seals (.ofCodec settings) maxIdle (Clean settings maxIdle) := by
  constructor
  · intro pool clean
    obtain ⟨unwritten, tidy⟩ := clean.free.pop .default rfl
    have item : pool.acquire.1 = .ofCodec settings := by
      rw [Endpoint.ofCodec, ← clean.settings, ← unwritten]
      rfl
    refine ⟨item, pool.free.idleCount_pop, clean.settings, ?_, tidy⟩
    exact pool.free.maxIdle_pop.trans clean.maxIdle
  · intro pool clean endpoint
    have counted := clean.free.idleCount_push endpoint.reset
    rw [clean.maxIdle] at counted
    refine ⟨counted, clean.settings, ?_, clean.free.push rfl⟩
    exact (pool.free.maxIdle_push endpoint.reset).trans clean.maxIdle

theorem settings_of_run {pool last : EndpointPool} {events : List (PoolEvent Endpoint)}
    (run : lending.Run pool events last) : last.settings = pool.settings := by
  induction run with
  | done pool => rfl
  | acquire taken later ih =>
    cases taken
    exact ih
  | release given later ih =>
    cases given
    exact ih

end EndpointPool

namespace HeaderPool

def lending : Lending HeaderPool Header := ⟨acquire, release, idleCount⟩

structure Clean (maxIdle : Nat) (pool : HeaderPool) : Prop where
  maxIdle : pool.free.maxIdle = maxIdle
  free : pool.free.Tidy fun header => header = .empty

theorem seals (maxIdle : Nat) : lending.Seals .empty maxIdle (Clean maxIdle) := by
  constructor
  · intro pool clean
    obtain ⟨item, tidy⟩ := clean.free.pop .empty rfl
    exact ⟨item, pool.free.idleCount_pop, pool.free.maxIdle_pop.trans clean.maxIdle, tidy⟩
  · intro pool clean header
    have counted := clean.free.idleCount_push header.reset
    rw [clean.maxIdle] at counted
    refine ⟨counted, ?_, clean.free.push header.reset_eq⟩
    exact (pool.free.maxIdle_push header.reset).trans clean.maxIdle

theorem clean_create (maxIdle : Nat) : (create maxIdle).Clean maxIdle :=
  ⟨rfl, FreeList.tidy_ofMaxIdle maxIdle⟩

end HeaderPool

namespace BufferPool

variable {pool last : BufferPool} {lent : List Buffer}

/-- Any buffer may be given back or discarded. What was handed out stands in order. -/
inductive Run : BufferPool → List Buffer → BufferPool → Prop
  | done (pool : BufferPool) : Run pool [] pool
  | borrow {pool next last : BufferPool} {buffer : Buffer} {lent : List Buffer} (min : Nat)
    (taken : pool.borrow min = (buffer, next)) (later : Run next lent last) :
    Run pool (buffer :: lent) last
  | giveBack {pool last : BufferPool} {lent : List Buffer} (buffer : Buffer)
    (later : Run (pool.giveBack buffer) lent last) : Run pool lent last
  | discard {pool last : BufferPool} {lent : List Buffer} (buffer : Buffer)
    (later : Run (pool.discard buffer) lent last) : Run pool lent last

def Clean (pool : BufferPool) : Prop :=
  pool.free.Tidy fun buffer => buffer.bytes = []

theorem clean_create (maxIdle maxCapacity : Nat) : (create maxIdle maxCapacity).Clean :=
  FreeList.tidy_ofMaxIdle maxIdle

theorem Clean.borrow (clean : pool.Clean) (min : Nat) :
    (pool.borrow min).1.bytes = [] ∧ (pool.borrow min).2.Clean := by
  obtain ⟨cleared, tidy⟩ := FreeList.Tidy.pop clean .empty rfl
  exact ⟨(Buffer.bytes_reserve _ min).trans cleared, tidy⟩

theorem Clean.giveBack (clean : pool.Clean) (buffer : Buffer) : (pool.giveBack buffer).Clean := by
  unfold BufferPool.giveBack
  split
  · exact clean
  · exact FreeList.Tidy.push clean buffer.bytes_clear

theorem Run.lent_empty (run : Run pool lent last) (clean : pool.Clean) :
    ∀ buffer ∈ lent, buffer.bytes = [] := by
  induction run with
  | done pool => exact nofun
  | borrow min taken later ih =>
    obtain ⟨empty, kept⟩ := clean.borrow min
    rw [taken] at empty kept
    exact List.forall_mem_cons.mpr ⟨empty, ih kept⟩
  | giveBack buffer later ih => exact ih (clean.giveBack buffer)
  | discard buffer later ih => exact ih clean

end BufferPool

end HeaderCodec
