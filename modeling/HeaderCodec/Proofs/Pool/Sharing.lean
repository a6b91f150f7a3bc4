import HeaderCodec.Pool.Sharing
import HeaderCodec.Proofs.Pool.Runs
import HeaderCodec.Proofs.Reachable

/-! Clients share dictionaries with a pool, and change those that only they hold. So a pool whose
endpoints share dictionaries is seen as one whose endpoints have their own. -/

namespace HeaderCodec

namespace DictionaryStore

variable {store after : DictionaryStore} {place other : Nat}

theorem read_append (inside : place < store.length) (made : DictionaryStore) :
    read (store ++ made) place = store.read place :=
  List.getD_append store made .empty place inside

theorem read_length (store : DictionaryStore) (dictionary : Dictionary) :
    read (store ++ [dictionary]) store.length = dictionary := by
  simp [read]

theorem read_modify (apart : place ≠ other) (change : Dictionary → Dictionary) :
    read (store.modify place change) other = store.read other := by
  simp [read, apart]

theorem read_modify_self (inside : place < store.length) (change : Dictionary → Dictionary) :
    read (store.modify place change) place = change (store.read place) := by
  simp [read, inside]

/-- Nothing is taken away, and at some places nothing changes. -/
structure Keeps (store after : DictionaryStore) (places : List Nat) : Prop where
  length_le : store.length ≤ after.length
  read_eq : ∀ place ∈ places, place < store.length → after.read place = store.read place

theorem Keeps.lt {places : List Nat} (keeps : store.Keeps after places)
    (inside : place < store.length) : place < after.length :=
  Nat.lt_of_lt_of_le inside keeps.length_le

theorem Keeps.mono {places others : List Nat} (keeps : store.Keeps after others)
    (listed : places ⊆ others) : store.Keeps after places :=
  ⟨keeps.length_le, fun place held => keeps.read_eq place (listed held)⟩

theorem keeps_append (store made : DictionaryStore) (places : List Nat) :
    store.Keeps (store ++ made) places := by
  refine ⟨?_, fun place _ inside => read_append inside made⟩
  rw [List.length_append]
  exact Nat.le_add_right _ _

theorem keeps_modify (store : DictionaryStore) {places : List Nat} (apart : place ∉ places)
    (change : Dictionary → Dictionary) : store.Keeps (store.modify place change) places := by
  refine ⟨(List.length_modify change store place).ge, ?_⟩
  intro other listed _
  have different : place ≠ other := by
    rintro rfl
    exact apart listed
  exact read_modify different change

end DictionaryStore

namespace Holder

variable {holder : Holder} {store after : DictionaryStore} {places : List Nat}

theorem read_congr (keeps : store.Keeps after places) (listed : holder.place ∈ places)
    (inside : holder.place < store.length) : holder.read after = holder.read store := by
  rw [read, read, keeps.read_eq holder.place listed inside]

theorem keeps_reset (holder : Holder) (others : List Nat) (store : DictionaryStore) :
    store.Keeps (holder.reset others store).2 others := by
  unfold reset
  by_cases shared : holder.place ∈ others
  · rw [if_pos shared]
    exact store.keeps_append [.empty] others
  · rw [if_neg shared]
    exact store.keeps_modify shared Dictionary.reset

theorem place_reset_lt (inside : holder.place < store.length) (others : List Nat) :
    (holder.reset others store).1.place < (holder.reset others store).2.length := by
  unfold reset
  by_cases shared : holder.place ∈ others
  · simp [shared]
  · simpa [shared] using inside

theorem read_reset (inside : holder.place < store.length) (others : List Nat) :
    (holder.reset others store).1.read (holder.reset others store).2 =
      (holder.read store).reset := by
  unfold reset
  by_cases shared : holder.place ∈ others
  · simp only [if_pos shared, read, DictionaryStore.read_length]
    rfl
  · simp only [if_neg shared, read, DictionaryStore.read_modify_self inside]
    rfl

end Holder

namespace SharedPool

variable {pool next last : SharedPool} {events : List (PoolEvent Endpoint)}

structure Valid (pool : SharedPool) : Prop where
  own : ∀ place ∈ pool.places, place < pool.store.length
  out : ∀ holder ∈ pool.out, holder.place < pool.store.length

/-- What happens without the pool. Clients reset their endpoints. They make dictionaries, and come
by endpoints that hold any dictionary of the store: they load, share, write to and adjust those they
have, drop them, and make others. What neither the pool nor an idle endpoint holds they may change
in place. -/
inductive Change : SharedPool → SharedPool → Prop
  | reset {pool : SharedPool} {before after : List Holder} {holder emptied : Holder}
    {store : DictionaryStore} (held : pool.out = before ++ holder :: after)
    (done : holder.reset (pool.others (before ++ after)) pool.store = (emptied, store)) :
    Change pool { pool with store, out := before ++ emptied :: after }
  | clients (pool : SharedPool) (made : DictionaryStore) {out : List Holder}
    (placed : ∀ holder ∈ out, holder.place < (pool.store ++ made).length) (handles : List Nat) :
    Change pool { pool with store := pool.store ++ made, out, handles }
  | modify (pool : SharedPool) {place : Nat} (apart : place ∉ pool.places)
    (change : Dictionary → Dictionary) :
    Change pool { pool with store := pool.store.modify place change }

/-- A run as its clients see it, who read the dictionaries where they are. -/
inductive Run : SharedPool → List (PoolEvent Endpoint) → SharedPool → Prop
  | done (pool : SharedPool) : Run pool [] pool
  | change {pool next last : SharedPool} {events : List (PoolEvent Endpoint)}
    (step : Change pool next) (later : Run next events last) : Run pool events last
  | acquire {pool next last : SharedPool} {holder : Holder} {events : List (PoolEvent Endpoint)}
    (taken : pool.acquire = (holder, next)) (later : Run next events last) :
    Run pool (.acquired (holder.read next.store) next.free.idleCount :: events) last
  | release {pool next last : SharedPool} {before after : List Holder} {holder : Holder}
    {events : List (PoolEvent Endpoint)} (held : pool.out = before ++ holder :: after)
    (given : pool.release holder (before ++ after) = next) (later : Run next events last) :
    Run pool (.released next.free.idleCount :: events) last

theorem idleCount_read (pool : SharedPool) : pool.read.idleCount = pool.free.idleCount :=
  FreeList.idleCount_map _ pool.free

theorem places_subset_others (pool : SharedPool) (rest : List Holder) :
    pool.places ⊆ pool.others rest := by
  intro place listed
  exact List.mem_append_left _ (List.mem_append_left _ listed)

theorem Valid.keeps (valid : pool.Valid) {store : DictionaryStore} {out : List Holder}
    (keeps : pool.store.Keeps store pool.places)
    (placed : ∀ holder ∈ out, holder.place < store.length) (handles : List Nat) :
    Valid { pool with store, out, handles } ∧
      read { pool with store, out, handles } = pool.read := by
  have dictionary := keeps.read_eq pool.place List.mem_cons_self (valid.own _ List.mem_cons_self)
  have idle : pool.free.idle.map (fun holder => holder.read store) =
      pool.free.idle.map fun holder => holder.read pool.store := by
    apply List.map_congr_left
    intro holder listed
    have own : holder.place ∈ pool.places := List.mem_cons_of_mem _ (List.mem_map_of_mem listed)
    exact Holder.read_congr keeps own (valid.own _ own)
  refine ⟨⟨fun place listed => keeps.lt (valid.own place listed), placed⟩, ?_⟩
  simp only [read, FreeList.map, dictionary, idle]

theorem Valid.of_held (valid : pool.Valid) {before after : List Holder} {holder : Holder}
    (held : pool.out = before ++ holder :: after) : holder.place < pool.store.length ∧
      ∀ other ∈ before ++ after, other.place < pool.store.length := by
  have placed := valid.out
  rw [held, List.forall_mem_append, List.forall_mem_cons] at placed
  obtain ⟨earlier, inside, later⟩ := placed
  exact ⟨inside, List.forall_mem_append.mpr ⟨earlier, later⟩⟩

theorem Change.keeps (change : Change pool next) (valid : pool.Valid) :
    next.Valid ∧ next.read = pool.read := by
  cases change with
  | @reset before after holder emptied store held done =>
    have keeps := (holder.keeps_reset _ pool.store).mono
      (pool.places_subset_others (before ++ after))
    obtain ⟨inside, others⟩ := valid.of_held held
    have placed := Holder.place_reset_lt inside (pool.others (before ++ after))
    rw [done] at keeps placed
    apply valid.keeps keeps _ pool.handles
    intro other had
    rcases List.mem_append.mp had with earlier | later
    · exact keeps.lt (others other (List.mem_append_left _ earlier))
    rcases List.mem_cons.mp later with rfl | later
    · exact placed
    · exact keeps.lt (others other (List.mem_append_right _ later))
  | clients made placed handles =>
    exact valid.keeps (pool.store.keeps_append made pool.places) placed handles
  | modify apart change =>
    have keeps := pool.store.keeps_modify apart change
    exact valid.keeps keeps (fun holder had => keeps.lt (valid.out holder had)) pool.handles

theorem Valid.acquire (valid : pool.Valid) : pool.acquire.2.Valid ∧
    pool.read.acquire = (pool.acquire.1.read pool.acquire.2.store, pool.acquire.2.read) := by
  obtain ⟨store, ⟨idle, maxIdle⟩, maxFrameSize, place, coder, out, handles⟩ := pool
  obtain ⟨own, outside⟩ := valid
  have inside : place < store.length := own place List.mem_cons_self
  cases idle with
  | nil =>
    -- The new endpoint had a new dictionary, which it gives up for that of the pool.
    have keeps := store.keeps_append [.empty] [place]
    refine ⟨⟨fun place listed => keeps.lt (own place listed), ?_⟩, ?_⟩
    · exact List.forall_mem_cons.mpr
        ⟨keeps.lt inside, fun holder had => keeps.lt (outside holder had)⟩
    · have same := keeps.read_eq place List.mem_cons_self inside
      simp only [SharedPool.acquire, SharedPool.read, FreeList.pop, Holder.create, install,
        Holder.read, same]
      rfl
  | cons holder rest =>
    refine ⟨⟨?_, List.forall_mem_cons.mpr ⟨inside, outside⟩⟩, rfl⟩
    intro place listed
    rcases List.mem_cons.mp listed with rfl | idle
    · exact inside
    · exact own place (List.mem_cons_of_mem _ (List.mem_cons_of_mem _ idle))

theorem Valid.release (valid : pool.Valid) {holder : Holder} {rest : List Holder}
    (inside : holder.place < pool.store.length)
    (placed : ∀ other ∈ rest, other.place < pool.store.length) :
    (pool.release holder rest).Valid ∧
      (pool.release holder rest).read = pool.read.release (holder.read pool.store) := by
  have keeps : pool.store.Keeps (pool.release holder rest).store pool.places :=
    (holder.keeps_reset _ pool.store).mono (pool.places_subset_others rest)
  have others : ∀ other ∈ rest, other.place < (pool.release holder rest).store.length :=
    fun other had => keeps.lt (placed other had)
  refine ⟨⟨?_, others⟩, ?_⟩
  · intro place listed
    rcases List.mem_cons.mp listed with rfl | idle
    · exact keeps.lt (valid.own _ List.mem_cons_self)
    obtain ⟨other, waits, rfl⟩ := List.mem_map.mp idle
    rcases FreeList.eq_or_mem_of_push waits with rfl | earlier
    · exact Holder.place_reset_lt inside _
    · exact keeps.lt (valid.own _ (List.mem_cons_of_mem _ (List.mem_map_of_mem earlier)))
  · have forgot := Holder.read_reset inside (pool.others rest)
    have pushed := FreeList.push_map (fun other => other.read (pool.release holder rest).store)
      pool.free (holder.reset (pool.others rest) pool.store).1
    rw [EndpointPool.release, ← forgot, ← (valid.keeps keeps others pool.handles).2]
    exact congrArg (fun pushed => EndpointPool.mk pushed.2 _ _ _) pushed.symm

/-- What clients see of a pool, they could see of one whose endpoints share nothing. -/
theorem Run.refines (run : Run pool events last) (valid : pool.Valid) :
    last.Valid ∧ EndpointPool.lending.Run pool.read events last.read := by
  induction run with
  | done pool => exact ⟨valid, .done pool.read⟩
  | change step later ih =>
    obtain ⟨kept, same⟩ := step.keeps valid
    rw [← same]
    exact ih kept
  | @acquire pool next last holder events taken later ih =>
    obtain ⟨kept, seen⟩ := valid.acquire
    rw [taken] at kept seen
    obtain ⟨validLast, refined⟩ := ih kept
    rw [← next.idleCount_read]
    exact ⟨validLast, .acquire seen refined⟩
  | @release pool next last before after holder events held given later ih =>
    obtain ⟨inside, placed⟩ := valid.of_held held
    obtain ⟨kept, seen⟩ := valid.release inside placed
    rw [given] at kept seen
    obtain ⟨validLast, refined⟩ := ih kept
    rw [← next.idleCount_read]
    exact ⟨validLast, .release seen.symm refined⟩

structure Opened (pool : SharedPool) : Prop where
  valid : pool.Valid
  unused : pool.free.idle = []

theorem opened_create (settings : Codec) (maxIdle : Nat) : (create settings maxIdle).Opened := by
  refine ⟨⟨?_, nofun⟩, rfl⟩
  intro place listed
  rw [List.mem_singleton.mp listed]
  exact Nat.zero_lt_one

theorem Run.seen (run : Run pool events last) (opened : pool.Opened) :
    last.read.settings = pool.read.settings ∧
      events = PoolEvent.replay (.ofCodec pool.read.settings) pool.free.maxIdle 0
        (events.map PoolEvent.action) := by
  have unused : pool.read.free = .ofMaxIdle pool.free.maxIdle := by
    rw [read, FreeList.map, opened.unused]
    rfl
  have clean : pool.read.Clean pool.read.settings pool.free.maxIdle := by
    refine ⟨rfl, rfl, ?_⟩
    rw [unused]
    exact FreeList.tidy_ofMaxIdle _
  have counted : EndpointPool.lending.idleCount pool.read = 0 := congrArg FreeList.idleCount unused
  obtain ⟨-, refined⟩ := run.refines opened.valid
  obtain ⟨cleanLast, seen⟩ := (EndpointPool.seals _ _).run refined clean
  rw [counted] at seen
  exact ⟨cleanLast.settings, seen⟩

end SharedPool

/-- Nothing passes from one client of a pool to the next. Whatever clients do with their endpoints
and with the dictionaries that they share, each endpoint taken is one that was just made with the
pool's settings. Headers are taken empty and buffers are borrowed empty, and two runs that differ in
what the clients did look the same. -/
theorem pools_pass_nothing_on :
    (∀ {pool last : SharedPool} {events : List (PoolEvent Endpoint)},
      pool.Opened → pool.Run events last →
      last.read.settings = pool.read.settings ∧
      events = PoolEvent.replay (.ofCodec pool.read.settings) pool.free.maxIdle 0
        (events.map PoolEvent.action) ∧
      ∀ {other otherLast : SharedPool} {events' : List (PoolEvent Endpoint)},
        other.Opened → other.Run events' otherLast → other.read = pool.read →
        events'.map PoolEvent.action = events.map PoolEvent.action → events' = events) ∧
    (∀ {maxIdle : Nat} {last : HeaderPool} {events : List (PoolEvent Header)},
      HeaderPool.lending.Run (.create maxIdle) events last →
      events = PoolEvent.replay .empty maxIdle 0 (events.map PoolEvent.action) ∧
      ∀ {otherLast : HeaderPool} {events' : List (PoolEvent Header)},
        HeaderPool.lending.Run (.create maxIdle) events' otherLast →
        events'.map PoolEvent.action = events.map PoolEvent.action → events' = events) ∧
    ∀ {maxIdle maxCapacity : Nat} {lent : List Buffer} {last : BufferPool},
      BufferPool.Run (.create maxIdle maxCapacity) lent last →
      ∀ buffer ∈ lent, buffer.bytes = [] := by
  refine ⟨?_, ?_, ?_⟩
  · intro pool last events opened run
    obtain ⟨settings, seen⟩ := run.seen opened
    refine ⟨settings, seen, ?_⟩
    intro other otherLast events' opened' run' same actions
    obtain ⟨-, seen'⟩ := run'.seen opened'
    have capacity : other.free.maxIdle = pool.free.maxIdle :=
      congrArg (fun pool => pool.free.maxIdle) same
    rw [seen', actions, same, capacity]
    exact seen.symm
  · intro maxIdle last events run
    obtain ⟨-, seen⟩ := (HeaderPool.seals maxIdle).run run (HeaderPool.clean_create maxIdle)
    refine ⟨seen, ?_⟩
    intro otherLast events' run' actions
    obtain ⟨-, seen'⟩ := (HeaderPool.seals maxIdle).run run' (HeaderPool.clean_create maxIdle)
    rw [seen', actions]
    exact seen.symm
  · intro maxIdle maxCapacity lent last run
    exact run.lent_empty (BufferPool.clean_create maxIdle maxCapacity)

theorem pools_pass_nothing_on_sample :
    (∃ last, (SharedPool.create .sample 1).Run [.acquired (.ofCodec .sample) 0, .released 1,
      .acquired (.ofCodec .sample) 0] last ∧ last.read.settings = .sample) ∧
    ∃ events last, (SharedPool.create .sample 1).Run events last ∧
      events.map PoolEvent.action = [.acquire, .release, .acquire] ∧
      events = [.acquired (.ofCodec .sample) 0, .released 1, .acquired (.ofCodec .sample) 0] := by
  have opened : (SharedPool.create .sample 1).Opened := SharedPool.opened_create _ _
  have loaded : ∀ holder ∈ [(⟨100, 2, .passthrough, [7]⟩ : Holder)],
      holder.place < ((SharedPool.create .sample 1).acquire.2.store ++
        [Dictionary.ofFields [⟨[120], [49]⟩]]).length := by
    decide
  have run := SharedPool.Run.acquire (show (SharedPool.create .sample 1).acquire = _ from rfl)
    (.change (.clients _ _ loaded [])
      (.release (show _ = [] ++ _ :: [] from rfl) rfl (.acquire rfl (.done _))))
  have run' := SharedPool.Run.acquire (show (SharedPool.create .sample 1).acquire = _ from rfl)
    (.change (.reset (show _ = [] ++ _ :: [] from rfl) rfl)
      (.release (show _ = [] ++ _ :: [] from rfl) rfl (.acquire rfl (.done _))))
  obtain ⟨settings, -, same⟩ := pools_pass_nothing_on.1 opened run
  refine ⟨⟨_, run, settings⟩, _, _, run', rfl, ?_⟩
  exact same opened run' rfl rfl

end HeaderCodec
