import HeaderCodec.Pool.Endpoints

/-! Any number of endpoints may hold the same dictionary, which is only ever changed in place by its
one holder. So dictionaries have places in a store, and whoever holds one has its place. -/

namespace HeaderCodec

abbrev DictionaryStore := List Dictionary

namespace DictionaryStore

def read (store : DictionaryStore) (place : Nat) : Dictionary := store.getD place .empty

end DictionaryStore

structure Holder where
  maxFrameSize : Nat
  place : Nat
  coder : Coder
  scratch : Bytes
  deriving Repr, DecidableEq

namespace Holder

def read (holder : Holder) (store : DictionaryStore) : Endpoint :=
  ⟨⟨holder.maxFrameSize, store.read holder.place, holder.coder⟩, holder.scratch⟩

def create (store : DictionaryStore) : Holder × DictionaryStore :=
  (⟨Limits.defaultMaxFrameSize, store.length, .huffman, []⟩, store ++ [.empty])

/-- Empties the dictionary in place unless others hold it. They keep what they have, and the
endpoint takes a new dictionary. -/
def reset (holder : Holder) (others : List Nat) (store : DictionaryStore) :
    Holder × DictionaryStore :=
  let (holder, store) :=
    if holder.place ∈ others then
      ({ holder with place := store.length }, store ++ [.empty])
    else (holder, store.modify holder.place Dictionary.reset)
  ({ holder with scratch := [] }, store)

end Holder

/-- A pool of endpoints, and all that surrounds it: the store, the endpoints that clients have,
from the pool or from elsewhere, and the places of dictionaries that they hold by themselves. -/
structure SharedPool where
  store : DictionaryStore
  free : FreeList Holder
  maxFrameSize : Nat
  place : Nat
  coder : Coder
  out : List Holder
  handles : List Nat
  deriving Repr

namespace SharedPool

def create (settings : Codec) (maxIdle : Nat) : SharedPool :=
  ⟨[settings.dictionary], .ofMaxIdle maxIdle, settings.maxFrameSize, 0, settings.coder, [], []⟩

/-- The pool as it is if every endpoint has a dictionary of its own. -/
def read (pool : SharedPool) : EndpointPool :=
  ⟨pool.free.map fun holder => holder.read pool.store, pool.maxFrameSize,
    pool.store.read pool.place, pool.coder⟩

def install (pool : SharedPool) (holder : Holder) : Holder :=
  { holder with maxFrameSize := pool.maxFrameSize, place := pool.place, coder := pool.coder }

def acquire (pool : SharedPool) : Holder × SharedPool :=
  let (idle, free) := pool.free.pop
  let (holder, store) := match idle with
    | some holder => (holder, pool.store)
    | none => Holder.create pool.store
  let holder := pool.install holder
  (holder, { pool with store, free, out := holder :: pool.out })

def places (pool : SharedPool) : List Nat :=
  pool.place :: pool.free.idle.map Holder.place

/-- What is held beside an endpoint of a client who has `rest` as well. -/
def others (pool : SharedPool) (rest : List Holder) : List Nat :=
  pool.places ++ rest.map Holder.place ++ pool.handles

def release (pool : SharedPool) (holder : Holder) (rest : List Holder) : SharedPool :=
  let (holder, store) := holder.reset (pool.others rest) pool.store
  { pool with store, free := (pool.free.push holder).2, out := rest }

end SharedPool

end HeaderCodec
