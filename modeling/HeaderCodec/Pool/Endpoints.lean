import HeaderCodec.Pool.Pools
import HeaderCodec.Stream.Endpoint

/-! An endpoint that is put back forgets its dictionary and what is in its scratch; one that is
taken gets the pool's settings but keeps its scratch, so nothing must be left in there. -/

namespace HeaderCodec

structure EndpointPool where
  free : FreeList Endpoint
  maxFrameSize : Nat
  dictionary : Dictionary
  coder : Coder
  deriving Repr

namespace EndpointPool

def default : EndpointPool :=
  ⟨.ofMaxIdle Limits.defaultIdleCapacity, Limits.defaultMaxFrameSize, .empty, .huffman⟩

def create (maxFrameSize : Nat) (dictionary : Dictionary) : Except ConfigError EndpointPool := do
  Codec.checkMaxFrameSize maxFrameSize
  Codec.checkContent dictionary
  return { default with maxFrameSize, dictionary }

def ofEndpoint (template : Endpoint) : EndpointPool :=
  let codec := template.codec
  { default with
    maxFrameSize := codec.maxFrameSize, dictionary := codec.dictionary, coder := codec.coder }

example : ofEndpoint .default = default := rfl

def withIdleCapacity (pool : EndpointPool) (maxIdle : Nat) : EndpointPool :=
  { pool with free := .ofMaxIdle maxIdle }

def idleCount (pool : EndpointPool) : Nat := pool.free.idleCount

def settings (pool : EndpointPool) : Codec :=
  ⟨pool.maxFrameSize, pool.dictionary, pool.coder⟩

def install (pool : EndpointPool) (endpoint : Endpoint) : Endpoint :=
  { endpoint with codec := pool.settings }

def acquire (pool : EndpointPool) : Endpoint × EndpointPool :=
  let (idle, free) := pool.free.pop
  (pool.install (idle.getD .default), { pool with free })

def release (pool : EndpointPool) (endpoint : Endpoint) : EndpointPool :=
  { pool with free := (pool.free.push endpoint.reset).2 }

@[simp] theorem settings_withIdleCapacity (pool : EndpointPool) (maxIdle : Nat) :
    (pool.withIdleCapacity maxIdle).settings = pool.settings := rfl

@[simp] theorem codec_acquire (pool : EndpointPool) : pool.acquire.1.codec = pool.settings := rfl

end EndpointPool

end HeaderCodec
