import HeaderCodec.Codec.Basic
import HeaderCodec.Header.Basic
import HeaderCodec.Pool.Buffer
import HeaderCodec.Pool.FreeList

/-! Codecs, headers and buffers are taken from a pool and put back after use. What is put back is
emptied first, and a codec that is taken gets the pool's own settings. -/

namespace HeaderCodec

structure CodecPool where
  free : FreeList Codec
  maxFrameSize : Nat
  dictionary : Dictionary
  coder : Coder
  deriving Repr

namespace CodecPool

def ofCodec (codec : Codec) : CodecPool :=
  ⟨.ofMaxIdle Limits.defaultIdleCapacity, codec.maxFrameSize, codec.dictionary, codec.coder⟩

def create (maxFrameSize : Nat) (dictionary : Dictionary) : Except ConfigError CodecPool :=
  (Codec.withDictionary maxFrameSize dictionary).map ofCodec

def withIdleCapacity (pool : CodecPool) (maxIdle : Nat) : CodecPool :=
  { pool with free := .ofMaxIdle maxIdle }

def install (pool : CodecPool) (_codec : Codec) : Codec :=
  ⟨pool.maxFrameSize, pool.dictionary, pool.coder⟩

def acquire (pool : CodecPool) : Codec × CodecPool :=
  let (idle, free) := pool.free.pop
  (pool.install (idle.getD .default), { pool with free })

def release (pool : CodecPool) (codec : Codec) : CodecPool :=
  { pool with free := (pool.free.push codec.reset).2 }

end CodecPool

structure HeaderPool where
  free : FreeList Header
  deriving Repr

namespace HeaderPool

def create (maxIdle : Nat) : HeaderPool := ⟨.ofMaxIdle maxIdle⟩

def default : HeaderPool := create Limits.defaultIdleCapacity

def idleCount (pool : HeaderPool) : Nat := pool.free.idleCount

def acquire (pool : HeaderPool) : Header × HeaderPool :=
  let (idle, free) := pool.free.pop
  (idle.getD .empty, { pool with free })

def release (pool : HeaderPool) (header : Header) : HeaderPool :=
  { pool with free := (pool.free.push header.reset).2 }

end HeaderPool

structure BufferPool where
  free : FreeList Buffer
  maxCapacity : Nat
  deriving Repr

namespace BufferPool

def create (maxIdle maxCapacity : Nat) : BufferPool := ⟨.ofMaxIdle maxIdle, maxCapacity⟩

def default : BufferPool :=
  create Limits.defaultIdleCapacity Limits.maxPooledBufferCapacity

def idleCount (pool : BufferPool) : Nat := pool.free.idleCount

/-- Takes an empty buffer with room for at least `min` bytes. -/
def borrow (pool : BufferPool) (min : Nat) : Buffer × BufferPool :=
  let (idle, free) := pool.free.pop
  ((idle.getD .empty).reserve min, { pool with free })

/-- Keeps a buffer for reuse unless it has grown too large. -/
def giveBack (pool : BufferPool) (buffer : Buffer) : BufferPool :=
  if pool.maxCapacity < buffer.capacity then pool
  else { pool with free := (pool.free.push buffer.clear).2 }

def discard (pool : BufferPool) (_buffer : Buffer) : BufferPool := pool

end BufferPool

end HeaderCodec
