import InsideNginx.Fault

/-! The memory pool: a chain of chunks from which small blocks are taken, and records of large
blocks that live in small blocks themselves. The results of the system allocator are arguments. -/
namespace InsideNginx.Palloc

/-- A chunk with the fields of its `d`; the chunks of a pool are linked by `d.next` in list
order, and the first one is the pool itself. -/
structure PoolChunk where
  addr : ℕ
  dLast : ℕ
  dEnd : ℕ
  dFailed : ℕ
  deriving DecidableEq, Repr

/-- A record of a large block, at the address where the record itself lives. -/
structure PoolLarge where
  addr : ℕ
  alloc : Option ℕ
  deriving DecidableEq, Repr

/-- A pool. `current` is the position of the chunk that it points to, `large` the list of
records, and `freed` the arguments of the calls of `ngx_free` so far. -/
structure Pool where
  chunks : List PoolChunk
  max : ℕ
  current : ℕ
  large : List PoolLarge
  freed : List ℕ
  deriving DecidableEq, Repr

/-- `sizeof(ngx_pool_t)`, `sizeof(ngx_pool_data_t)` and `sizeof(ngx_pool_large_t)`. -/
def poolHeader : ℕ := 80
def dataHeader : ℕ := 32
def largeSize : ℕ := 16

/-- NGX_POOL_ALIGNMENT and NGX_MIN_POOL_SIZE. -/
def poolAlignment : ℕ := 16
def minPoolSize : ℕ := 112

/-- A difference as a `size_t`. -/
def sizeT (x : ℤ) : ℕ := (x%2^64).toNat

/-- `ngx_align_ptr`: the next multiple of the alignment. -/
def alignPtr (p align : ℕ) : ℕ := (p + (align - 1))/align*align

/-- `ngx_create_pool`; `memalign` is what `ngx_memalign` returns. -/
def createPool (pagesize : ℕ) (memalign : Option ℕ) (size : ℕ) : Option Pool :=
  memalign.map fun p =>
    let room := sizeT (size - poolHeader)
    let maxAlloc := sizeT (pagesize - 1)
    ⟨[⟨p,p + poolHeader,p + size,0⟩],if room < maxAlloc then room else maxAlloc,0,[],[]⟩

/-- The address `m` of a block in a chunk. -/
def PoolChunk.blockAt (align : ℕ) (aligned : Bool) (p : PoolChunk) : ℕ :=
  if aligned then alignPtr p.dLast align else p.dLast

/-- The loop of `ngx_palloc_small` from a chunk on: the block and the chunks afterwards. -/
def pallocSmallLoop (align : ℕ) (aligned : Bool) (size : ℕ) :
    List PoolChunk → Option (ℕ × List PoolChunk)
  | [] => none
  | p::ps =>
    let m := p.blockAt align aligned
    if size ≤ sizeT (p.dEnd - m) then some (m,{ p with dLast := m + size }::ps)
    else (pallocSmallLoop align aligned size ps).map fun found => (found.1,p::found.2)

/-- The loop of `ngx_palloc_block`, from the chunk at position `i` on: every chunk but the last
has failed once more, and `current` moves past the chunks that failed too often. -/
def failChunks : ℕ → List PoolChunk → ℕ → List PoolChunk × ℕ
  | i,p::q::rest,current =>
    let (chunks,current) := failChunks (i+1) (q::rest) (if 4 < p.dFailed then i+1 else current)
    ({ p with dFailed := p.dFailed + 1 }::chunks,current)
  | _,chunks,current => (chunks,current)

/-- `(size_t) (pool->d.end - (u_char *)pool)`. -/
def Pool.size (pool : Pool) : ℕ :=
  match pool.chunks with
  | p::_ => sizeT (p.dEnd - p.addr)
  | [] => 0

/-- `ngx_palloc_block`; `chunk` is what `ngx_memalign` returns. -/
def pallocBlock (align : ℕ) (pool : Pool) (size : ℕ) (chunk : Option ℕ) : Option ℕ × Pool :=
  match chunk with
  | none => (none,pool)
  | some p =>
    let m := alignPtr (p + dataHeader) align
    let (chunks,current) := failChunks pool.current (pool.chunks.drop pool.current) pool.current
    (some m,{ pool with
      chunks := pool.chunks.take pool.current ++ chunks ++ [⟨p,m + size,p + pool.size,0⟩]
      current := current })

/-- `ngx_palloc_small`. -/
def pallocSmall (align : ℕ) (pool : Pool) (size : ℕ) (aligned : Bool) (chunk : Option ℕ) :
    Option ℕ × Pool :=
  match pallocSmallLoop align aligned size (pool.chunks.drop pool.current) with
  | some (m,chunks) => (some m,{ pool with chunks := pool.chunks.take pool.current ++ chunks })
  | none => pallocBlock align pool size chunk

/-- The loop of `ngx_palloc_large`: a record without a block, among the first five. -/
def reuseLarge (block : ℕ) : ℕ → List PoolLarge → Option (List PoolLarge)
  | _,[] => none
  | n,l::ls =>
    if l.alloc = none then some ({ l with alloc := some block }::ls)
    else if 3 < n then none
    else (reuseLarge block (n+1) ls).map (l::·)

/-- Record a block of the system allocator, or give it back when there is no room for the
record. -/
def recordLarge (align : ℕ) (pool : Pool) (block : ℕ) (chunk : Option ℕ) : Option ℕ × Pool :=
  match pallocSmall align pool largeSize true chunk with
  | (some l,pool) => (some block,{ pool with large := ⟨l,some block⟩::pool.large })
  | (none,pool) => (none,{ pool with freed := pool.freed ++ [block] })

/-- `ngx_palloc_large`; `block` is what `ngx_alloc` returns. -/
def pallocLarge (align : ℕ) (pool : Pool) (block chunk : Option ℕ) : Option ℕ × Pool :=
  match block with
  | none => (none,pool)
  | some block =>
    match reuseLarge block 0 pool.large with
    | some large => (some block,{ pool with large := large })
    | none => recordLarge align pool block chunk

/-- `ngx_palloc` and `ngx_pnalloc`: they differ in the alignment of small blocks. -/
def pallocAs (aligned : Bool) (align : ℕ) (pool : Pool) (size : ℕ) (block chunk : Option ℕ) :
    Option ℕ × Pool :=
  if size ≤ pool.max then pallocSmall align pool size aligned chunk
  else pallocLarge align pool block chunk

def palloc : ℕ → Pool → ℕ → Option ℕ → Option ℕ → Option ℕ × Pool := pallocAs true

def pnalloc : ℕ → Pool → ℕ → Option ℕ → Option ℕ → Option ℕ × Pool := pallocAs false

/-- `ngx_pcalloc`: the block is cleared, which no field of the pool shows. -/
def pcalloc : ℕ → Pool → ℕ → Option ℕ → Option ℕ → Option ℕ × Pool := palloc

/-- `ngx_pmemalign`; `block` is what `ngx_memalign` returns for the size and alignment. -/
def pmemalign (align : ℕ) (pool : Pool) (block chunk : Option ℕ) : Option ℕ × Pool :=
  match block with
  | none => (none,pool)
  | some block => recordLarge align pool block chunk

/-- The loop of `ngx_pfree`. -/
def freeLarge (p : Option ℕ) : List PoolLarge → Option (List PoolLarge)
  | [] => none
  | l::ls =>
    if p = l.alloc then some ({ l with alloc := none }::ls)
    else (freeLarge p ls).map (l::·)

/-- `ngx_pfree`; the result tells whether it returns NGX_OK. -/
def pfree (pool : Pool) (p : Option ℕ) : Bool × Pool :=
  match freeLarge p pool.large with
  | some large => (true,{ pool with large := large, freed := pool.freed ++ p.toList })
  | none => (false,pool)

/-- `ngx_reset_pool`. -/
def resetPool (pool : Pool) : Pool where
  chunks := pool.chunks.map fun p => { p with dLast := p.addr + poolHeader, dFailed := 0 }
  max := pool.max
  current := 0
  large := []
  freed := pool.freed ++ pool.large.filterMap (·.alloc)

end InsideNginx.Palloc
