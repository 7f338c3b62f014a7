import InsideNginx.General.Arena
import InsideNginx.Palloc.Pool

/-! The chunks of a pool as arenas: each hands out what follows its header, and the regions in
it are the small blocks and the records of large blocks. -/
namespace InsideNginx.Palloc

/-! ### Arithmetic -/

theorem sizeT_sub {a b : ℕ} (hab : b ≤ a) (ha : a < 2^64) : sizeT (a - b) = a - b := by
  unfold sizeT
  omega

theorem dvd_alignPtr (p align : ℕ) : align ∣ alignPtr p align := Dvd.intro_left _ rfl

theorem le_alignPtr {p align : ℕ} (h : 0 < align) : p ≤ alignPtr p align := by
  have hmod := Nat.mod_lt (p + (align - 1)) h
  have hdiv := Nat.div_add_mod (p + (align - 1)) align
  unfold alignPtr
  rw [Nat.mul_comm]
  omega

/-- The next multiple is not beyond a multiple. -/
theorem alignPtr_le {p align limit : ℕ} (halign : 0 < align) (hdvd : align ∣ limit) (h : p ≤ limit) :
    alignPtr p align ≤ limit := by
  obtain ⟨k,rfl⟩ := hdvd
  have hk : (p + (align - 1))/align < k + 1 := by
    rw [Nat.div_lt_iff_lt_mul halign,Nat.mul_comm,Nat.mul_add]
    omega
  unfold alignPtr
  rw [Nat.mul_comm align k]
  exact Nat.mul_le_mul_right align (by omega)

/-! ### The chunks as arenas -/

/-- The size of the header of the chunk at a position. -/
def headerSize (i : ℕ) : ℕ := if i = 0 then poolHeader else dataHeader

def PoolChunk.arena (i : ℕ) (p : PoolChunk) : Arena := ⟨p.addr + headerSize i,p.dLast,p.dEnd⟩

def Pool.arenas (pool : Pool) : List Arena := pool.chunks.mapIdx PoolChunk.arena

/-- The region of a record. -/
def PoolLarge.region (l : PoolLarge) : Region := ⟨l.addr,largeSize⟩

/-- The invariant of a pool whose chunks have the size `poolSize`. -/
structure Pool.Valid (poolSize : ℕ) (pool : Pool) (blocks : List Region) : Prop where
  layout : Arena.Layout pool.arenas (blocks ++ pool.large.map PoolLarge.region)
  chunk : ∀ p ∈ pool.chunks, poolAlignment ∣ p.addr ∧ p.dEnd = p.addr + poolSize ∧ p.dEnd < 2^64
  nonempty : pool.chunks ≠ []
  max : pool.max + poolHeader ≤ poolSize

/-- A chunk that the system allocator may return: aligned, and apart from every chunk. -/
def Pool.Fresh (pool : Pool) (chunk : Option ℕ) : Prop :=
  ∀ p, chunk = some p → poolAlignment ∣ p ∧ p + pool.size < 2^64 ∧
    ∀ q ∈ pool.chunks, p + pool.size ≤ q.addr ∨ q.dEnd ≤ p

variable {align poolSize : ℕ} {pool : Pool} {blocks : List Region}

theorem Pool.Valid.size_eq (h : pool.Valid poolSize blocks) : pool.size = poolSize := by
  unfold Pool.size
  split
  · rename_i p ps hp
    obtain ⟨-,hend,hlt⟩ := h.chunk p (by simp [hp])
    rw [sizeT_sub (by omega) hlt]
    omega
  · rename_i hp
    exact absurd hp h.nonempty

/-- The loop takes the block from the first chunk with enough room. -/
theorem pallocSmallLoop_some {aligned : Bool} {size m : ℕ} {ps ps' : List PoolChunk}
    (h : pallocSmallLoop align aligned size ps = some (m,ps')) :
    ∃ i p, ps[i]? = some p ∧ m = p.blockAt align aligned ∧
      size ≤ sizeT (p.dEnd - m) ∧ ps' = ps.set i { p with dLast := m + size } := by
  induction ps generalizing ps' with
  | nil => cases h
  | cons p ps ih =>
    simp only [pallocSmallLoop] at h
    split at h
    · rename_i hroom
      obtain ⟨rfl,rfl⟩ := Prod.mk.inj (Option.some.inj h)
      exact ⟨0,p,rfl,rfl,hroom,rfl⟩
    · obtain ⟨⟨m',ps₁⟩,hrest,heq⟩ := Option.map_eq_some_iff.mp h
      obtain ⟨rfl,rfl⟩ := Prod.mk.inj heq
      obtain ⟨i,q,hq,hm,hroom,hset⟩ := ih hrest
      exact ⟨i+1,q,hq,hm,hroom,by rw [hset]; rfl⟩

/-- A block is taken from the chunk at position `i`. -/
theorem Pool.Valid.take (h : pool.Valid poolSize blocks) {i m size : ℕ} {p : PoolChunk}
    (hp : pool.chunks[i]? = some p) (hm : p.dLast ≤ m) (hend : m + size ≤ p.dEnd) :
    Arena.Layout (Pool.arenas { pool with chunks := pool.chunks.set i { p with dLast := m + size } })
      (⟨m,size⟩::blocks ++ pool.large.map PoolLarge.region) ∧
    (∀ q ∈ pool.chunks.set i { p with dLast := m + size },
      poolAlignment ∣ q.addr ∧ q.dEnd = q.addr + poolSize ∧ q.dEnd < 2^64) ∧
    pool.chunks.set i { p with dLast := m + size } ≠ [] := by
  have ha : pool.arenas[i]? = some (p.arena i) := by simp [Pool.arenas,hp]
  refine ⟨?_,fun q hq => ?_,by simpa using h.nonempty⟩
  · have htake := h.layout.take ha hm hend
    simpa [Pool.arenas,List.mapIdx_set,PoolChunk.arena] using htake
  · rcases List.mem_or_eq_of_mem_set hq with hq | rfl
    · exact h.chunk q hq
    · exact h.chunk p (List.mem_of_getElem? hp)

/-- Inside a chunk that ends at a multiple of the alignment a block starts before its end. -/
theorem Pool.Valid.blockAt_mem (h : pool.Valid poolSize blocks) (halign : align ∣ poolAlignment)
    (hsize : align ∣ poolSize) {p : PoolChunk} (hp : p ∈ pool.chunks) (aligned : Bool) :
    p.dLast ≤ p.blockAt align aligned ∧ p.blockAt align aligned ≤ p.dEnd := by
  have hpos : 0 < align := Nat.pos_of_dvd_of_pos halign (by decide)
  obtain ⟨hbase,hend,-⟩ := h.chunk p hp
  have hdvd : align ∣ p.dEnd := hend ▸ dvd_add (halign.trans hbase) hsize
  obtain ⟨i,hi⟩ := List.mem_iff_getElem?.mp hp
  have hlast : p.dLast ≤ p.dEnd := (h.layout.ordered (p.arena i) (List.mem_of_getElem? (i := i)
    (by simp [Pool.arenas,hi]))).2
  unfold PoolChunk.blockAt
  split
  · exact ⟨le_alignPtr hpos,alignPtr_le hpos hdvd hlast⟩
  · exact ⟨le_rfl,hlast⟩

/-! ### A new chunk -/

/-- Where a chunk lies and how much of it is taken. -/
def PoolChunk.span (p : PoolChunk) : ℕ × ℕ × ℕ := (p.addr,p.dLast,p.dEnd)

theorem mapIdx_arena_congr {ps qs : List PoolChunk} (h : ps.map PoolChunk.span = qs.map PoolChunk.span) :
    ps.mapIdx PoolChunk.arena = qs.mapIdx PoolChunk.arena := by
  have harena : ∀ i, PoolChunk.arena i =
      (fun s : ℕ × ℕ × ℕ => (⟨s.1 + headerSize i,s.2.1,s.2.2⟩ : Arena)) ∘ PoolChunk.span := fun _ => rfl
  apply List.ext_getElem?
  intro i
  have hi := congrArg (·[i]?) h
  simp only [List.getElem?_map] at hi
  rw [List.getElem?_mapIdx,List.getElem?_mapIdx,harena,← Option.map_map,← Option.map_map,hi]

/-- The counting of failures changes no address. -/
theorem failChunks_span (i : ℕ) (ps : List PoolChunk) (current : ℕ) :
    (failChunks i ps current).1.map PoolChunk.span = ps.map PoolChunk.span := by
  induction ps generalizing i current with
  | nil => simp [failChunks]
  | cons p ps ih =>
    cases ps with
    | nil => simp [failChunks]
    | cons q ps =>
      simp only [failChunks,List.map_cons]
      rw [ih]
      rfl

/-- The region of a small block that was returned, if any. -/
def blocksOf (r : Option ℕ) (size : ℕ) : List Region := r.toList.map (⟨·,size⟩)

/-- What an allocation of a small block does to a pool. -/
structure Pool.Took (poolSize : ℕ) (pool : Pool) (blocks : List Region) (size : ℕ) (r : Option ℕ)
    (pool' : Pool) : Prop where
  valid : pool'.Valid poolSize (blocksOf r size ++ blocks)
  max : pool'.max = pool.max
  large : pool'.large = pool.large
  freed : pool'.freed = pool.freed

/-- `ngx_palloc_block` puts the block into a new chunk, after the chunk's header. -/
theorem pallocBlock_spec (h : pool.Valid poolSize blocks) (halign : align ∣ poolAlignment)
    {size : ℕ} (hfits : size + dataHeader ≤ poolSize) {chunk : Option ℕ} (hfresh : pool.Fresh chunk) :
    ∃ r pool', pallocBlock align pool size chunk = (r,pool') ∧ pool.Took poolSize blocks size r pool' := by
  cases chunk with
  | none => exact ⟨none,pool,rfl,h,rfl,rfl,rfl⟩
  | some p =>
    obtain ⟨hbase,hlt,hapart⟩ := hfresh p rfl
    rw [h.size_eq] at hlt hapart
    have hpos : 0 < align := Nat.pos_of_dvd_of_pos halign (by decide)
    -- the header of a later chunk ends at a multiple of the alignment
    have hm : p + dataHeader ≤ alignPtr (p + dataHeader) align := le_alignPtr hpos
    have hm' : alignPtr (p + dataHeader) align ≤ p + dataHeader :=
      alignPtr_le hpos (dvd_add (halign.trans hbase) (halign.trans (by decide))) le_rfl
    have hspan : (pool.chunks.take pool.current ++
        (failChunks pool.current (pool.chunks.drop pool.current) pool.current).1).map PoolChunk.span =
        pool.chunks.map PoolChunk.span := by
      rw [List.map_append,failChunks_span,← List.map_append,List.take_append_drop]
    generalize hchunks : pool.chunks.take pool.current ++
      (failChunks pool.current (pool.chunks.drop pool.current) pool.current).1 = chunks at hspan
    have hlength : chunks.length = pool.chunks.length := by simpa using congrArg List.length hspan
    have hzero : chunks.length ≠ 0 := by rw [hlength]; simpa using h.nonempty
    have hold : ∀ q ∈ chunks, ∃ q' ∈ pool.chunks, q.addr = q'.addr ∧ q.dEnd = q'.dEnd := by
      intro q hq
      have hq' := List.mem_map_of_mem (f := PoolChunk.span) hq
      rw [hspan] at hq'
      obtain ⟨q',hmem,heq⟩ := List.mem_map.mp hq'
      simp only [PoolChunk.span,Prod.mk.injEq] at heq
      exact ⟨q',hmem,heq.1.symm,heq.2.2.symm⟩
    refine ⟨some (alignPtr (p + dataHeader) align),{ pool with
      chunks := chunks ++ [⟨p,alignPtr (p + dataHeader) align + size,p + poolSize,0⟩]
      current := (failChunks pool.current (pool.chunks.drop pool.current) pool.current).2 },
      by simp only [pallocBlock,h.size_eq,hchunks],⟨?_,?_,by simp,h.max⟩,rfl,rfl,rfl⟩
    · have harenas : pool.arenas = chunks.mapIdx PoolChunk.arena := mapIdx_arena_congr hspan.symm
      have happend := h.layout.append (a := ⟨p + dataHeader,p + dataHeader,p + poolSize⟩)
        ⟨le_rfl,by simp only; omega⟩ (fun b hb => by
          obtain ⟨i,hi,rfl⟩ := List.mem_mapIdx.mp hb
          have := hapart pool.chunks[i] (List.getElem_mem hi)
          unfold Arena.Apart PoolChunk.arena
          simp only
          omega)
      have hget : (pool.arenas ++ [(⟨p + dataHeader,p + dataHeader,p + poolSize⟩ : Arena)])[chunks.length]? =
          some ⟨p + dataHeader,p + dataHeader,p + poolSize⟩ := by
        rw [harenas]
        simp
      have hend : alignPtr (p + dataHeader) align + size ≤ p + poolSize := by omega
      have htake := happend.take hget hm hend
      rw [harenas] at htake
      have hheader : headerSize chunks.length = dataHeader := if_neg hzero
      simpa [Pool.arenas,PoolChunk.arena,hheader,blocksOf] using htake
    · intro q hq
      rcases List.mem_append.mp hq with hq | hq
      · obtain ⟨q',hq',haddr,hend⟩ := hold q hq
        rw [haddr,hend]
        exact h.chunk q' hq'
      · rw [List.mem_singleton] at hq
        exact hq ▸ ⟨hbase,rfl,hlt⟩

/-- `ngx_palloc_small` hands out a region that overlaps none of those handed out before. -/
theorem pallocSmall_spec (h : pool.Valid poolSize blocks) (halign : align ∣ poolAlignment)
    (hsize : align ∣ poolSize) {size : ℕ} (hfits : size + dataHeader ≤ poolSize)
    {chunk : Option ℕ} (hfresh : pool.Fresh chunk) (aligned : Bool) :
    ∃ r pool', pallocSmall align pool size aligned chunk = (r,pool') ∧
      pool.Took poolSize blocks size r pool' := by
  unfold pallocSmall
  cases hloop : pallocSmallLoop align aligned size (pool.chunks.drop pool.current) with
  | none => exact pallocBlock_spec h halign hfits hfresh
  | some found =>
    obtain ⟨m,ps⟩ := found
    obtain ⟨i,p,hp,rfl,hroom,hset⟩ := pallocSmallLoop_some hloop
    rw [List.getElem?_drop] at hp
    have hmem := List.mem_of_getElem? hp
    obtain ⟨hle,hend⟩ := h.blockAt_mem halign hsize hmem aligned
    rw [sizeT_sub hend (h.chunk p hmem).2.2] at hroom
    have hchunks : pool.chunks.take pool.current ++ ps =
        pool.chunks.set (pool.current + i) { p with dLast := p.blockAt align aligned + size } := by
      have hcur : pool.current + i < pool.chunks.length := (List.getElem?_eq_some_iff.mp hp).1
      have htake : (pool.chunks.take pool.current).length = pool.current := by simp; omega
      conv_rhs => rw [← List.take_append_drop pool.current pool.chunks]
      rw [List.set_append_right _ _ (by omega),htake,Nat.add_sub_cancel_left,hset]
    obtain ⟨hlayout,hchunk,hne⟩ := h.take hp hle (show p.blockAt align aligned + size ≤ p.dEnd by omega)
    exact ⟨some (p.blockAt align aligned),{ pool with chunks := _ },by simp only [hchunks],⟨hlayout,hchunk,hne,h.max⟩,rfl,rfl,rfl⟩

/-- Every block that is taken with `align` starts at a multiple of the alignment. -/
theorem dvd_of_pallocBlock {size m : ℕ} {chunk : Option ℕ} {pool' : Pool}
    (h : pallocBlock align pool size chunk = (some m,pool')) : align ∣ m := by
  cases chunk with
  | none => cases h
  | some p =>
    obtain rfl : alignPtr (p + dataHeader) align = m := Option.some.inj (Prod.mk.inj h).1
    exact dvd_alignPtr _ _

theorem dvd_of_pallocSmall {size m : ℕ} {chunk : Option ℕ} {pool' : Pool}
    (h : pallocSmall align pool size true chunk = (some m,pool')) : align ∣ m := by
  unfold pallocSmall at h
  split at h
  · rename_i n ps hloop
    obtain rfl : n = m := Option.some.inj (Prod.mk.inj h).1
    obtain ⟨i,p,-,rfl,-⟩ := pallocSmallLoop_some hloop
    exact dvd_alignPtr _ _
  · exact dvd_of_pallocBlock h

end InsideNginx.Palloc
