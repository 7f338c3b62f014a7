import InsideNginx.General.TransitionSystem
import InsideNginx.Palloc.Chunks

/-! The small blocks of a pool over whole runs of allocations, releases and resets. -/
namespace InsideNginx.Palloc
variable {align poolSize : ℕ} {pool : Pool} {blocks : List Region}

/-- An operation on a pool with the results of the system allocator: `block` for the large
block, `chunk` for a new chunk. -/
inductive Op
  | palloc (size : ℕ) (block chunk : Option ℕ)
  | pnalloc (size : ℕ) (block chunk : Option ℕ)
  | pcalloc (size : ℕ) (block chunk : Option ℕ)
  | pmemalign (size alignment : ℕ) (block chunk : Option ℕ)
  | pfree (p : Option ℕ)
  | reset
  deriving DecidableEq, Repr

def Op.chunk : Op → Option ℕ
  | .palloc _ _ chunk | .pnalloc _ _ chunk | .pcalloc _ _ chunk | .pmemalign _ _ _ chunk => chunk
  | .pfree _ | .reset => none

/-- A pool with the small blocks that were returned since the last reset. -/
structure State where
  pool : Pool
  blocks : List Region
  deriving DecidableEq, Repr

/-- An allocation of `size` bytes: its block is a small one up to `max`. -/
def State.alloc (s : State) (size : ℕ) (result : Option ℕ × Pool) : State :=
  ⟨result.2,(if size ≤ s.pool.max then blocksOf result.1 size else []) ++ s.blocks⟩

def State.step (align : ℕ) (s : State) : Op → State
  | .palloc size block chunk => s.alloc size (Palloc.palloc align s.pool size block chunk)
  | .pnalloc size block chunk => s.alloc size (Palloc.pnalloc align s.pool size block chunk)
  | .pcalloc size block chunk => s.alloc size (Palloc.pcalloc align s.pool size block chunk)
  | .pmemalign _ _ block chunk => ⟨(Palloc.pmemalign align s.pool block chunk).2,s.blocks⟩
  | .pfree p => ⟨(Palloc.pfree s.pool p).2,s.blocks⟩
  | .reset => ⟨resetPool s.pool,[]⟩

/-- The runs on a created pool; the system allocator returns fresh aligned chunks. -/
def pooling (align pagesize size : ℕ) : TransitionSystem State Op where
  init s := s.blocks = [] ∧ ∃ p, poolAlignment ∣ p ∧ p + size < 2^64 ∧
    createPool pagesize (some p) size = some s.pool
  step s op s' := s.pool.Fresh op.chunk ∧ s' = s.step align op

theorem createPool_valid {pagesize size p : ℕ} (hp : poolAlignment ∣ p) (hlt : p + size < 2^64)
    (hsize : poolHeader ≤ size) (h : createPool pagesize (some p) size = some pool) :
    pool.Valid size [] := by
  obtain rfl := Option.some.inj h
  refine ⟨⟨?_,?_,by simp,by simp⟩,?_,by simp,?_⟩
  · simpa [Pool.arenas,PoolChunk.arena,headerSize] using hsize
  · simp [Pool.arenas]
  · simpa [hp] using hlt
  · have hroom : sizeT (size - poolHeader) = size - poolHeader := sizeT_sub hsize (by omega)
    simp only [hroom]
    split <;> omega

/-- A region in a chunk lies between its header and `d.last`. -/
theorem Pool.Valid.inside (h : pool.Valid poolSize blocks) {r : Region}
    (hr : r ∈ blocks ++ pool.large.map PoolLarge.region) :
    ∃ (i : ℕ) (p : PoolChunk), pool.chunks[i]? = some p ∧ p.addr + headerSize i ≤ r.addr ∧
      r.addr + r.size ≤ p.dLast ∧ p.dLast ≤ p.addr + poolSize := by
  obtain ⟨a,ha,hlo,hlast⟩ := h.layout.inside r hr
  obtain ⟨-,hhi⟩ := h.layout.ordered a ha
  obtain ⟨i,hi,rfl⟩ := List.mem_mapIdx.mp ha
  obtain ⟨-,hend,-⟩ := h.chunk pool.chunks[i] (List.getElem_mem hi)
  exact ⟨i,pool.chunks[i],List.getElem?_eq_getElem hi,hlo,hlast,hhi.trans_eq hend⟩

/-- What changes only the blocks of the records keeps the invariant. -/
theorem Pool.Valid.congr_large (h : pool.Valid poolSize blocks) {large : List PoolLarge} {freed : List ℕ}
    (hl : large.map (·.addr) = pool.large.map (·.addr)) :
    Pool.Valid poolSize { pool with large := large, freed := freed } blocks where
  layout := by
    have hregion : large.map PoolLarge.region = pool.large.map PoolLarge.region := by
      have := congrArg (List.map fun a => (⟨a,largeSize⟩ : Region)) hl
      rwa [List.map_map,List.map_map] at this
    rw [hregion]
    exact h.layout
  chunk := h.chunk
  nonempty := h.nonempty
  max := h.max

theorem reuseLarge_addr {block n : ℕ} {large large' : List PoolLarge}
    (h : reuseLarge block n large = some large') : large'.map (·.addr) = large.map (·.addr) := by
  induction large generalizing n large' with
  | nil => cases h
  | cons l ls ih =>
    simp only [reuseLarge] at h
    split at h
    · cases h; rfl
    · split at h
      · cases h
      · obtain ⟨ls',hrest,rfl⟩ := Option.map_eq_some_iff.mp h
        simp [ih hrest]

theorem freeLarge_addr {p : Option ℕ} {large large' : List PoolLarge}
    (h : freeLarge p large = some large') : large'.map (·.addr) = large.map (·.addr) := by
  induction large generalizing large' with
  | nil => cases h
  | cons l ls ih =>
    simp only [freeLarge] at h
    split at h
    · cases h; rfl
    · obtain ⟨ls',hrest,rfl⟩ := Option.map_eq_some_iff.mp h
      simp [ih hrest]

/-- A reset rewinds every chunk to where the header of a pool ends. -/
theorem Pool.Valid.reset (h : pool.Valid poolSize blocks) (hmin : poolHeader ≤ poolSize) :
    (resetPool pool).Valid poolSize [] := by
  have hget : ∀ i, (resetPool pool).arenas[i]? =
      (pool.chunks[i]?).map fun p =>
        (⟨p.addr + headerSize i,p.addr + poolHeader,p.dEnd⟩ : Arena) := by
    intro i
    cases hp : pool.chunks[i]? <;> simp [Pool.arenas,resetPool,PoolChunk.arena,hp]
  refine ⟨⟨fun a ha => ?_,?_,by simp [resetPool],by simp [resetPool]⟩,?_,by simp [resetPool,h.nonempty],h.max⟩
  · obtain ⟨i,hi⟩ := List.mem_iff_getElem?.mp ha
    rw [hget] at hi
    obtain ⟨p,hp,rfl⟩ := Option.map_eq_some_iff.mp hi
    obtain ⟨-,hend,-⟩ := h.chunk p (List.mem_of_getElem? hp)
    simp only [headerSize,poolHeader,dataHeader] at *
    split <;> omega
  · refine Arena.pairwise_apart_congr (by simp [Pool.arenas,resetPool]) (fun i a a' ha ha' => ?_) h.layout.apart
    rw [hget] at ha'
    obtain ⟨p,hp,rfl⟩ := Option.map_eq_some_iff.mp ha'
    obtain rfl : p.arena i = a := by simpa [Pool.arenas,hp] using ha
    exact ⟨rfl,rfl⟩
  · intro q hq
    obtain ⟨p,hp,rfl⟩ := List.mem_map.mp hq
    exact h.chunk p hp

section
variable (halign : align ∣ poolAlignment) (hsize : align ∣ poolSize)
include halign hsize

theorem recordLarge_valid (h : pool.Valid poolSize blocks) (hmin : poolHeader ≤ poolSize) (block : ℕ)
    {chunk : Option ℕ} (hfresh : pool.Fresh chunk) :
    (recordLarge align pool block chunk).2.Valid poolSize blocks := by
  obtain ⟨r,pool',hsmall,htook⟩ := pallocSmall_spec h halign hsize
    (show largeSize + dataHeader ≤ poolSize by simp only [largeSize,dataHeader,poolHeader] at *; omega)
    hfresh true
  rw [recordLarge,hsmall]
  cases r with
  | none => exact htook.valid.congr_large rfl
  | some l =>
    refine ⟨htook.valid.layout.perm ?_,htook.valid.chunk,htook.valid.nonempty,htook.valid.max⟩
    simp [blocksOf,PoolLarge.region]

theorem pallocAs_valid (h : pool.Valid poolSize blocks) (hmin : poolHeader ≤ poolSize) (aligned : Bool)
    (size : ℕ) (block : Option ℕ) {chunk : Option ℕ} (hfresh : pool.Fresh chunk) :
    (pallocAs aligned align pool size block chunk).2.Valid poolSize
      ((if size ≤ pool.max then blocksOf (pallocAs aligned align pool size block chunk).1 size else []) ++ blocks) := by
  unfold pallocAs
  split
  · rename_i hle
    obtain ⟨r,pool',hsmall,htook⟩ := pallocSmall_spec h halign hsize
      (show size + dataHeader ≤ poolSize by have := h.max; simp only [dataHeader,poolHeader] at *; omega) hfresh aligned
    rw [hsmall]
    exact htook.valid
  · unfold pallocLarge
    cases block with
    | none => exact h
    | some block =>
      cases hreuse : reuseLarge block 0 pool.large with
      | some large => simpa only [hreuse,List.nil_append] using h.congr_large (reuseLarge_addr hreuse)
      | none => simpa only [hreuse,List.nil_append] using recordLarge_valid halign hsize h hmin block hfresh

/-- One operation keeps the invariant. -/
theorem State.step_valid {s : State} (h : s.pool.Valid poolSize s.blocks) (hmin : poolHeader ≤ poolSize)
    {op : Op} (hfresh : s.pool.Fresh op.chunk) :
    (s.step align op).pool.Valid poolSize (s.step align op).blocks := by
  cases op with
  | palloc size block chunk => exact pallocAs_valid halign hsize h hmin true size block hfresh
  | pnalloc size block chunk => exact pallocAs_valid halign hsize h hmin false size block hfresh
  | pcalloc size block chunk => exact pallocAs_valid halign hsize h hmin true size block hfresh
  | pmemalign size alignment block chunk =>
    cases block with
    | none => exact h
    | some block => exact recordLarge_valid halign hsize h hmin block hfresh
  | pfree p =>
    simp only [State.step,Palloc.pfree]
    cases hfree : freeLarge p s.pool.large with
    | none => exact h
    | some large => exact h.congr_large (freeLarge_addr hfree)
  | reset => exact h.reset hmin

end

theorem reachable_valid {pagesize size : ℕ} (halign : align ∣ poolAlignment)
    (hsize : poolAlignment ∣ size) (hmin : minPoolSize ≤ size) {s : State}
    (h : (pooling align pagesize size).Reachable s) : s.pool.Valid size s.blocks := by
  refine h.invariant (I := fun s => s.pool.Valid size s.blocks) ?_ ?_
  · rintro s ⟨hblocks,p,hp,hlt,hcreate⟩
    rw [hblocks]
    exact createPool_valid hp hlt (le_trans (by decide) hmin) hcreate
  · rintro s op s' - ih ⟨hfresh,rfl⟩
    exact s.step_valid halign (halign.trans hsize) ih (le_trans (by decide) hmin) hfresh

/-- Pool blocks never overlap: small blocks and records lie in a chunk after its header, they
are disjoint, and what is taken with alignment is aligned. -/
theorem blocks_disjoint {pagesize size : ℕ} (halign : align ∣ poolAlignment)
    (hsize : poolAlignment ∣ size) (hmin : minPoolSize ≤ size) {s : State}
    (h : (pooling align pagesize size).Reachable s) :
    (∀ r ∈ s.blocks ++ s.pool.large.map PoolLarge.region, ∃ (i : ℕ) (p : PoolChunk), s.pool.chunks[i]? = some p ∧
      p.addr + headerSize i ≤ r.addr ∧ r.addr + r.size ≤ p.dEnd) ∧
    (s.blocks ++ s.pool.large.map PoolLarge.region).Pairwise Region.Apart ∧
    ∀ n chunk m pool', (pallocSmall align s.pool n true chunk = (some m,pool') ∨
      pallocBlock align s.pool n chunk = (some m,pool')) → align ∣ m := by
  have hvalid := reachable_valid halign hsize hmin h
  refine ⟨fun r hr => ?_,hvalid.layout.disjoint,fun n chunk m pool' => ?_⟩
  · obtain ⟨i,p,hp,hlo,hlast,hhi⟩ := hvalid.inside hr
    obtain ⟨-,hend,-⟩ := hvalid.chunk p (List.mem_of_getElem? hp)
    exact ⟨i,p,hp,hlo,(hlast.trans hhi).trans_eq hend.symm⟩
  · rintro (hsmall | hblock)
    · exact dvd_of_pallocSmall hsmall
    · exact dvd_of_pallocBlock hblock

/-- Two blocks of a pool of 128 bytes, the second one in a second chunk. -/
theorem blocks_disjoint_example : ∃ s : State, (pooling 8 4096 128).Reachable s ∧
    s.blocks = [⟨2080,47⟩,⟨1104,5⟩] ∧ s.blocks.Pairwise Region.Apart := by
  have hinit : (pooling 8 4096 128).Reachable ⟨⟨[⟨1024,1104,1152,0⟩],48,0,[],[]⟩,[]⟩ :=
    .init ⟨rfl,1024,by decide,by decide,rfl⟩
  have hfirst := hinit.step (a := Op.palloc 5 none none) ⟨by rintro p ⟨⟩,rfl⟩
  have hsecond := hfirst.step (a := Op.pnalloc 47 none (some 2048)) ⟨by rintro p ⟨⟩; decide,rfl⟩
  obtain ⟨-,hdisjoint,-⟩ := blocks_disjoint (by decide) (by decide) (by decide) hsecond
  exact ⟨_,hsecond,by decide,(List.pairwise_append.mp hdisjoint).1⟩

end InsideNginx.Palloc
