import InsideNginx.Palloc.Secure

/-! The cleanup records of a pool, which live in small blocks of it as the records of large
blocks do. -/
namespace InsideNginx.Palloc

/-- A cleanup handler: `ngx_pool_cleanup_file`, or one of another module. -/
inductive CleanupHandler
  | file
  | other (id : ℕ)
  deriving DecidableEq, Repr

/-- A cleanup record, at the address where the record itself lives. -/
structure PoolCleanup where
  addr : ℕ
  handler : Option CleanupHandler
  data : Option ℕ
  deriving DecidableEq, Repr

/-- `sizeof(ngx_pool_cleanup_t)`. -/
def cleanupSize : ℕ := 24

def PoolCleanup.region (c : PoolCleanup) : Region := ⟨c.addr,cleanupSize⟩

/-- The results of the system allocator for one call of `ngx_palloc`: what `malloc` returns, what
the caller of `ngx_alloc` finds in place of it, and a new chunk. -/
structure Supply where
  malloc : Option ℕ
  left : Option ℕ
  chunk : Option ℕ
  deriving DecidableEq, Repr

def Supply.block (supply : Supply) : Option ℕ := ngxAlloc supply.malloc supply.left

/-- `ngx_pool_cleanup_add`: the record that it returns, and the pool with its records. -/
def poolCleanupAdd (align : ℕ) (pool : Pool) (cleanup : List PoolCleanup) (size : ℕ) (first second : Supply) :
    Option PoolCleanup × Pool × List PoolCleanup :=
  match palloc align pool cleanupSize first.block first.chunk with
  | (none,pool) => (none,pool,cleanup)
  | (some c,pool) =>
    if size = 0 then (some ⟨c,none,none⟩,pool,⟨c,none,none⟩::cleanup)
    else
      match palloc align pool size second.block second.chunk with
      | (none,pool) => (none,pool,cleanup)
      | (some data,pool) => (some ⟨c,none,some data⟩,pool,⟨c,none,some data⟩::cleanup)

/-- `ngx_pool_run_cleanup_file`: the record whose handler it calls, and the records afterwards.
`fdAt` is what it reads at `cf->fd`. -/
def poolRunCleanupFile (fdAt : ℕ → ℤ) (fd : ℤ) : List PoolCleanup → Option PoolCleanup × List PoolCleanup
  | [] => (none,[])
  | c::cs =>
    if c.handler = some .file ∧ c.data.map fdAt = some fd then (some c,{ c with handler := none }::cs)
    else ((poolRunCleanupFile fdAt fd cs).1,c::(poolRunCleanupFile fdAt fd cs).2)

/-- A pool until it is destroyed, with its cleanup records, the blocks in its chunks and the large
blocks that its callers were given since the last reset, and the records whose handlers were
called. -/
structure Cleaning where
  pool : Option Pool
  cleanup : List PoolCleanup
  blocks : List Region
  larges : List Region
  called : List PoolCleanup

/-- An operation on the pool; `register` is the caller that writes the fields of its record. -/
inductive CleanupOp
  | palloc (size : ℕ) (supply : Supply)
  | pnalloc (size : ℕ) (supply : Supply)
  | cleanupAdd (size : ℕ) (first second : Supply)
  | register (i : ℕ) (handler : Option CleanupHandler) (data : Option ℕ)
  | runCleanupFile (fd : ℤ) (fdAt : ℕ → ℤ)
  | reset
  | destroy

namespace Cleaning

/-- The callers of an allocation of `size` bytes are given its block. -/
def give (s : Cleaning) (pool : Pool) (size : ℕ) (r : Option ℕ) : Cleaning :=
  { s with blocks := pool.smallOf size r ++ s.blocks, larges := pool.largeOf size r ++ s.larges }

def step (align : ℕ) (s : Cleaning) (op : CleanupOp) : Option Cleaning :=
  s.pool.map fun pool =>
    match op with
    | .palloc size supply =>
      let result := Palloc.palloc align pool size supply.block supply.chunk
      { s.give pool size result.1 with pool := some result.2 }
    | .pnalloc size supply =>
      let result := Palloc.pnalloc align pool size supply.block supply.chunk
      { s.give pool size result.1 with pool := some result.2 }
    | .cleanupAdd size first second =>
      let result := poolCleanupAdd align pool s.cleanup size first second
      { s.give pool size (result.1.bind (·.data)) with pool := some result.2.1, cleanup := result.2.2 }
    | .register i handler data =>
      { s with cleanup := s.cleanup.modify i fun c => { c with handler := handler, data := data } }
    | .runCleanupFile fd fdAt =>
      let result := poolRunCleanupFile fdAt fd s.cleanup
      { s with cleanup := result.2, called := s.called ++ result.1.toList }
    | .reset => { s with pool := some (resetPool pool), blocks := [], larges := [] }
    | .destroy => { s with pool := none, called := s.called ++ s.cleanup.filter fun c => c.handler.isSome }

/-- The system allocator does not hand out memory that is still out. -/
def Fresh (align : ℕ) (s : Cleaning) : CleanupOp → Prop
  | .palloc size supply | .pnalloc size supply =>
    ∀ pool ∈ s.pool, pool.Supplied s.larges size supply.malloc supply.chunk
  | .cleanupAdd size first second => ∀ pool ∈ s.pool, pool.Supplied s.larges cleanupSize first.malloc first.chunk ∧
    (Palloc.palloc align pool cleanupSize first.block first.chunk).2.Supplied s.larges size second.malloc second.chunk
  | _ => True

/-- Every record that the pool leads to lies in what a chunk has handed out, and overlaps no block
that a caller was given. -/
def Kept (s : Cleaning) : Prop :=
  ∀ pool ∈ s.pool, ∀ r ∈ s.cleanup.map PoolCleanup.region ++ pool.large.map PoolLarge.region,
    (∃ p ∈ pool.chunks, p.addr + dataHeader ≤ r.addr ∧ r.addr + r.size ≤ p.dLast) ∧
    ∀ b ∈ s.blocks ++ s.larges, r.Apart b

end Cleaning

/-- The runs on a pool from its creation on. -/
def cleaning (align pagesize size : ℕ) : TransitionSystem Cleaning CleanupOp where
  init s := ∃ p pool, poolAlignment ∣ p ∧ p + size < 2^64 ∧ createPool pagesize (some p) size = some pool ∧
    s = ⟨some pool,[],[],[],[]⟩
  step s op s' := s.Fresh align op ∧ s.step align op = some s'

/-- Whenever `ngx_alloc` is called, its value happens to be what `malloc` returned. -/
def CleanupOp.Returned : CleanupOp → Prop
  | .palloc _ supply | .pnalloc _ supply => supply.left = supply.malloc
  | .cleanupAdd _ first second => first.left = first.malloc ∧ second.left = second.malloc
  | _ => True

/-- No cleanup record is left when a pool is reset. -/
def CleanupOp.Tidy (s : Cleaning) : CleanupOp → Prop
  | .reset => s.cleanup = []
  | _ => True

namespace Cleaning

/-- The invariant of the runs without such a reset. -/
def Sound (poolSize : ℕ) (s : Cleaning) : Prop :=
  ∀ pool ∈ s.pool, pool.Secure poolSize (s.cleanup.map PoolCleanup.region ++ s.blocks) s.larges ∧
    cleanupSize ≤ pool.max

theorem Sound.kept {poolSize : ℕ} {s : Cleaning} (h : s.Sound poolSize) : s.Kept := by
  intro pool hpool r hr
  obtain ⟨hsecure,-⟩ := h pool hpool
  have hvalid := hsecure.valid
  have hmem : r ∈ (s.cleanup.map PoolCleanup.region ++ s.blocks) ++ pool.large.map PoolLarge.region := by
    rcases List.mem_append.mp hr with hr | hr
    · exact List.mem_append_left _ (List.mem_append_left _ hr)
    · exact List.mem_append_right _ hr
  refine ⟨?_,fun b hb => ?_⟩
  · obtain ⟨i,p,hp,hlo,hlast,-⟩ := hvalid.inside hmem
    refine ⟨p,List.mem_of_getElem? hp,?_,hlast⟩
    have : dataHeader ≤ headerSize i := by unfold headerSize; split <;> decide
    omega
  · rcases List.mem_append.mp hb with hb | hb
    · obtain ⟨hsmall,-,hlarge⟩ := List.pairwise_append.mp hvalid.layout.disjoint
      rcases List.mem_append.mp hr with hr | hr
      · exact (List.pairwise_append.mp hsmall).2.2 r hr b hb
      · exact (hlarge b (List.mem_append_right _ hb) r hr).symm
    · exact hvalid.apart_outside hmem (hsecure.apart b hb)

theorem poolRunCleanupFile_addr (fdAt : ℕ → ℤ) (fd : ℤ) (cleanup : List PoolCleanup) :
    (poolRunCleanupFile fdAt fd cleanup).2.map PoolCleanup.region = cleanup.map PoolCleanup.region := by
  induction cleanup with
  | nil => rfl
  | cons c cs ih =>
    simp only [poolRunCleanupFile]
    split
    · rfl
    · rw [List.map_cons,List.map_cons,ih]

/-- The fields that a caller writes leave a record where it is. -/
theorem register_region (cleanup : List PoolCleanup) (i : ℕ) (handler : Option CleanupHandler) (data : Option ℕ) :
    (cleanup.modify i fun c => { c with handler := handler, data := data }).map PoolCleanup.region =
      cleanup.map PoolCleanup.region := by
  apply List.ext_getElem?
  intro j
  rw [List.getElem?_map,List.getElem?_map,List.getElem?_modify]
  cases cleanup[j]? with
  | none => rfl
  | some c =>
    by_cases hij : i = j
    · simp [hij,PoolCleanup.region]
    · simp [hij]

section
variable {align poolSize : ℕ} (halign : align ∣ poolAlignment) (hsize : poolAlignment ∣ poolSize)
  (hmin : poolHeader ≤ poolSize) {pool : Pool} {s : Cleaning}
include halign hsize hmin

/-- An allocation for a caller. -/
theorem Sound.alloc (h : s.Sound poolSize) (hpool : s.pool = some pool) (aligned : Bool) {size : ℕ} {supply : Supply}
    (hsupplied : pool.Supplied s.larges size supply.malloc supply.chunk) (hreturned : supply.left = supply.malloc) :
    let result := pallocAs aligned align pool size supply.block supply.chunk
    Sound poolSize { s.give pool size result.1 with pool := some result.2 } := by
  intro result pool' hpool'
  cases hpool'
  obtain ⟨hsecure,hroom⟩ := h pool hpool
  have hblock : supply.block = supply.malloc := hreturned
  rw [← hblock] at hsupplied
  refine ⟨(hsecure.alloc halign hsize hmin aligned hsupplied).subperm (List.Perm.subperm ?_),?_⟩
  · dsimp only [give]
    rw [← List.append_assoc,← List.append_assoc]
    exact List.perm_append_comm.append_right _
  · exact hroom.trans_eq (pallocAs_chunks aligned align pool size supply.block supply.chunk).2.symm

/-- A record and the data of its handler are two allocations. -/
theorem Sound.cleanupAdd (h : s.Sound poolSize) (hpool : s.pool = some pool) {size : ℕ} {first second : Supply}
    (hfirst : pool.Supplied s.larges cleanupSize first.malloc first.chunk)
    (hsecond : (palloc align pool cleanupSize first.block first.chunk).2.Supplied s.larges size
      second.malloc second.chunk)
    (hreturned : first.left = first.malloc ∧ second.left = second.malloc) :
    let result := poolCleanupAdd align pool s.cleanup size first second
    Sound poolSize { s.give pool size (result.1.bind (·.data)) with
      pool := some result.2.1
      cleanup := result.2.2 } := by
  intro result
  obtain ⟨hsecure,hroom⟩ := h pool hpool
  have hblock : first.block = first.malloc := hreturned.1
  rw [← hblock] at hfirst
  have hrecord := hsecure.alloc halign hsize hmin true hfirst
  have hmax := (pallocAs_chunks true align pool cleanupSize first.block first.chunk).2
  rw [Pool.smallOf,Pool.largeOf,if_pos hroom,if_pos hroom] at hrecord
  subst result
  unfold poolCleanupAdd palloc at *
  generalize hr : pallocAs true align pool cleanupSize first.block first.chunk = r at *
  obtain ⟨c,pool₁⟩ := r
  dsimp only at hrecord hmax hsecond ⊢
  cases c with
  | none =>
    rintro pool' ⟨⟩
    refine ⟨?_,hroom.trans_eq hmax.symm⟩
    simpa [give,Pool.smallOf,Pool.largeOf,blocksOf] using hrecord
  | some c =>
    have hrecord : pool₁.Secure poolSize (⟨c,cleanupSize⟩::(s.cleanup.map PoolCleanup.region ++ s.blocks)) s.larges :=
      hrecord
    dsimp only
    split
    · rintro pool' ⟨⟩
      refine ⟨?_,hroom.trans_eq hmax.symm⟩
      simpa [give,Pool.smallOf,Pool.largeOf,blocksOf,PoolCleanup.region] using hrecord
    · have hblock : second.block = second.malloc := hreturned.2
      rw [← hblock] at hsecond
      have hdata := hrecord.alloc halign hsize hmin true hsecond
      have hmax' := (pallocAs_chunks true align pool₁ size second.block second.chunk).2
      have hlists : ∀ r, pool₁.smallOf size r = pool.smallOf size r ∧ pool₁.largeOf size r = pool.largeOf size r :=
        fun r => by simp only [Pool.smallOf,Pool.largeOf,hmax,and_self]
      rw [(hlists _).1,(hlists _).2] at hdata
      generalize pallocAs true align pool₁ size second.block second.chunk = r' at hdata hmax' ⊢
      obtain ⟨d,pool₂⟩ := r'
      dsimp only at hdata hmax' ⊢
      have hroom' : cleanupSize ≤ pool₂.max := hroom.trans_eq (hmax'.trans hmax).symm
      cases d with
      | none =>
        -- the record stays behind without being linked
        rintro pool' ⟨⟩
        refine ⟨?_,hroom'⟩
        have hsub : (s.cleanup.map PoolCleanup.region ++ s.blocks).Sublist (pool.smallOf size none ++
            ⟨c,cleanupSize⟩::(s.cleanup.map PoolCleanup.region ++ s.blocks)) := by
          simp [Pool.smallOf,blocksOf]
        have hleft := hdata.subperm hsub.subperm
        simpa [give,Pool.smallOf,Pool.largeOf,blocksOf] using hleft
      | some data =>
        rintro pool' ⟨⟩
        refine ⟨hdata.subperm (List.Perm.subperm ?_),hroom'⟩
        simp only [give,Option.bind_some,List.map_cons,PoolCleanup.region,List.cons_append]
        refine List.Perm.trans ?_ List.perm_middle.symm
        refine List.Perm.cons _ ?_
        rw [← List.append_assoc,← List.append_assoc]
        exact List.perm_append_comm.append_right _

/-- One operation keeps the invariant. -/
theorem Sound.step {s' : Cleaning} {op : CleanupOp} (h : s.Sound poolSize) (hfresh : s.Fresh align op)
    (hreturned : op.Returned) (htidy : op.Tidy s) (hstep : s.step align op = some s') : s'.Sound poolSize := by
  obtain ⟨pool,hpool,rfl⟩ := Option.map_eq_some_iff.mp hstep
  obtain ⟨hsecure,hroom⟩ := h pool hpool
  cases op with
  | palloc size supply => exact h.alloc halign hsize hmin hpool true (hfresh pool hpool) hreturned
  | pnalloc size supply => exact h.alloc halign hsize hmin hpool false (hfresh pool hpool) hreturned
  | cleanupAdd size first second =>
    obtain ⟨hfirst,hsecond⟩ := hfresh pool hpool
    exact h.cleanupAdd halign hsize hmin hpool hfirst hsecond hreturned
  | register i handler data =>
    intro pool' hpool'
    refine ⟨?_,(h pool' hpool').2⟩
    dsimp only
    rw [register_region]
    exact (h pool' hpool').1
  | runCleanupFile fd fdAt =>
    intro pool' hpool'
    refine ⟨?_,(h pool' hpool').2⟩
    dsimp only
    rw [poolRunCleanupFile_addr]
    exact (h pool' hpool').1
  | reset =>
    rintro pool' ⟨⟩
    have htidy : s.cleanup = [] := htidy
    refine ⟨⟨?_,?_,by simp,List.Pairwise.nil⟩,hroom⟩
    · simpa [htidy] using hsecure.valid.reset hmin
    · simpa [resetPool,Function.comp_def] using hsecure.spans
  | destroy =>
    rintro pool' ⟨⟩

end

end Cleaning

/-- A pool that is never reset while it has cleanup records leaves nothing dangling. -/
theorem records_kept {align pagesize size : ℕ} (halign : align ∣ poolAlignment) (hsize : poolAlignment ∣ size)
    (hmin : minPoolSize ≤ size) (hpage : cleanupSize ≤ sizeT (pagesize - 1)) {s : Cleaning}
    (h : ((cleaning align pagesize size).restrict fun s op => op.Returned ∧ op.Tidy s).Reachable s) : s.Kept := by
  have hheader : poolHeader ≤ size := le_trans (by decide) hmin
  have hsound : s.Sound size := by
    refine h.invariant (I := Cleaning.Sound size) ?_ ?_
    · rintro s ⟨p,pool,hp,hlt,hcreate,rfl⟩ pool' ⟨⟩
      refine ⟨⟨createPool_valid hp hlt hheader hcreate,?_,by simp,List.Pairwise.nil⟩,?_⟩
      · obtain rfl := Option.some.inj hcreate
        exact List.pairwise_singleton ..
      obtain rfl := Option.some.inj hcreate
      have hroom : sizeT (size - poolHeader) = size - poolHeader := sizeT_sub hheader (by omega)
      have hspace : cleanupSize ≤ size - poolHeader := by simp only [cleanupSize,poolHeader,minPoolSize] at *; omega
      simp only [hroom]
      split
      · exact hspace
      · exact hpage
    · rintro s op s' - ih ⟨⟨hreturned,htidy⟩,hfresh,hstep⟩
      exact ih.step halign hsize hheader hfresh hreturned htidy hstep
  exact hsound.kept

/-- A record, its data and a large block are out; the record's handler is called when the pool is
destroyed. -/
theorem records_kept_example : ∃ s : Cleaning,
    ((cleaning 8 4096 128).restrict fun s op => op.Returned ∧ op.Tidy s).Reachable s ∧
    s.cleanup = [⟨1104,some .file,some 1128⟩] ∧ s.blocks = [⟨1128,16⟩] ∧ s.larges = [⟨5000,200⟩] ∧ s.Kept := by
  have hinit : ((cleaning 8 4096 128).restrict fun s op => op.Returned ∧ op.Tidy s).Reachable
      ⟨some ⟨[⟨1024,1104,1152,0⟩],48,0,[],[]⟩,[],[],[],[]⟩ := .init ⟨1024,_,by decide,by decide,rfl,rfl⟩
  have hadd : ((cleaning 8 4096 128).restrict fun s op => op.Returned ∧ op.Tidy s).Reachable
      ⟨some ⟨[⟨1024,1144,1152,0⟩],48,0,[],[]⟩,[⟨1104,none,some 1128⟩],[⟨1128,16⟩],[],[]⟩ := by
    refine hinit.step (a := CleanupOp.cleanupAdd 16 ⟨none,none,none⟩ ⟨none,none,none⟩) ⟨⟨⟨rfl,rfl⟩,trivial⟩,?_,rfl⟩
    rintro pool ⟨⟩
    exact ⟨⟨by rintro p ⟨⟩,by simp,by simp⟩,⟨by rintro p ⟨⟩,by simp,by simp⟩⟩
  have hregister : ((cleaning 8 4096 128).restrict fun s op => op.Returned ∧ op.Tidy s).Reachable
      ⟨some ⟨[⟨1024,1144,1152,0⟩],48,0,[],[]⟩,[⟨1104,some .file,some 1128⟩],[⟨1128,16⟩],[],[]⟩ :=
    hadd.step (a := CleanupOp.register 0 (some .file) (some 1128)) ⟨⟨trivial,trivial⟩,trivial,rfl⟩
  have hlarge : ((cleaning 8 4096 128).restrict fun s op => op.Returned ∧ op.Tidy s).Reachable
      ⟨some ⟨[⟨1024,1144,1152,0⟩,⟨2048,2096,2176,0⟩],48,0,[⟨2080,some 5000⟩],[]⟩,[⟨1104,some .file,some 1128⟩],
        [⟨1128,16⟩],[⟨5000,200⟩],[]⟩ := by
    refine hregister.step (a := CleanupOp.palloc 200 ⟨some 5000,some 5000,some 2048⟩) ⟨⟨rfl,trivial⟩,?_,rfl⟩
    rintro pool ⟨⟩
    refine ⟨by rintro p ⟨⟩; decide,by simp,?_⟩
    rintro b ⟨⟩
    exact ⟨by simp [Region.Apart,Pool.size,sizeT],by simp [Region.Apart,Pool.size,sizeT],by simp⟩
  exact ⟨_,hlarge,rfl,rfl,rfl,records_kept (by decide) (by decide) (by decide) (by decide) hlarge⟩

/-- After a reset the old record is still the head of `cleanup`, and the next small block is the
memory that it lies in. -/
theorem reset_reissues_record : ¬ ∀ s : Cleaning,
    ((cleaning 8 4096 128).restrict fun _ op => op.Returned).Reachable s → s.Kept := by
  intro hall
  have hinit : ((cleaning 8 4096 128).restrict fun _ op => op.Returned).Reachable
      ⟨some ⟨[⟨1024,1104,1152,0⟩],48,0,[],[]⟩,[],[],[],[]⟩ := .init ⟨1024,_,by decide,by decide,rfl,rfl⟩
  have hadd : ((cleaning 8 4096 128).restrict fun _ op => op.Returned).Reachable
      ⟨some ⟨[⟨1024,1128,1152,0⟩],48,0,[],[]⟩,[⟨1104,none,none⟩],[],[],[]⟩ := by
    refine hinit.step (a := CleanupOp.cleanupAdd 0 ⟨none,none,none⟩ ⟨none,none,none⟩) ⟨⟨rfl,rfl⟩,?_,rfl⟩
    rintro pool ⟨⟩
    exact ⟨⟨by rintro p ⟨⟩,by simp,by simp⟩,⟨by rintro p ⟨⟩,by simp,by simp⟩⟩
  have hreset : ((cleaning 8 4096 128).restrict fun _ op => op.Returned).Reachable
      ⟨some ⟨[⟨1024,1104,1152,0⟩],48,0,[],[]⟩,[⟨1104,some (.other 7),none⟩],[],[],[]⟩ :=
    (hadd.step (a := CleanupOp.register 0 (some (.other 7)) none) ⟨trivial,trivial,rfl⟩).step (a := CleanupOp.reset)
      ⟨trivial,trivial,rfl⟩
  have hblock : ((cleaning 8 4096 128).restrict fun _ op => op.Returned).Reachable
      ⟨some ⟨[⟨1024,1128,1152,0⟩],48,0,[],[]⟩,[⟨1104,some (.other 7),none⟩],[⟨1104,24⟩],[],[]⟩ := by
    refine hreset.step (a := CleanupOp.palloc 24 ⟨none,none,none⟩) ⟨rfl,?_,rfl⟩
    rintro pool ⟨⟩
    exact ⟨by rintro p ⟨⟩,by simp,by simp⟩
  obtain ⟨-,hapart⟩ := hall _ hblock _ rfl ⟨1104,24⟩ (by simp [PoolCleanup.region,cleanupSize])
  exact absurd (hapart ⟨1104,24⟩ (by simp)) (by simp [Region.Apart])

end InsideNginx.Palloc
