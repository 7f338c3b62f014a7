import InsideNginx.General.Custody
import InsideNginx.General.TransitionSystem
import InsideNginx.Palloc.Chunks

/-! The large blocks of a pool over whole runs, from its creation to its destruction: which
blocks of the system allocator the records list, and when each of them is freed. -/
namespace InsideNginx.Palloc
open Transfer

/-- `ngx_alloc`: its closing brace is reached without a `return`, so the value of the call is
whatever its caller finds in place of it, and not what `malloc` returned. -/
def ngxAlloc (_malloc left : Option ℕ) : Option ℕ := left

/-- `ngx_destroy_pool` of a pool without cleanup handlers: the arguments of all calls of
`ngx_free`. -/
def destroyPool (pool : Pool) : List ℕ :=
  pool.freed ++ (pool.large.filterMap (·.alloc) ++ pool.chunks.map (·.addr))

/-- What a pool has to free: the blocks that its records list, and its chunks. -/
def Pool.owned (pool : Pool) : List ℕ := pool.large.filterMap (·.alloc) ++ pool.chunks.map (·.addr)

/-- An operation with the results of the system allocator: `malloc` or `block` for the large
block, `chunk` for a new chunk, and `left` for the missing value of `ngx_alloc`. -/
inductive LargeOp
  | palloc (size : ℕ) (malloc left chunk : Option ℕ)
  | pmemalign (size alignment : ℕ) (block chunk : Option ℕ)
  | pfree (p : Option ℕ)
  | reset
  | destroy
  deriving DecidableEq, Repr

/-- The memory that the system allocator returns during an operation. -/
def LargeOp.handed : LargeOp → List ℕ
  | .palloc _ malloc _ chunk => malloc.toList ++ chunk.toList
  | .pmemalign _ _ block chunk => block.toList ++ chunk.toList
  | .pfree _ | .reset | .destroy => []

/-- One request for a large block: what the system allocator handed out for it, what the caller
received, and what the request freed. -/
structure LargeRequest where
  handed : Option ℕ
  received : Option ℕ
  freed : List ℕ
  deriving DecidableEq, Repr

/-- A pool until it is destroyed, with everything the system allocator handed out and got back
on its account, and its requests for large blocks. -/
structure Ledger where
  pool : Option Pool
  log : List (Transfer ℕ)
  requests : List LargeRequest
  deriving DecidableEq, Repr

/-- The calls of `ngx_free` between two states of a pool. -/
def Pool.freedBy (pool pool' : Pool) : List ℕ := pool'.freed.drop pool.freed.length

/-- The chunks that were added between two states of a pool. -/
def Pool.grownBy (pool pool' : Pool) : List ℕ := (pool'.chunks.drop pool.chunks.length).map (·.addr)

/-- Enter a call that changed `pool` into `pool'` and for which the large block `block` was
handed out. -/
def Ledger.enter (s : Ledger) (pool pool' : Pool) (block : Option ℕ) : Ledger :=
  { s with
    pool := some pool'
    log := s.log ++ ((block.toList ++ pool.grownBy pool').map .handed ++ (pool.freedBy pool').map .freed) }

def Ledger.request (s : Ledger) (pool : Pool) (block : Option ℕ) (result : Option ℕ × Pool) : Ledger :=
  { s.enter pool result.2 block with
    requests := s.requests ++ [⟨block,result.1,pool.freedBy result.2⟩] }

def Ledger.step (align : ℕ) (s : Ledger) (op : LargeOp) : Option Ledger :=
  s.pool.bind fun pool =>
    match op with
    | .palloc size malloc left chunk =>
      if size ≤ pool.max then none
      else some (s.request pool malloc (Palloc.palloc align pool size (ngxAlloc malloc left) chunk))
    | .pmemalign _ _ block chunk => some (s.request pool block (Palloc.pmemalign align pool block chunk))
    | .pfree p => some (s.enter pool (Palloc.pfree pool p).2 none)
    | .reset => some (s.enter pool (resetPool pool) none)
    | .destroy => some { s with
        pool := none
        log := s.log ++ ((destroyPool pool).drop pool.freed.length).map .freed }

/-- The system allocator does not hand out memory that is still out. -/
def Ledger.Fresh (s : Ledger) (op : LargeOp) : Prop :=
  op.handed.Nodup ∧ ∀ b ∈ op.handed, s.log.count (.handed b) = s.log.count (.freed b)

/-- The runs on a pool from its creation on. -/
def largeRuns (align pagesize size : ℕ) : TransitionSystem Ledger LargeOp where
  init s := ∃ p pool, createPool pagesize (some p) size = some pool ∧ s = ⟨some pool,[.handed p],[]⟩
  step s op s' := s.Fresh op ∧ s.step align op = some s'

/-! ### What one call does -/

variable {align : ℕ} {pool pool' : Pool}

/-- A small allocation adds at most the new chunk, and leaves records and frees alone. -/
structure Pool.Grows (pool pool' : Pool) (chunk : Option ℕ) : Prop where
  chunks : ∃ new, new.Sublist chunk.toList ∧
    pool'.chunks.map (·.addr) = pool.chunks.map (·.addr) ++ new
  large : pool'.large = pool.large
  freed : pool'.freed = pool.freed

theorem pallocBlock_grows (size : ℕ) (chunk : Option ℕ) :
    pool.Grows (pallocBlock align pool size chunk).2 chunk := by
  cases chunk with
  | none => exact ⟨⟨[],.slnil,by simp [pallocBlock]⟩,rfl,rfl⟩
  | some p =>
    refine ⟨⟨[p],List.Sublist.refl _,?_⟩,rfl,rfl⟩
    have hspan := failChunks_span pool.current (pool.chunks.drop pool.current) pool.current
    have haddr := congrArg (List.map Prod.fst) hspan
    rw [List.map_map,List.map_map] at haddr
    have haddr : (failChunks pool.current (pool.chunks.drop pool.current) pool.current).1.map (·.addr) =
      (pool.chunks.drop pool.current).map (·.addr) := haddr
    simp only [pallocBlock,List.map_append,List.map_cons,List.map_nil,haddr]
    rw [← List.map_append,List.take_append_drop]

theorem pallocSmall_grows (align : ℕ) (pool : Pool) (size : ℕ) (aligned : Bool) (chunk : Option ℕ) :
    pool.Grows (pallocSmall align pool size aligned chunk).2 chunk := by
  unfold pallocSmall
  split
  · rename_i m ps hloop
    obtain ⟨i,p,hp,-,-,rfl⟩ := pallocSmallLoop_some hloop
    refine ⟨⟨[],List.nil_sublist _,?_⟩,rfl,rfl⟩
    have hset : ((pool.chunks.drop pool.current).set i { p with dLast := m + size }).map (·.addr) =
        (pool.chunks.drop pool.current).map (·.addr) := by
      rw [List.map_set]
      obtain ⟨hi,rfl⟩ := List.getElem?_eq_some_iff.mp hp
      simpa using List.set_getElem_self
        (show i < ((pool.chunks.drop pool.current).map (·.addr)).length by simpa using hi)
    rw [List.map_append,hset,← List.map_append,List.take_append_drop,List.append_nil]
  · exact pallocBlock_grows size chunk

/-- A call exchanges what it frees for the block and the chunk it was handed. -/
structure Pool.Moves (pool pool' : Pool) (block chunk : Option ℕ) (gone : List ℕ) : Prop where
  freed : pool'.freed = pool.freed ++ gone
  chunks : ∃ new, new.Sublist chunk.toList ∧
    pool'.chunks.map (·.addr) = pool.chunks.map (·.addr) ++ new ∧
    (gone ++ pool'.owned).Perm (block.toList ++ new ++ pool.owned)

/-- What the caller of a request receives, and what the request frees. -/
def Answered (block received : Option ℕ) (gone : List ℕ) : Prop :=
  received = block ∧ gone = [] ∨ received = none ∧ gone = block.toList

lemma perm_new_middle (records chunks new : List ℕ) :
    (records ++ (chunks ++ new)).Perm (new ++ (records ++ chunks)) := by
  rw [← List.append_assoc]
  exact List.perm_append_comm

theorem recordLarge_moves (block : ℕ) (chunk : Option ℕ) :
    ∃ gone, pool.Moves (recordLarge align pool block chunk).2 (some block) chunk gone ∧
      Answered (some block) (recordLarge align pool block chunk).1 gone := by
  have hgrows := pallocSmall_grows align pool largeSize true chunk
  unfold recordLarge
  generalize pallocSmall align pool largeSize true chunk = result at hgrows
  obtain ⟨r,pool'⟩ := result
  obtain ⟨⟨new,hnew,hchunks⟩,hlarge,hfreed⟩ := hgrows
  dsimp only at hchunks hlarge hfreed
  have hperm := perm_new_middle (pool.large.filterMap (·.alloc)) (pool.chunks.map (·.addr)) new
  cases r with
  | none =>
    refine ⟨[block],⟨by simp [hfreed],new,hnew,hchunks,?_⟩,.inr ⟨rfl,rfl⟩⟩
    simp only [Pool.owned,hlarge,hchunks]
    exact hperm.cons block
  | some l =>
    refine ⟨[],⟨by simp [hfreed],new,hnew,hchunks,?_⟩,.inl ⟨rfl,rfl⟩⟩
    simp only [Pool.owned,hlarge,hchunks]
    exact hperm.cons block

/-- A record without a block takes the new block. -/
theorem reuseLarge_perm {block n : ℕ} {large large' : List PoolLarge}
    (h : reuseLarge block n large = some large') :
    (large'.filterMap (·.alloc)).Perm (block::large.filterMap (·.alloc)) := by
  induction large generalizing n large' with
  | nil => cases h
  | cons l ls ih =>
    simp only [reuseLarge] at h
    split at h
    · rename_i hfree
      cases h
      simp [hfree]
    · split at h
      · cases h
      · obtain ⟨ls',hrest,rfl⟩ := Option.map_eq_some_iff.mp h
        cases hl : l.alloc with
        | none => simpa [hl] using ih hrest
        | some b =>
          simp only [List.filterMap_cons,hl]
          exact ((ih hrest).cons b).trans (List.Perm.swap ..)

/-- The record of a freed block keeps its place. -/
theorem freeLarge_perm {p : Option ℕ} {large large' : List PoolLarge}
    (h : freeLarge p large = some large') :
    (p.toList ++ large'.filterMap (·.alloc)).Perm (large.filterMap (·.alloc)) := by
  induction large generalizing large' with
  | nil => cases h
  | cons l ls ih =>
    simp only [freeLarge] at h
    split at h
    · rename_i hl
      cases h
      cases hp : p <;> simp [← hl,hp]
    · obtain ⟨ls',hrest,rfl⟩ := Option.map_eq_some_iff.mp h
      cases hl : l.alloc with
      | none => simpa [hl] using ih hrest
      | some b =>
        simp only [List.filterMap_cons,hl]
        exact List.perm_middle.trans ((ih hrest).cons b)

/-- `ngx_palloc_large` with the value that `malloc` returned. -/
theorem pallocLarge_moves (align : ℕ) (pool : Pool) (block chunk : Option ℕ) :
    ∃ gone, pool.Moves (pallocLarge align pool block chunk).2 block chunk gone ∧
      Answered block (pallocLarge align pool block chunk).1 gone := by
  unfold pallocLarge
  cases block with
  | none =>
    exact ⟨[],⟨by simp,[],List.nil_sublist _,by simp,List.Perm.refl _⟩,.inl ⟨rfl,rfl⟩⟩
  | some block =>
    cases hreuse : reuseLarge block 0 pool.large with
    | none => simpa only [hreuse] using recordLarge_moves block chunk
    | some large =>
      refine ⟨[],⟨by simp [hreuse],[],List.nil_sublist _,by simp [hreuse],?_⟩,.inl ⟨by simp [hreuse],rfl⟩⟩
      simpa [Pool.owned,hreuse] using (reuseLarge_perm hreuse).append_right (pool.chunks.map (·.addr))

theorem pmemalign_moves (align : ℕ) (pool : Pool) (block chunk : Option ℕ) :
    ∃ gone, pool.Moves (pmemalign align pool block chunk).2 block chunk gone ∧
      Answered block (pmemalign align pool block chunk).1 gone := by
  cases block with
  | none =>
    exact ⟨[],⟨by simp [pmemalign],[],List.nil_sublist _,by simp [pmemalign],List.Perm.refl _⟩,.inl ⟨rfl,rfl⟩⟩
  | some block => exact recordLarge_moves block chunk

theorem pfree_moves (pool : Pool) (p : Option ℕ) : ∃ gone, pool.Moves (pfree pool p).2 none none gone := by
  unfold pfree
  cases hfree : freeLarge p pool.large with
  | none => exact ⟨[],by simp,[],List.nil_sublist _,by simp,List.Perm.refl _⟩
  | some large =>
    refine ⟨p.toList,rfl,[],List.nil_sublist _,by simp,?_⟩
    simpa [Pool.owned] using (freeLarge_perm hfree).append_right (pool.chunks.map (·.addr))

theorem resetPool_moves (pool : Pool) : ∃ gone, pool.Moves (resetPool pool) none none gone := by
  refine ⟨pool.large.filterMap (·.alloc),rfl,[],List.nil_sublist _,?_,?_⟩
  · simp [resetPool]
  · simp only [Pool.owned,resetPool,List.map_map,Option.toList,List.filterMap_nil,List.nil_append]
    exact List.Perm.refl _

/-! ### Runs -/

/-- The books of a pool: exactly its own blocks are out, and every request was answered. -/
structure Ledger.Balanced (s : Ledger) : Prop where
  holds : Holds s.log (s.pool.elim [] Pool.owned)
  answered : ∀ q ∈ s.requests, Answered q.handed q.received q.freed

theorem Ledger.Balanced.fresh {s : Ledger} (h : s.Balanced) (hpool : s.pool = some pool) {b : ℕ}
    (hb : s.log.count (.handed b) = s.log.count (.freed b)) : b ∉ pool.owned := by
  have hcount := h.holds.count b
  rw [hpool] at hcount
  exact List.count_eq_zero.mp (by simpa [hb] using hcount)

theorem Ledger.Balanced.enter {s : Ledger} (h : s.Balanced) (hpool : s.pool = some pool)
    {block chunk : Option ℕ} {gone : List ℕ} (hmoves : pool.Moves pool' block chunk gone)
    (hnodup : (block.toList ++ chunk.toList).Nodup)
    (hfresh : ∀ b ∈ block.toList ++ chunk.toList, s.log.count (.handed b) = s.log.count (.freed b)) :
    Holds (s.enter pool pool' block).log pool'.owned := by
  obtain ⟨new,hnew,hchunks,hperm⟩ := hmoves.chunks
  have hgone : pool.freedBy pool' = gone := by simp [Pool.freedBy,hmoves.freed]
  have hgrown : pool.grownBy pool' = new := by
    rw [Pool.grownBy,List.map_drop,hchunks]
    simp
  have hholds : Holds s.log pool.owned := by simpa [hpool] using h.holds
  have hsub := (List.Sublist.refl block.toList).append hnew
  simp only [Ledger.enter,hgone,hgrown]
  refine hholds.exchange (List.nodup_append.mpr ⟨hsub.nodup hnodup,hholds.nodup,?_⟩) hperm
  rintro b hb c hc rfl
  exact h.fresh hpool (hfresh b (hsub.subset hb)) hc

theorem Ledger.Balanced.request {s : Ledger} (h : s.Balanced) (hpool : s.pool = some pool)
    {block chunk : Option ℕ} {gone : List ℕ} {result : Option ℕ × Pool}
    (hmoves : pool.Moves result.2 block chunk gone) (hanswered : Answered block result.1 gone)
    (hnodup : (block.toList ++ chunk.toList).Nodup)
    (hfresh : ∀ b ∈ block.toList ++ chunk.toList, s.log.count (.handed b) = s.log.count (.freed b)) :
    (s.request pool block result).Balanced where
  holds := h.enter hpool hmoves hnodup hfresh
  answered q hq := by
    have hgone : pool.freedBy result.2 = gone := by simp [Pool.freedBy,hmoves.freed]
    rcases List.mem_append.mp hq with hq | hq
    · exact h.answered q hq
    · rw [List.mem_singleton] at hq
      rw [hq,hgone]
      exact hanswered

/-- The value of `ngx_alloc` happens to be what `malloc` returned. -/
def LargeOp.Returned : LargeOp → Prop
  | .palloc _ malloc left _ => left = malloc
  | _ => True

/-- One operation keeps the books. -/
theorem Ledger.Balanced.step {s s' : Ledger} {op : LargeOp} (h : s.Balanced) (hfresh : s.Fresh op)
    (hreturned : op.Returned) (hstep : s.step align op = some s') : s'.Balanced := by
  obtain ⟨pool,hpool,hstep⟩ := Option.bind_eq_some_iff.mp hstep
  obtain ⟨hnodup,hout⟩ := hfresh
  cases op with
  | palloc size malloc left chunk =>
    dsimp only at hstep
    split at hstep
    · cases hstep
    · rename_i hlarge
      cases hstep
      obtain rfl : left = malloc := hreturned
      obtain ⟨gone,hmoves,hanswered⟩ := pallocLarge_moves align pool left chunk
      rw [show Palloc.palloc align pool size (ngxAlloc left left) chunk = pallocLarge align pool left chunk
        by simp [Palloc.palloc,pallocAs,hlarge,ngxAlloc]]
      exact h.request hpool hmoves hanswered hnodup hout
  | pmemalign size alignment block chunk =>
    cases hstep
    obtain ⟨gone,hmoves,hanswered⟩ := pmemalign_moves align pool block chunk
    exact h.request hpool hmoves hanswered hnodup hout
  | pfree p =>
    cases hstep
    obtain ⟨gone,hmoves⟩ := pfree_moves pool p
    exact ⟨h.enter hpool hmoves (by simp) (by simp),h.answered⟩
  | reset =>
    cases hstep
    obtain ⟨gone,hmoves⟩ := resetPool_moves pool
    exact ⟨h.enter hpool hmoves (by simp) (by simp),h.answered⟩
  | destroy =>
    cases hstep
    refine ⟨?_,h.answered⟩
    have hholds : Holds s.log (pool.owned ++ []) := by simpa [hpool] using h.holds
    simpa [destroyPool,Pool.owned] using hholds.freeAll

/-- What the system allocator handed out for a pool is listed by it once while it is out, and is
freed exactly once, as long as `ngx_alloc` happens to yield what `malloc` returned. -/
theorem large_freed_once {pagesize size : ℕ} {s : Ledger}
    (h : ((largeRuns align pagesize size).restrict fun _ op => op.Returned).Reachable s) :
    Disciplined s.log ∧
    (∀ pool, s.pool = some pool → (pool.large.filterMap (·.alloc) ++ pool.chunks.map (·.addr)).Nodup ∧
      ∀ b, b ∈ pool.large.filterMap (·.alloc) ++ pool.chunks.map (·.addr) ↔
        s.log.count (.handed b) = s.log.count (.freed b) + 1) ∧
    (s.pool = none → ∀ b, s.log.count (.handed b) = s.log.count (.freed b)) ∧
    ∀ q ∈ s.requests, q.received = q.handed ∧ q.freed = [] ∨ q.received = none ∧ q.freed = q.handed.toList := by
  have hbalanced : s.Balanced := by
    refine h.invariant (I := Ledger.Balanced) ?_ ?_
    · rintro s ⟨p,pool,hcreate,rfl⟩
      cases hcreate
      exact ⟨Holds.nil.hand (List.not_mem_nil),by simp⟩
    · rintro s op s' - ih ⟨hreturned,hfresh,hstep⟩
      exact ih.step hfresh hreturned hstep
  have hcount := hbalanced.holds.count
  have hnodup := hbalanced.holds.nodup
  refine ⟨hbalanced.holds.disciplined,fun pool hpool => ?_,fun hpool b => ?_,hbalanced.answered⟩
  · rw [hpool] at hcount hnodup
    refine ⟨hnodup,fun b => ?_⟩
    have hb := hcount b
    constructor
    · intro hmem
      have : pool.owned.count b = 1 := List.count_eq_one_of_mem hnodup hmem
      simp only [Option.elim] at hb
      omega
    · intro hout
      exact List.count_pos_iff.mp (by simp only [Option.elim,Pool.owned] at hb; omega)
  · have hb := hcount b
    simpa [hpool] using hb

/-- A block whose record is used again, and one that lives until the pool is destroyed. -/
theorem large_freed_once_example : ∃ s : Ledger,
    ((largeRuns 8 4096 128).restrict fun _ op => op.Returned).Reachable s ∧ s.pool = none ∧
      s.requests.map (·.received) = [some 5000,some 6000,some 7000] ∧
      s.log.count (.handed 5000) = s.log.count (.freed 5000) := by
  have hinit : ((largeRuns 8 4096 128).restrict fun _ op => op.Returned).Reachable
      ⟨some ⟨[⟨1024,1104,1152,0⟩],48,0,[],[]⟩,[.handed 1024],[]⟩ := .init ⟨1024,_,rfl,rfl⟩
  have h₁ := hinit.step (a := LargeOp.palloc 200 (some 5000) (some 5000) none)
    ⟨rfl,⟨by decide,by decide⟩,rfl⟩
  have h₂ := h₁.step (a := LargeOp.pmemalign 300 64 (some 6000) (some 2048)) ⟨trivial,⟨by decide,by decide⟩,rfl⟩
  have h₃ := h₂.step (a := LargeOp.pfree (some 5000)) ⟨trivial,⟨by decide,by decide⟩,rfl⟩
  have h₄ := h₃.step (a := LargeOp.palloc 400 (some 7000) (some 7000) none) ⟨rfl,⟨by decide,by decide⟩,rfl⟩
  have h₅ := h₄.step (a := LargeOp.destroy) ⟨trivial,⟨by decide,by decide⟩,rfl⟩
  obtain ⟨-,-,hgone,-⟩ := large_freed_once h₅
  exact ⟨_,h₅,rfl,by decide,hgone rfl 5000⟩

/-- `malloc` returns a block and `ngx_palloc_large` finds NULL in place of it: no record lists
the block, and the destruction of the pool does not free it. -/
theorem ngxAlloc_leaks : ¬ ∀ s : Ledger, (largeRuns 8 4096 128).Reachable s →
    (s.pool = none → ∀ b, s.log.count (.handed b) = s.log.count (.freed b)) ∧
    ∀ q ∈ s.requests, q.received = q.handed ∧ q.freed = [] ∨ q.received = none ∧ q.freed = q.handed.toList := by
  intro hall
  have hinit : (largeRuns 8 4096 128).Reachable
      ⟨some ⟨[⟨1024,1104,1152,0⟩],48,0,[],[]⟩,[.handed 1024],[]⟩ := .init ⟨1024,_,rfl,rfl⟩
  have h₁ := hinit.step (a := LargeOp.palloc 200 (some 5000) none none) ⟨⟨by decide,by decide⟩,rfl⟩
  have h₂ := h₁.step (a := LargeOp.destroy) ⟨⟨by decide,by decide⟩,rfl⟩
  exact absurd ((hall _ h₂).1 rfl 5000) (by decide)

end InsideNginx.Palloc
