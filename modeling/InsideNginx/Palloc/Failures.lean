import InsideNginx.Palloc.Blocks

/-! The counters of failures of the chunks and the chunk where small allocations start to search,
over the runs without a reset. -/
namespace InsideNginx.Palloc

/-- The runs on a pool that is not reset; the system allocator may fail at any call. -/
def allocating (align pagesize size : ℕ) : TransitionSystem State Op where
  init s := s.blocks = [] ∧ ∃ p, createPool pagesize p size = some s.pool
  step s op s' := op ≠ .reset ∧ s' = s.step align op

/-- The number of chunks determines the counters and `current`. -/
structure Graded (failed : List ℕ) (current : ℕ) : Prop where
  nonempty : failed ≠ []
  current : current = failed.length - 7
  failed : ∀ i f, failed[i]? = some f → f = min 6 (failed.length - 2 - i)

def Pool.Graded (pool : Pool) : Prop := Palloc.Graded (pool.chunks.map PoolChunk.dFailed) pool.current

/-- Every chunk but the last fails once more. -/
theorem failChunks_failed (i : ℕ) (ps : List PoolChunk) (current k : ℕ) :
    ((failChunks i ps current).1.map PoolChunk.dFailed)[k]? =
      ps[k]?.map fun p => if k + 1 < ps.length then p.dFailed + 1 else p.dFailed := by
  induction ps generalizing i current k with
  | nil => simp [failChunks]
  | cons p ps ih =>
    cases ps with
    | nil => cases k <;> simp [failChunks]
    | cons q ps =>
      simp only [failChunks,List.map_cons]
      cases k with
      | zero => simp
      | succ k =>
        rw [List.getElem?_cons_succ,ih,List.getElem?_cons_succ]
        simp

theorem failChunks_length (i : ℕ) (ps : List PoolChunk) (current : ℕ) :
    (failChunks i ps current).1.length = ps.length := by
  simpa using congrArg List.length (failChunks_span i ps current)

/-- `current` stays while no chunk has failed too often. -/
theorem failChunks_current (i : ℕ) {ps : List PoolChunk} (current : ℕ) (h : ∀ p ∈ ps, p.dFailed ≤ 4) :
    (failChunks i ps current).2 = current := by
  induction ps generalizing i current with
  | nil => simp [failChunks]
  | cons p ps ih =>
    obtain ⟨hp,hps⟩ := List.forall_mem_cons.mp h
    cases ps with
    | nil => simp [failChunks]
    | cons q ps =>
      simp only [failChunks]
      rw [if_neg (by omega)]
      exact ih (i+1) current hps

section
variable {align : ℕ} {pool : Pool}

/-- A new chunk moves `current` when the search had become as long as seven chunks. -/
theorem Pool.Graded.current_next (h : pool.Graded) :
    (failChunks pool.current (pool.chunks.drop pool.current) pool.current).2 = pool.chunks.length + 1 - 7 := by
  have hcurrent : pool.current = pool.chunks.length - 7 := by simpa using h.current
  have hfailed : ∀ k p, (pool.chunks.drop pool.current)[k]? = some p →
      p.dFailed = min 6 (pool.chunks.length - 2 - (pool.current + k)) := by
    intro k p hp
    rw [List.getElem?_drop] at hp
    simpa using h.failed (pool.current + k) p.dFailed (by simp [hp])
  have hlength : (pool.chunks.drop pool.current).length = pool.chunks.length - pool.current := List.length_drop
  have hpos : 0 < pool.chunks.length := by
    have := List.length_pos_of_ne_nil h.nonempty
    simpa using this
  generalize pool.chunks.drop pool.current = ps at hfailed hlength ⊢
  cases ps with
  | nil =>
    simp only [List.length_nil] at hlength
    omega
  | cons p ps =>
    cases ps with
    | nil =>
      simp only [List.length_cons,List.length_nil,failChunks] at hlength ⊢
      omega
    | cons q ps =>
      have hp := hfailed 0 p rfl
      have hrest : ∀ r ∈ q::ps, r.dFailed ≤ 4 := by
        intro r hr
        obtain ⟨k,hk⟩ := List.mem_iff_getElem?.mp hr
        have hr := hfailed (k+1) r hk
        omega
      simp only [failChunks,failChunks_current _ _ hrest]
      simp only [List.length_cons] at hlength
      split <;> omega

/-- The counters of the chunks that a pool had, after the walk. -/
theorem walked_failed (hcurrent : pool.current ≤ pool.chunks.length) (i : ℕ) :
    ((pool.chunks.take pool.current ++
      (failChunks pool.current (pool.chunks.drop pool.current) pool.current).1).map PoolChunk.dFailed)[i]? =
      pool.chunks[i]?.map fun p =>
        if pool.current ≤ i ∧ i + 1 < pool.chunks.length then p.dFailed + 1 else p.dFailed := by
  have htake : ((pool.chunks.take pool.current).map PoolChunk.dFailed).length = pool.current := by
    rw [List.length_map,List.length_take,min_eq_left hcurrent]
  rw [List.map_append,List.getElem?_append,htake]
  split
  · rename_i hi
    rw [List.getElem?_map,List.getElem?_take_of_lt hi]
    simp [not_le.mpr hi]
  · rename_i hi
    have hi := not_lt.mp hi
    rw [failChunks_failed,List.getElem?_drop,Nat.add_sub_cancel' hi,List.length_drop]
    have hiff : i - pool.current + 1 < pool.chunks.length - pool.current ↔ i + 1 < pool.chunks.length := by omega
    simp only [hi,hiff,true_and]

theorem Pool.Graded.block (h : pool.Graded) (size : ℕ) (chunk : Option ℕ) :
    (pallocBlock align pool size chunk).2.Graded := by
  cases chunk with
  | none => exact h
  | some p =>
    have hcurrent : pool.current = pool.chunks.length - 7 := by simpa using h.current
    have hlength : (pool.chunks.take pool.current ++
        (failChunks pool.current (pool.chunks.drop pool.current) pool.current).1).length = pool.chunks.length := by
      rw [List.length_append,failChunks_length,← List.length_append,List.take_append_drop]
    have hwalked := @walked_failed pool (by omega)
    have hnext := h.current_next
    simp only [pallocBlock]
    generalize pool.chunks.take pool.current ++
      (failChunks pool.current (pool.chunks.drop pool.current) pool.current).1 = chunks at hlength hwalked ⊢
    refine ⟨by simp,?_,fun i f hf => ?_⟩
    · simpa [hlength] using hnext
    · rw [List.map_append,List.getElem?_append] at hf
      rw [List.length_map,List.length_append,List.length_singleton,hlength]
      rw [List.length_map,hlength] at hf
      split at hf
      · rw [hwalked,Option.map_eq_some_iff] at hf
        obtain ⟨q,hq,rfl⟩ := hf
        have hfailed := h.failed i q.dFailed (by simp [hq])
        rw [List.length_map] at hfailed
        split <;> omega
      · rw [List.map_singleton,List.getElem?_singleton] at hf
        split at hf
        · obtain rfl : 0 = f := Option.some.inj hf
          omega
        · cases hf

/-- Taking a block from a chunk changes no counter. -/
theorem pallocSmallLoop_failed {aligned : Bool} {size m : ℕ} {ps ps' : List PoolChunk}
    (h : pallocSmallLoop align aligned size ps = some (m,ps')) :
    ps'.map PoolChunk.dFailed = ps.map PoolChunk.dFailed := by
  obtain ⟨i,p,hp,-,-,rfl⟩ := pallocSmallLoop_some h
  rw [List.map_set]
  refine List.ext_getElem? fun j => ?_
  rw [List.getElem?_set]
  split
  · subst j
    obtain ⟨hi,hget⟩ := List.getElem?_eq_some_iff.mp hp
    simp [hi,hget]
  · rfl

theorem Pool.Graded.small (h : pool.Graded) (size : ℕ) (aligned : Bool) (chunk : Option ℕ) :
    (pallocSmall align pool size aligned chunk).2.Graded := by
  unfold pallocSmall
  split
  · rename_i m ps hloop
    have hchunks : (pool.chunks.take pool.current ++ ps).map PoolChunk.dFailed = pool.chunks.map PoolChunk.dFailed := by
      rw [List.map_append,pallocSmallLoop_failed hloop,← List.map_append,List.take_append_drop]
    rw [Pool.Graded,hchunks]
    exact h
  · exact h.block size chunk

theorem Pool.Graded.record (h : pool.Graded) (block : ℕ) (chunk : Option ℕ) :
    (recordLarge align pool block chunk).2.Graded := by
  have hsmall : (pallocSmall align pool largeSize true chunk).2.Graded := h.small largeSize true chunk
  unfold recordLarge
  generalize pallocSmall align pool largeSize true chunk = result at hsmall ⊢
  obtain ⟨l,pool'⟩ := result
  cases l <;> exact hsmall

theorem Pool.Graded.alloc (h : pool.Graded) (aligned : Bool) (size : ℕ) (block chunk : Option ℕ) :
    (pallocAs aligned align pool size block chunk).2.Graded := by
  unfold pallocAs pallocLarge
  split
  · exact h.small size aligned chunk
  · cases block with
    | none => exact h
    | some block =>
      dsimp only
      cases reuseLarge block 0 pool.large with
      | some large => exact h
      | none => exact h.record block chunk

end

/-- One operation keeps the counters graded. -/
theorem State.step_graded {align : ℕ} {s : State} (h : s.pool.Graded) {op : Op} (hop : op ≠ .reset) :
    (s.step align op).pool.Graded := by
  cases op with
  | palloc size block chunk => exact h.alloc true size block chunk
  | pnalloc size block chunk => exact h.alloc false size block chunk
  | pcalloc size block chunk => exact h.alloc true size block chunk
  | pmemalign size alignment block chunk =>
    cases block with
    | none => exact h
    | some block => exact h.record block chunk
  | pfree p =>
    simp only [State.step,Palloc.pfree]
    cases freeLarge p s.pool.large <;> exact h
  | reset => exact absurd rfl hop

/-- Small allocations search at most the last seven chunks, the later ones with fewer failures, and the
chunks before have failed six times or more. -/
theorem search_bounded {align pagesize size : ℕ} {s : State} (h : (allocating align pagesize size).Reachable s) :
    s.pool.current < s.pool.chunks.length ∧
    (s.pool.chunks.drop s.pool.current).Pairwise (fun p q => q.dFailed ≤ p.dFailed) ∧
    (∀ p ∈ s.pool.chunks.take s.pool.current, 6 ≤ p.dFailed) ∧
    (s.pool.chunks.drop s.pool.current).length ≤ 7 := by
  have hgraded : s.pool.Graded := by
    refine h.invariant (I := fun s => s.pool.Graded) ?_ ?_
    · rintro s ⟨-,p,hcreate⟩
      obtain ⟨p,-,hpool⟩ := Option.map_eq_some_iff.mp hcreate
      rw [← hpool]
      refine ⟨by simp,rfl,fun i f hf => ?_⟩
      cases i with
      | zero => cases hf; rfl
      | succ i => cases hf
    · rintro s op s' - ih ⟨hop,rfl⟩
      exact State.step_graded ih hop
  have hcurrent : s.pool.current = s.pool.chunks.length - 7 := by simpa using hgraded.current
  have hpos : 0 < s.pool.chunks.length := by simpa using List.length_pos_of_ne_nil hgraded.nonempty
  have hfailed : ∀ i p, s.pool.chunks[i]? = some p → p.dFailed = min 6 (s.pool.chunks.length - 2 - i) := by
    intro i p hp
    simpa using hgraded.failed i p.dFailed (by simp [hp])
  refine ⟨by omega,?_,fun p hp => ?_,by rw [List.length_drop]; omega⟩
  · refine List.pairwise_iff_getElem.mpr fun i j hi hj hij => ?_
    have hp := hfailed _ _ (List.getElem?_drop ▸ List.getElem?_eq_getElem hi)
    have hq := hfailed _ _ (List.getElem?_drop ▸ List.getElem?_eq_getElem hj)
    omega
  · obtain ⟨i,hi⟩ := List.mem_iff_getElem?.mp hp
    have hlt : i < s.pool.current := by
      have := (List.getElem?_eq_some_iff.mp hi).1
      rw [List.length_take] at this
      omega
    rw [List.getElem?_take_of_lt hlt] at hi
    have := hfailed i p hi
    omega

/-- The eighth chunk takes the first one out of the search. -/
theorem search_bounded_example : ∃ s : State, (allocating 8 4096 128).Reachable s ∧
    s.pool.current = 1 ∧ s.pool.chunks.map PoolChunk.dFailed = [6,5,4,3,2,1,0,0] ∧
    (s.pool.chunks.drop s.pool.current).length ≤ 7 := by
  have hinit : (allocating 8 4096 128).Reachable ⟨⟨[⟨1024,1104,1152,0⟩],48,0,[],[]⟩,[]⟩ :=
    .init ⟨rfl,some 1024,rfl⟩
  obtain ⟨s,hs⟩ : ∃ s, TransitionSystem.replay (fun s op => some (State.step 8 s op))
      ⟨⟨[⟨1024,1104,1152,0⟩],48,0,[],[]⟩,[]⟩
      ((List.range 14).map fun i => Op.palloc 48 none (some (2048 + 128*i))) = some s := ⟨_,rfl⟩
  have hreach : (allocating 8 4096 128).Reachable s := by
    refine hinit.of_replay_of_step (fun op hop s s' hstep => ⟨?_,(Option.some.inj hstep).symm⟩) hs
    obtain ⟨i,-,rfl⟩ := List.mem_map.mp hop
    exact Op.noConfusion
  obtain ⟨-,-,-,hbound⟩ := search_bounded hreach
  refine ⟨s,hreach,?_,?_,hbound⟩
  · cases hs
    decide
  · cases hs
    decide

end InsideNginx.Palloc
