import InsideNginx.Palloc.Secure

/-! The memory of a pool and around it as its users share it: a list of regions, of which each
belongs to one of them. At the end of the first chunk they may be given back and extended. -/
namespace InsideNginx.Palloc

/-- The chunk that the pool itself is. -/
def Pool.first (pool : Pool) : PoolChunk := pool.chunks.headD ⟨0,0,0,0⟩

/-- Write `pool->d.last`. -/
def Pool.setLast (pool : Pool) (last : ℕ) : Pool :=
  { pool with chunks := pool.chunks.set 0 { pool.first with dLast := last } }

/-- The regions are memory of the pool or of the system allocator, and nobody else's. -/
def Pool.Owns (poolSize : ℕ) (pool : Pool) (live : List Region) : Prop :=
  ∃ small larges, live.Perm (small ++ larges) ∧ pool.Secure poolSize small larges

variable {align poolSize : ℕ} {pool : Pool} {live : List Region}

theorem Pool.first_setLast (h : pool.chunks ≠ []) (last : ℕ) :
    (pool.setLast last).first = { pool.first with dLast := last } := by
  obtain ⟨p,ps,hchunks⟩ := List.exists_cons_of_ne_nil h
  simp [Pool.first,Pool.setLast,hchunks]

@[simp] theorem Pool.tail_setLast (pool : Pool) (last : ℕ) : (pool.setLast last).chunks.tail = pool.chunks.tail := by
  unfold Pool.setLast
  cases pool.chunks <;> rfl

theorem Pool.nonempty_setLast (h : pool.chunks ≠ []) (last : ℕ) : (pool.setLast last).chunks ≠ [] := by
  simpa [Pool.setLast] using h

theorem Pool.Owns.nonempty (h : pool.Owns poolSize live) : pool.chunks ≠ [] := by
  obtain ⟨small,larges,-,hsecure⟩ := h
  exact hsecure.valid.nonempty

theorem Pool.Owns.pairwise (h : pool.Owns poolSize live) :
    (live ++ pool.large.map PoolLarge.region).Pairwise Region.Apart := by
  obtain ⟨small,larges,hperm,hsecure⟩ := h
  have hsymm : ∀ {r s : Region}, r.Apart s → s.Apart r := fun h => h.symm
  refine ((hperm.append_right _).pairwise_iff hsymm).mpr (List.pairwise_append.mpr ⟨hsecure.pairwise,?_,?_⟩)
  · exact (List.pairwise_append.mp hsecure.valid.layout.disjoint).2.1
  · intro r hr l hl
    rcases List.mem_append.mp hr with hr | hr
    · exact (List.pairwise_append.mp hsecure.valid.layout.disjoint).2.2 r hr l hl
    · exact (hsecure.valid.apart_outside (List.mem_append_right _ hl) (hsecure.apart r hr)).symm

/-- Regions may be forgotten. -/
theorem Pool.Owns.subperm (h : pool.Owns poolSize live) {live' : List Region} (hsub : live'.Subperm live) :
    pool.Owns poolSize live' := by
  obtain ⟨small,larges,hperm,hsecure⟩ := h
  obtain ⟨l,hl,hsub⟩ := hsub.trans hperm.subperm
  obtain ⟨l₁,l₂,rfl,hsmall,hlarge⟩ := List.sublist_append_iff.mp hsub
  have hkeep := hsecure.subperm hsmall.subperm
  exact ⟨l₁,l₂,hl.symm,hkeep.valid,hkeep.spans,fun r hr => hsecure.apart r (hlarge.subset hr),
    hsecure.disjoint.sublist hlarge⟩

theorem Pool.Owns.perm (h : pool.Owns poolSize live) {live' : List Region} (hperm : live'.Perm live) :
    pool.Owns poolSize live' := h.subperm hperm.subperm

theorem Pool.Owns.size_eq (h : pool.Owns poolSize live) : pool.size = poolSize := by
  obtain ⟨small,larges,-,hsecure⟩ := h
  exact hsecure.valid.size_eq

/-- Every allocation adds its block. -/
theorem Pool.Owns.alloc (h : pool.Owns poolSize live) (halign : align ∣ poolAlignment)
    (hsize : poolAlignment ∣ poolSize) (hmin : poolHeader ≤ poolSize) (aligned : Bool) {size : ℕ}
    {block chunk : Option ℕ} (hsupplied : pool.Supplied live size block chunk) :
    (pallocAs aligned align pool size block chunk).2.Owns poolSize
      (blocksOf (pallocAs aligned align pool size block chunk).1 size ++ live) := by
  obtain ⟨small,larges,hperm,hsecure⟩ := h
  have hlarges : ∀ r ∈ larges, r ∈ live := fun r hr => hperm.symm.subset (List.mem_append_right _ hr)
  have hsupplied : pool.Supplied larges size block chunk :=
    ⟨hsupplied.fresh,fun p hp r hr => hsupplied.grown p hp r (hlarges r hr),fun b hb => by
      obtain ⟨hold,hnew,hlive⟩ := hsupplied.large b hb
      exact ⟨hold,hnew,fun r hr => hlive r (hlarges r hr)⟩⟩
  have halloc := hsecure.alloc halign hsize hmin aligned hsupplied
  refine ⟨_,_,?_,halloc⟩
  unfold Pool.smallOf Pool.largeOf
  split
  · rw [List.nil_append,List.append_assoc]
    exact hperm.append_left _
  · rw [List.nil_append]
    refine (hperm.append_left _).trans ?_
    rw [← List.append_assoc,← List.append_assoc]
    exact List.perm_append_comm.append_right _

/-- Memory from elsewhere joins. -/
theorem Pool.Owns.outside (h : pool.Owns poolSize live) {r : Region}
    (hchunks : ∀ p ∈ pool.chunks, r.Apart ⟨p.addr,poolSize⟩) (hlive : ∀ s ∈ live, r.Apart s) :
    pool.Owns poolSize (r::live) := by
  obtain ⟨small,larges,hperm,hsecure⟩ := h
  refine ⟨small,r::larges,(hperm.cons r).trans List.perm_middle.symm,hsecure.valid,hsecure.spans,fun s hs => ?_,
    List.pairwise_cons.mpr ⟨fun s hs => ?_,hsecure.disjoint⟩⟩
  · rcases List.mem_cons.mp hs with rfl | hs
    · exact hchunks
    · exact hsecure.apart s hs
  · exact hlive s (hperm.symm.subset (List.mem_append_right _ hs))

/-- A region is seen as two. -/
theorem Pool.Owns.divide {m n k : ℕ} (h : pool.Owns poolSize (⟨m,n + k⟩::live)) :
    pool.Owns poolSize (⟨m,n⟩::⟨m + n,k⟩::live) := by
  obtain ⟨small,larges,hperm,hsecure⟩ := h
  have hmem : (⟨m,n + k⟩ : Region) ∈ small ++ larges := hperm.subset List.mem_cons_self
  rcases List.mem_append.mp hmem with hmem | hmem
  · have herase := List.perm_cons_erase hmem
    have hvalid := (hsecure.subperm herase.symm.subperm).valid
    have hrest : live.Perm (small.erase ⟨m,n + k⟩ ++ larges) :=
      List.Perm.cons_inv (hperm.trans (herase.append_right larges))
    exact ⟨⟨m,n⟩::⟨m + n,k⟩::small.erase ⟨m,n + k⟩,larges,(hrest.cons _).cons _,
      ⟨Arena.Layout.divide hvalid.layout,hvalid.chunk,hvalid.nonempty,hvalid.max⟩,hsecure.spans,hsecure.apart,
      hsecure.disjoint⟩
  · have herase := List.perm_cons_erase hmem
    have hrest : live.Perm (small ++ larges.erase ⟨m,n + k⟩) :=
      List.Perm.cons_inv ((hperm.trans (herase.append_left small)).trans List.perm_middle)
    have hpairs := (herase.pairwise_iff fun h => Region.Apart.symm h).mp hsecure.disjoint
    obtain ⟨hone,hpairs⟩ := List.pairwise_cons.mp hpairs
    -- parts of a region that is apart from another one
    have hparts : ∀ s : Region, (⟨m,n + k⟩ : Region).Apart s → (⟨m,n⟩ : Region).Apart s ∧ (⟨m + n,k⟩ : Region).Apart s := by
      intro s hs
      unfold Region.Apart at hs ⊢
      simp only at hs ⊢
      omega
    refine ⟨small,⟨m,n⟩::⟨m + n,k⟩::larges.erase ⟨m,n + k⟩,?_,hsecure.valid,hsecure.spans,fun s hs p hp => ?_,?_⟩
    · refine ((hrest.cons _).cons _).trans ?_
      exact (List.Perm.cons _ List.perm_middle.symm).trans List.perm_middle.symm
    · have hwhole := hparts _ (hsecure.apart _ hmem p hp)
      rcases List.mem_cons.mp hs with rfl | hs
      · exact hwhole.1
      rcases List.mem_cons.mp hs with rfl | hs
      · exact hwhole.2
      · exact hsecure.apart s (List.mem_of_mem_erase hs) p hp
    · refine List.pairwise_cons.mpr ⟨fun s hs => ?_,List.pairwise_cons.mpr ⟨fun s hs => (hparts s (hone s hs)).2,hpairs⟩⟩
      rcases List.mem_cons.mp hs with rfl | hs
      · exact .inr (.inr (.inl le_rfl))
      · exact (hparts s (hone s hs)).1

/-! ### The end of the first chunk -/

/-- The last region before `pool->d.last` lies in the first chunk. -/
theorem Pool.Owns.at_last {r : Region} (h : pool.Owns poolSize (r::live)) (hpos : 0 < r.size)
    (hend : r.addr + r.size = pool.first.dLast) :
    ∃ small larges, live.Perm (small ++ larges) ∧ pool.Secure poolSize (r::small) larges ∧
      pool.arenas[0]? = some (pool.first.arena 0) ∧ (pool.first.arena 0).Holds r := by
  obtain ⟨small,larges,hperm,hsecure⟩ := h
  have hvalid := hsecure.valid
  obtain ⟨p,ps,hchunks⟩ := List.exists_cons_of_ne_nil hvalid.nonempty
  have hfirst : pool.first = p := by simp [Pool.first,hchunks]
  have harena : pool.arenas[0]? = some (pool.first.arena 0) := by simp [Pool.arenas,hchunks,hfirst]
  obtain ⟨hlo,hhi⟩ := hvalid.layout.ordered _ (List.mem_of_getElem? harena)
  obtain ⟨-,hdEnd,-⟩ := hvalid.chunk p (by simp [hchunks])
  rw [← hfirst] at hdEnd
  simp only [PoolChunk.arena,headerSize,if_true,poolHeader] at hlo hhi
  have hmem : r ∈ small ++ larges := hperm.subset List.mem_cons_self
  rcases List.mem_append.mp hmem with hmem | hmem
  · have herase := List.perm_cons_erase hmem
    refine ⟨small.erase r,larges,List.Perm.cons_inv (hperm.trans (herase.append_right larges)),
      hsecure.subperm herase.symm.subperm,harena,?_⟩
    obtain ⟨a,ha,hlo',hlast'⟩ := hvalid.layout.inside r (List.mem_append_left _ hmem)
    obtain ⟨i,hi,rfl⟩ := List.mem_mapIdx.mp ha
    obtain ⟨-,hhi'⟩ := hvalid.layout.ordered _ ha
    obtain ⟨-,hdEnd',-⟩ := hvalid.chunk pool.chunks[i] (List.getElem_mem hi)
    cases i with
    | zero =>
      have hzero : pool.chunks[0] = pool.first := by simp [hchunks,hfirst]
      rw [hzero] at hlo' hlast'
      exact ⟨hlo',hlast'⟩
    | succ i =>
      -- its last byte would be in two chunks
      exfalso
      have hlt : 0 < pool.chunks.length := by simp [hchunks]
      have hapart := (List.pairwise_iff_getElem.mp hsecure.spans) 0 (i+1) (by simpa using hlt) (by simpa using hi)
        (Nat.succ_pos i)
      simp only [List.getElem_map] at hapart
      have hzero : pool.chunks[0] = pool.first := by simp [hchunks,hfirst]
      rw [hzero] at hapart
      simp only [PoolChunk.arena] at hlo' hlast' hhi'
      unfold Region.Apart at hapart
      simp only at hapart
      omega
  · exfalso
    have hapart := hsecure.apart r hmem p (by simp [hchunks])
    rw [← hfirst] at hapart
    unfold Region.Apart at hapart
    simp only at hapart
    omega

/-- The records of large blocks are no empty regions either. -/
theorem solid_records {r : Region} {small larges : List Region} (hperm : live.Perm (small ++ larges))
    (hsolid : ∀ s ∈ r::live, 0 < s.size) : ∀ s ∈ r::(small ++ pool.large.map PoolLarge.region), 0 < s.size := by
  intro s hs
  rcases List.mem_cons.mp hs with rfl | hs
  · exact hsolid s List.mem_cons_self
  rcases List.mem_append.mp hs with hs | hs
  · exact hsolid s (List.mem_cons_of_mem _ (hperm.symm.subset (List.mem_append_left _ hs)))
  · obtain ⟨l,-,rfl⟩ := List.mem_map.mp hs
    exact Nat.succ_pos 15

/-- The pool with another `d.last` in its first chunk. -/
theorem Pool.Secure.setLast {small larges small' : List Region} (h : pool.Secure poolSize small larges) {last : ℕ}
    (hlayout : Arena.Layout (pool.arenas.set 0 { pool.first.arena 0 with last := last })
      (small' ++ pool.large.map PoolLarge.region)) : (pool.setLast last).Secure poolSize small' larges := by
  obtain ⟨p,ps,hchunks⟩ := List.exists_cons_of_ne_nil h.valid.nonempty
  have hfirst : pool.first = p := by simp [Pool.first,hchunks]
  have hset : (pool.setLast last).chunks = { p with dLast := last }::ps := by
    simp [Pool.setLast,hchunks,hfirst]
  have hchunk := h.valid.chunk
  have hspans := h.spans
  have hapart := h.apart
  rw [hchunks] at hchunk hspans
  simp only [hchunks,List.mem_cons,forall_eq_or_imp] at hapart
  refine ⟨⟨?_,?_,by simp [hset],h.valid.max⟩,?_,fun r hr q hq => ?_,h.disjoint⟩
  · have harenas : (pool.setLast last).arenas = pool.arenas.set 0 { pool.first.arena 0 with last := last } := by
      simp [Pool.arenas,hset,hchunks,hfirst,PoolChunk.arena]
    rw [harenas]
    exact hlayout
  · rw [hset]
    intro q hq
    rcases List.mem_cons.mp hq with rfl | hq
    · exact hchunk p List.mem_cons_self
    · exact hchunk q (List.mem_cons_of_mem _ hq)
  · rw [hset]
    exact hspans
  · rw [hset] at hq
    rcases List.mem_cons.mp hq with rfl | hq
    · exact (hapart r hr).1
    · exact (hapart r hr).2 q hq

/-- The last region of the first chunk is given back. -/
theorem Pool.Owns.giveBack {r : Region} (h : pool.Owns poolSize (r::live)) (hsolid : ∀ s ∈ r::live, 0 < s.size)
    (hend : r.addr + r.size = pool.first.dLast) : (pool.setLast r.addr).Owns poolSize live := by
  obtain ⟨small,larges,hperm,hsecure,harena,hholds⟩ := h.at_last (hsolid r List.mem_cons_self) hend
  exact ⟨small,larges,hperm,hsecure.setLast (Arena.Layout.giveBack hsecure.valid.layout harena hholds hend
    (solid_records hperm hsolid))⟩

/-- The last region of the first chunk takes the bytes after it. -/
theorem Pool.Owns.extend {r : Region} (h : pool.Owns poolSize (r::live)) (hsolid : ∀ s ∈ r::live, 0 < s.size)
    (hend : r.addr + r.size = pool.first.dLast) {n : ℕ} (hroom : pool.first.dLast + n ≤ pool.first.dEnd) :
    (pool.setLast (pool.first.dLast + n)).Owns poolSize (⟨r.addr,r.size + n⟩::live) := by
  obtain ⟨small,larges,hperm,hsecure,harena,hholds⟩ := h.at_last (hsolid r List.mem_cons_self) hend
  have hback := Arena.Layout.giveBack hsecure.valid.layout harena hholds hend (solid_records hperm hsolid)
  have hlt : 0 < pool.arenas.length := (List.getElem?_eq_some_iff.mp harena).1
  have hget : (pool.arenas.set 0 { pool.first.arena 0 with last := r.addr })[0]? =
      some { pool.first.arena 0 with last := r.addr } := by simp [hlt]
  have hhi : r.addr + (r.size + n) ≤ (pool.first.arena 0).hi := by
    simp only [PoolChunk.arena]
    omega
  have htake := hback.take hget (le_refl r.addr) hhi
  rw [List.set_set,← Nat.add_assoc,hend] at htake
  exact ⟨⟨r.addr,r.size + n⟩::small,larges,hperm.cons _,hsecure.setLast htake⟩

end InsideNginx.Palloc
