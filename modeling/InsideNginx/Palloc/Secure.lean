import InsideNginx.Palloc.Blocks
import InsideNginx.Palloc.Large

/-! Small blocks and large ones together: the small ones lie in the chunks of a pool, and the
large ones are memory of the system allocator apart from the chunks. -/
namespace InsideNginx.Palloc

/-- What the system allocator may return for a request of `size` bytes while the regions in
`live` are out. -/
structure Pool.Supplied (pool : Pool) (live : List Region) (size : ℕ) (block chunk : Option ℕ) : Prop where
  fresh : pool.Fresh chunk
  grown : ∀ p ∈ chunk, ∀ r ∈ live, r.Apart ⟨p,pool.size⟩
  large : ∀ b ∈ block, (∀ p ∈ pool.chunks, Region.Apart ⟨b,size⟩ ⟨p.addr,pool.size⟩) ∧
    (∀ p ∈ chunk, Region.Apart ⟨b,size⟩ ⟨p,pool.size⟩) ∧ ∀ r ∈ live, Region.Apart ⟨b,size⟩ r

theorem Pool.Supplied.mono {pool : Pool} {live live' : List Region} {size : ℕ} {block chunk : Option ℕ}
    (h : pool.Supplied live size block chunk) (hsub : ∀ r ∈ live', r ∈ live) :
    pool.Supplied live' size block chunk where
  fresh := h.fresh
  grown p hp r hr := h.grown p hp r (hsub r hr)
  large b hb := (h.large b hb).imp_right (And.imp_right fun hlive r hr => hlive r (hsub r hr))

/-- A pool with the regions in its chunks and the large blocks that are out. -/
structure Pool.Secure (poolSize : ℕ) (pool : Pool) (small larges : List Region) : Prop where
  valid : pool.Valid poolSize small
  spans : (pool.chunks.map (·.addr)).Pairwise fun a b => Region.Apart ⟨a,poolSize⟩ ⟨b,poolSize⟩
  apart : ∀ r ∈ larges, ∀ p ∈ pool.chunks, r.Apart ⟨p.addr,poolSize⟩
  disjoint : larges.Pairwise Region.Apart

variable {align poolSize : ℕ} {pool : Pool} {small larges : List Region}

/-- A region in a chunk is apart from memory that is apart from the chunks. -/
theorem Pool.Valid.apart_outside (h : pool.Valid poolSize small) {r b : Region}
    (hr : r ∈ small ++ pool.large.map PoolLarge.region) (hb : ∀ p ∈ pool.chunks, b.Apart ⟨p.addr,poolSize⟩) :
    r.Apart b := by
  obtain ⟨i,p,hp,hlo,hlast,hend⟩ := h.inside hr
  have hapart := hb p (List.mem_of_getElem? hp)
  unfold Region.Apart at hapart ⊢
  simp only at hapart
  omega

theorem Pool.Secure.pairwise (h : pool.Secure poolSize small larges) :
    (small ++ larges).Pairwise Region.Apart := by
  refine List.pairwise_append.mpr ⟨?_,h.disjoint,fun r hr b hb => ?_⟩
  · exact (List.pairwise_append.mp h.valid.layout.disjoint).1
  · exact h.valid.apart_outside (List.mem_append_left _ hr) (h.apart b hb)

/-- The regions in the chunks may be listed in another order, and forgotten. -/
theorem Pool.Secure.subperm (h : pool.Secure poolSize small larges) {small' : List Region}
    (hsub : small'.Subperm small) : pool.Secure poolSize small' larges where
  valid := by
    obtain ⟨l,hl,hsub⟩ := hsub
    refine ⟨(h.valid.layout.sublist (hsub.append_right _)).perm (hl.symm.append_right _),h.valid.chunk,
      h.valid.nonempty,h.valid.max⟩
  spans := h.spans
  apart := h.apart
  disjoint := h.disjoint

/-! ### An allocation -/

/-- An allocation adds at most its new chunk, and keeps `max`. -/
theorem pallocAs_chunks (aligned : Bool) (align : ℕ) (pool : Pool) (size : ℕ) (block chunk : Option ℕ) :
    (∃ new, new.Sublist chunk.toList ∧ (pallocAs aligned align pool size block chunk).2.chunks.map (·.addr) =
      pool.chunks.map (·.addr) ++ new) ∧ (pallocAs aligned align pool size block chunk).2.max = pool.max := by
  have hblock : ∀ size, (pallocBlock align pool size chunk).2.max = pool.max := fun size => by
    cases chunk <;> rfl
  have hsmall : ∀ size aligned, (pallocSmall align pool size aligned chunk).2.max = pool.max := by
    intro size aligned
    unfold pallocSmall
    split
    · rfl
    · exact hblock size
  unfold pallocAs
  split
  · exact ⟨(pallocSmall_grows align pool size aligned chunk).chunks,hsmall size aligned⟩
  · obtain ⟨gone,hmoves,-⟩ := pallocLarge_moves align pool block chunk
    obtain ⟨new,hnew,hchunks,-⟩ := hmoves.chunks
    refine ⟨⟨new,hnew,hchunks⟩,?_⟩
    have hmax := hsmall largeSize true
    unfold pallocLarge recordLarge
    cases block with
    | none => rfl
    | some block =>
      dsimp only
      split
      · rfl
      · generalize pallocSmall align pool largeSize true chunk = result at hmax
        obtain ⟨r,pool'⟩ := result
        cases r <;> exact hmax

/-- The block of an allocation, among the small ones or the large ones. -/
def Pool.smallOf (pool : Pool) (size : ℕ) (r : Option ℕ) : List Region :=
  if size ≤ pool.max then blocksOf r size else []

def Pool.largeOf (pool : Pool) (size : ℕ) (r : Option ℕ) : List Region :=
  if size ≤ pool.max then [] else blocksOf r size

/-- Every allocation hands out a region that overlaps none of those that are out. -/
theorem Pool.Secure.alloc (h : pool.Secure poolSize small larges) (halign : align ∣ poolAlignment)
    (hsize : poolAlignment ∣ poolSize) (hmin : poolHeader ≤ poolSize) (aligned : Bool) {size : ℕ}
    {block chunk : Option ℕ} (hsupplied : pool.Supplied larges size block chunk) :
    (pallocAs aligned align pool size block chunk).2.Secure poolSize
      (pool.smallOf size (pallocAs aligned align pool size block chunk).1 ++ small)
      (pool.largeOf size (pallocAs aligned align pool size block chunk).1 ++ larges) := by
  obtain ⟨hfresh,hchunk,hblock⟩ := hsupplied
  rw [h.valid.size_eq] at hchunk hblock
  have hvalid := pallocAs_valid halign (halign.trans hsize) h.valid hmin aligned size block hfresh
  obtain ⟨⟨new,hnew,hchunks⟩,-⟩ := pallocAs_chunks aligned align pool size block chunk
  -- a chunk is an old one or the one that was returned
  have hcases : ∀ p ∈ (pallocAs aligned align pool size block chunk).2.chunks,
      (∃ q ∈ pool.chunks, q.addr = p.addr) ∨ p.addr ∈ chunk := by
    intro p hp
    have hmem : p.addr ∈ pool.chunks.map (·.addr) ++ new := hchunks ▸ List.mem_map_of_mem hp
    rcases List.mem_append.mp hmem with hmem | hmem
    · exact .inl (List.mem_map.mp hmem)
    · exact .inr (Option.mem_toList.mp (hnew.subset hmem))
  have hlarge : ∀ r ∈ larges, ∀ p ∈ (pallocAs aligned align pool size block chunk).2.chunks,
      r.Apart ⟨p.addr,poolSize⟩ := by
    intro r hr p hp
    rcases hcases p hp with ⟨q,hq,heq⟩ | hnew
    · exact heq ▸ h.apart r hr q hq
    · exact hchunk _ hnew r hr
  have hspans : ((pallocAs aligned align pool size block chunk).2.chunks.map (·.addr)).Pairwise
      fun a b => Region.Apart ⟨a,poolSize⟩ ⟨b,poolSize⟩ := by
    rw [hchunks]
    refine List.pairwise_append.mpr ⟨h.spans,?_,fun a ha b hb => ?_⟩
    · exact List.Pairwise.sublist hnew (by cases chunk <;> simp)
    · obtain ⟨q,hq,rfl⟩ := List.mem_map.mp ha
      obtain ⟨-,-,hapart⟩ := hfresh b (Option.mem_toList.mp (hnew.subset hb))
      have hq' := hapart q hq
      rw [(h.valid.chunk q hq).2.1,h.valid.size_eq] at hq'
      unfold Region.Apart
      simp only
      omega
  by_cases hle : size ≤ pool.max
  · rw [Pool.smallOf,Pool.largeOf,if_pos hle,if_pos hle]
    rw [if_pos hle] at hvalid
    exact ⟨hvalid,hspans,hlarge,h.disjoint⟩
  · rw [Pool.smallOf,Pool.largeOf,if_neg hle,if_neg hle]
    rw [if_neg hle] at hvalid
    -- a large block is what the system allocator returned
    have hanswer : ∀ b, (pallocAs aligned align pool size block chunk).1 = some b → b ∈ block := by
      intro b hb
      rw [pallocAs,if_neg hle] at hb
      obtain ⟨gone,-,hanswered⟩ := pallocLarge_moves align pool block chunk
      rcases hanswered with ⟨heq,-⟩ | ⟨hnone,-⟩
      · exact heq.symm.trans hb
      · rw [hnone] at hb
        cases hb
    refine ⟨hvalid,hspans,fun r hr p hp => ?_,List.pairwise_append.mpr ⟨?_,h.disjoint,fun r hr s hs => ?_⟩⟩
    · rcases List.mem_append.mp hr with hr | hr
      · obtain ⟨b,hb,rfl⟩ := List.mem_map.mp hr
        obtain ⟨hold,hnew,-⟩ := hblock b (hanswer b (Option.mem_toList.mp hb))
        rcases hcases p hp with ⟨q,hq,heq⟩ | hmem
        · exact heq ▸ hold q hq
        · exact hnew _ hmem
      · exact hlarge r hr p hp
    · unfold blocksOf
      cases (pallocAs aligned align pool size block chunk).1 <;> simp
    · obtain ⟨b,hb,rfl⟩ := List.mem_map.mp hr
      exact (hblock b (hanswer b (Option.mem_toList.mp hb))).2.2 s hs

end InsideNginx.Palloc
