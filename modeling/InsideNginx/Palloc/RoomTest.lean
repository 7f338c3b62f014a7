import InsideNginx.Palloc.Blocks

/-! The test for room in a chunk, `(size_t) (p->d.end - m) >= size`: where it is evaluated, and for
which sizes of a pool the difference that it computes is the room that is left. -/
namespace InsideNginx.Palloc

/-- The chunks at which the loop of `ngx_palloc_small` evaluates its test. -/
def testedChunks (align : ℕ) (aligned : Bool) (size : ℕ) : List PoolChunk → List PoolChunk
  | [] => []
  | p::ps => p::if size ≤ sizeT (p.dEnd - p.blockAt align aligned) then [] else testedChunks align aligned size ps

/-- The call of `ngx_palloc_small` that `pallocAs` leads to, if any: the alignment and the size. -/
def smallCall (aligned : Bool) (pool : Pool) (size : ℕ) (block : Option ℕ) : Option (Bool × ℕ) :=
  if size ≤ pool.max then some (aligned,size)
  else block.bind fun block => if (reuseLarge block 0 pool.large).isNone then some (true,largeSize) else none

/-- The room in a chunk as the test computes it is the room between the block and the chunk's end. -/
def PoolChunk.RoomTrue (align : ℕ) (aligned : Bool) (p : PoolChunk) : Prop :=
  p.blockAt align aligned ≤ p.dEnd ∧ sizeT (p.dEnd - p.blockAt align aligned) = p.dEnd - p.blockAt align aligned

/-- Every test that the next allocation evaluates is true to the room, and no block so far, nor a record
of a large block, extends beyond its chunk. -/
def State.RoomTrue (align : ℕ) (s : State) : Prop :=
  (∀ aligned size block, ∀ call ∈ smallCall aligned s.pool size block,
    ∀ p ∈ testedChunks align call.1 call.2 (s.pool.chunks.drop s.pool.current), p.RoomTrue align call.1) ∧
  ∀ r ∈ s.blocks ++ s.pool.large.map PoolLarge.region, ∃ (i : ℕ) (p : PoolChunk), s.pool.chunks[i]? = some p ∧
    p.addr + headerSize i ≤ r.addr ∧ r.addr + r.size ≤ p.dEnd

/-- Requests of callers, aligned or not. -/
def Op.Request : Op → Prop
  | .palloc .. | .pnalloc .. => True
  | _ => False

/-- The runs of `ngx_palloc` and `ngx_pnalloc` on the pool that is created at `p`. -/
def mixing (align pagesize p size : ℕ) : TransitionSystem State Op where
  init s := s.blocks = [] ∧ createPool pagesize (some p) size = some s.pool
  step s op s' := op.Request ∧ s.pool.Fresh op.chunk ∧ s' = s.step align op

variable {align pagesize p size : ℕ}

theorem mem_of_testedChunks {aligned : Bool} {ps : List PoolChunk} {q : PoolChunk}
    (h : q ∈ testedChunks align aligned size ps) : q ∈ ps := by
  induction ps with
  | nil => cases h
  | cons r ps ih =>
    rw [testedChunks,List.mem_cons] at h
    rcases h with rfl | h
    · exact List.mem_cons_self
    · split at h
      · cases h
      · exact List.mem_cons_of_mem r (ih h)

/-- The chunks of such a pool end at multiples of the alignment. -/
theorem Pool.Valid.roomTrue {pool : Pool} {blocks : List Region} (h : pool.Valid size blocks)
    (halign : align ∣ poolAlignment) (hsize : align ∣ size) {q : PoolChunk} (hq : q ∈ pool.chunks) (aligned : Bool) :
    q.RoomTrue align aligned := by
  obtain ⟨-,hend⟩ := h.blockAt_mem halign hsize hq aligned
  exact ⟨hend,sizeT_sub hend (h.chunk q hq).2.2⟩

theorem mixing_roomTrue (halign : align ∣ poolAlignment) (hsize : align ∣ size) (hmin : poolHeader ≤ size)
    (hp : poolAlignment ∣ p) (hlt : p + size < 2^64) {s : State} (h : (mixing align pagesize p size).Reachable s) :
    s.RoomTrue align := by
  have hvalid : s.pool.Valid size s.blocks := by
    refine h.invariant (I := fun s => s.pool.Valid size s.blocks) ?_ ?_
    · rintro s ⟨hblocks,hcreate⟩
      rw [hblocks]
      exact createPool_valid hp hlt hmin hcreate
    · rintro s op s' - ih ⟨-,hfresh,rfl⟩
      exact s.step_valid halign hsize ih hmin hfresh
  refine ⟨fun aligned size block call _ q hq => ?_,fun r hr => ?_⟩
  · exact hvalid.roomTrue halign hsize (List.mem_of_mem_drop (mem_of_testedChunks hq)) call.1
  · obtain ⟨i,q,hq,hlo,hlast,hhi⟩ := hvalid.inside hr
    obtain ⟨-,hend,-⟩ := hvalid.chunk q (List.mem_of_getElem? hq)
    exact ⟨i,q,hq,hlo,(hlast.trans hhi).trans_eq hend.symm⟩

/-- Unaligned blocks of one byte fill the first chunk up to its end. -/
theorem mixing_fill (hlt : p + size < 2^64) {max : ℕ} (hmax : 0 < max ∨ size ≤ poolHeader)
    (hinit : (mixing align pagesize p size).Reachable ⟨⟨[⟨p,p + poolHeader,p + size,0⟩],max,0,[],[]⟩,[]⟩) {k : ℕ}
    (hk : poolHeader + k ≤ size) : ∃ blocks, (mixing align pagesize p size).Reachable
      ⟨⟨[⟨p,p + poolHeader + k,p + size,0⟩],max,0,[],[]⟩,blocks⟩ := by
  induction k with
  | zero => exact ⟨[],hinit⟩
  | succ k ih =>
    obtain ⟨blocks,hreach⟩ := ih (by omega)
    have hroom : 1 ≤ sizeT (((p + size : ℕ) : ℤ) - ((p + poolHeader + k : ℕ) : ℤ)) := by
      rw [sizeT_sub (by omega) hlt]
      omega
    have hone : 1 ≤ max := by omega
    have hloop : pallocSmallLoop align false 1 [⟨p,p + poolHeader + k,p + size,0⟩] =
        some (p + poolHeader + k,[⟨p,p + poolHeader + (k+1),p + size,0⟩]) := if_pos hroom
    have halloc : pallocAs false align ⟨[⟨p,p + poolHeader + k,p + size,0⟩],max,0,[],[]⟩ 1 none none =
        (some (p + poolHeader + k),⟨[⟨p,p + poolHeader + (k+1),p + size,0⟩],max,0,[],[]⟩) := by
      rw [pallocAs,if_pos hone,pallocSmall,List.drop_zero,hloop]
      rfl
    refine ⟨⟨p + poolHeader + k,1⟩::blocks,hreach.step (a := Op.pnalloc 1 none none) ⟨trivial,by rintro q ⟨⟩,?_⟩⟩
    simp only [State.step,State.alloc,pnalloc,halloc,if_pos hone]
    rfl

/-- The test never wraps exactly when the size of the pool is a multiple of the alignment. -/
theorem roomTrue_iff_dvd (halign : align ∣ poolAlignment) (hmin : poolHeader ≤ size) (hp : poolAlignment ∣ p)
    (hlt : p + size < 2^64) (hpage : 0 < sizeT (pagesize - 1)) :
    (∀ s, (mixing align pagesize p size).Reachable s → s.RoomTrue align) ↔ align ∣ size := by
  constructor
  · intro h
    have hpos : 0 < align := Nat.pos_of_dvd_of_pos halign (by decide)
    have hroom : sizeT (size - poolHeader) = size - poolHeader := sizeT_sub hmin (by omega)
    have hinit : (mixing align pagesize p size).Reachable ⟨⟨[⟨p,p + poolHeader,p + size,0⟩],
        if size - poolHeader < sizeT (pagesize - 1) then size - poolHeader else sizeT (pagesize - 1),0,[],[]⟩,[]⟩ :=
      .init ⟨rfl,by simp [createPool,hroom]⟩
    obtain ⟨blocks,hreach⟩ := mixing_fill hlt (by split <;> omega) hinit (Nat.add_sub_of_le hmin).le
    -- the chunk is full, and an aligned block would start where its end is rounded to
    obtain ⟨htests,-⟩ := h _ hreach
    obtain ⟨hle,-⟩ := htests true 0 none (true,0) (by simp [smallCall]) ⟨p,p + poolHeader + (size - poolHeader),p + size,0⟩
      (by simp [testedChunks])
    have hlast : p + poolHeader + (size - poolHeader) = p + size := by omega
    simp only [PoolChunk.blockAt,if_true,hlast] at hle
    have hdvd : align ∣ p + size := le_antisymm hle (le_alignPtr hpos) ▸ dvd_alignPtr (p + size) align
    exact (Nat.dvd_add_right (halign.trans hp)).mp hdvd
  · exact fun hsize s hs => mixing_roomTrue halign hsize hmin hp hlt hs

/-- A pool of 128 bytes, and one of 90. -/
theorem roomTrue_iff_dvd_example : (∀ s, (mixing 8 4096 1024 128).Reachable s → s.RoomTrue 8) ∧
    ¬ ∀ s, (mixing 8 4096 1024 90).Reachable s → s.RoomTrue 8 :=
  ⟨(roomTrue_iff_dvd (by decide) (by decide) (by decide) (by decide) (by decide)).mpr (by decide),
    fun h => absurd ((roomTrue_iff_dvd (by decide) (by decide) (by decide) (by decide) (by decide)).mp h) (by decide)⟩

/-- Ten bytes fill a pool of 90 bytes, and the next aligned byte lies six bytes behind its end. -/
theorem block_beyond_end : ∃ s : State, (mixing 8 4096 1024 90).Reachable s ∧
    s.pool.chunks = [⟨1024,1121,1114,0⟩] ∧ s.blocks = [⟨1120,1⟩,⟨1104,10⟩] ∧ ¬ s.RoomTrue 8 := by
  have hinit : (mixing 8 4096 1024 90).Reachable ⟨⟨[⟨1024,1104,1114,0⟩],10,0,[],[]⟩,[]⟩ := .init ⟨rfl,rfl⟩
  have hfull := hinit.step (a := Op.pnalloc 10 none none) ⟨trivial,by rintro p ⟨⟩,rfl⟩
  have hwrapped := hfull.step (a := Op.palloc 1 none none) ⟨trivial,by rintro p ⟨⟩,rfl⟩
  refine ⟨_,hwrapped,rfl,rfl,?_⟩
  rintro ⟨-,hinside⟩
  obtain ⟨i,p,hp,-,hend⟩ := hinside ⟨1120,1⟩ (List.mem_append_left _ List.mem_cons_self)
  cases i with
  | zero =>
    cases hp
    exact absurd hend (by decide)
  | succ i => cases hp

end InsideNginx.Palloc
