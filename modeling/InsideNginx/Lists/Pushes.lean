import InsideNginx.Lists.Parts

/-! A list in a pool that has other users: every sequence of pushes, of which any may fail. -/
namespace InsideNginx.Lists
open Palloc PartChain

/-- A pool with a list in it, the slots that pushes have returned, and the blocks of others. -/
structure Listing where
  pool : Pool
  list : Option NgxList
  returned : List ℕ
  others : List Region

/-- A call, or another user of the pool: it takes a block, or sees a block of its as two. A list may also be
initialised in a block that is there. -/
inductive ListOp
  | palloc (aligned : Bool) (size : ℕ) (g : Grant)
  | divide (r : Region) (n : ℕ)
  | init (r : Region) (parts : ℕ → ListPart) (n size : ℕ) (g : Grant)
  | create (parts : ℕ → ListPart) (n size : ℕ) (first second : Grant)
  | push (first second : Grant)

namespace Listing

def step (align : ℕ) (s : Listing) : ListOp → Option Listing
  | .palloc aligned size g =>
    let result := pallocAs aligned align s.pool size g.block g.chunk
    some { s with pool := result.2, others := blocksOf result.1 size ++ s.others }
  | .divide r n =>
    if r ∈ s.others ∧ n ≤ r.size then
      some { s with others := ⟨r.addr,n⟩::⟨r.addr + n,r.size - n⟩::s.others.erase r }
    else none
  | .init r parts n size g =>
    if (s.list = none ∧ r ∈ s.others ∧ r.size = listSize) ∧ 1 ≤ n ∧ 1 ≤ size ∧ n*size < 2^64 then
      match listInit align s.pool parts r.addr n size g with
      | (none,pool) => some { s with pool := pool }
      | (some l,pool) => some ⟨pool,some l,[],s.others.erase r⟩
    else none
  | .create parts n size first second =>
    if s.list = none ∧ 1 ≤ n ∧ 1 ≤ size ∧ n*size < 2^64 then
      let result := listCreate align s.pool parts n size first second
      some ⟨result.2,result.1,[],s.others⟩
    else none
  | .push first second => s.list.map fun l =>
    let result := listPush align s.pool l first second
    ⟨result.2.1,some result.2.2,s.returned ++ result.1.toList,s.others⟩

/-- The parts of the list, as its links tell. -/
def Leads (s : Listing) (live : List Region) : Prop := match s.list with
  | none => live = s.others
  | some l => ∃ chain, TailQueue.Path l.links (some l.part) chain ∧ live = l.blocks chain ++ s.others

/-- The system allocator hands out no memory that is out. -/
def Fresh (align : ℕ) (s : Listing) : ListOp → Prop
  | .palloc _ size g => ∀ live, s.Leads live → s.pool.Supplied live size g.block g.chunk
  | .init _ _ n size g => s.pool.Supplied s.others (n*size) g.block g.chunk
  | .create _ n size first second => s.pool.Supplied s.others listSize first.block first.chunk ∧
    let result := Palloc.palloc align s.pool listSize first.block first.chunk
    result.2.Supplied (blocksOf result.1 listSize ++ s.others) (n*size) second.block second.chunk
  | .push first second => ∀ live, s.Leads live → s.pool.Supplied live partSize first.block first.chunk ∧
    let result := Palloc.palloc align s.pool partSize first.block first.chunk
    ∀ l ∈ s.list, result.2.Supplied (blocksOf result.1 partSize ++ live) (l.capacity*l.elementSize)
      second.block second.chunk
  | .divide _ _ => True

end Listing

/-- The runs on a pool from its creation on. -/
def listing (align pagesize size : ℕ) : TransitionSystem Listing ListOp where
  init s := s.list = none ∧ s.returned = [] ∧ s.others = [] ∧ ∃ p, poolAlignment ∣ p ∧ p + size < 2^64 ∧
    createPool pagesize (some p) size = some s.pool
  step s op s' := s.Fresh align op ∧ s.step align op = some s'

/-! ### One call -/

/-- A list whose blocks nobody else uses. -/
structure NgxList.Owned (poolSize : ℕ) (pool : Pool) (l : NgxList) (chain : List ℕ) (others : List Region) : Prop where
  chained : l.Chained chain
  elementSize : 1 ≤ l.elementSize
  owns : pool.Owns poolSize (l.blocks chain ++ others)

namespace NgxList
variable {l l' : NgxList} {chain : List ℕ} {align poolSize : ℕ} {pool pool' : Pool} {others : List Region}

theorem Owned.same (h : l.Owned poolSize pool chain others) (hsame : Same chain l l')
    (howns : pool'.Owns poolSize (l.blocks chain ++ others)) : l'.Owned poolSize pool' chain others :=
  ⟨hsame.chained h.chained,hsame.elementSize ▸ h.elementSize,hsame.blocks ▸ howns⟩

/-- The addresses of slots, by the part. -/
theorem mem_slots {a : ℕ} : a ∈ l.slots chain ↔ ∃ p ∈ chain, ∃ i < l.count p, l.entry p i = a := by
  simp [slots,entries,mem_partFrom]

theorem Chained.entry_inside (h : l.Chained chain) {p i : ℕ} (hp : p ∈ chain) (hi : i < l.count p) :
    (l.buffer p).addr ≤ l.entry p i ∧ l.entry p i + l.elementSize ≤ (l.buffer p).addr + (l.buffer p).size := by
  have hfits : l.elementSize*(i + 1) ≤ l.elementSize*l.capacity :=
    Nat.mul_le_mul_left _ (hi.trans_le (h.packed.bounded p hp))
  rw [Nat.mul_succ,Nat.mul_comm _ l.capacity] at hfits
  refine ⟨Nat.le_add_right _ _,?_⟩
  simp only [buffer,entry]
  omega

/-- A slot lies among the elements of a part. -/
theorem Chained.inside (h : l.Chained chain) {a : ℕ} (ha : a ∈ l.slots chain) :
    ∃ p ∈ chain, (l.buffer p).addr ≤ a ∧ a + l.elementSize ≤ (l.buffer p).addr + (l.buffer p).size := by
  obtain ⟨p,hp,i,hi,rfl⟩ := mem_slots.mp ha
  exact ⟨p,hp,h.entry_inside hp hi⟩

/-- The buffers of the parts, the records, and what others have do not overlap. -/
theorem Owned.pairwise (h : l.Owned poolSize pool chain others) : (chain.map l.buffer).Pairwise Region.Apart ∧
    ∀ r ∈ chain.map l.buffer, ∀ t ∈ l.records chain ++ others, r.Apart t := by
  obtain ⟨hblocks,-,hothers⟩ := List.pairwise_append.mp (List.pairwise_append.mp h.owns.pairwise).1
  obtain ⟨-,hbuffers,hrecords⟩ := List.pairwise_append.mp hblocks
  refine ⟨hbuffers,fun r hr t ht => ?_⟩
  rcases List.mem_append.mp ht with ht | ht
  · exact (hrecords t ht r hr).symm
  · exact hothers r (List.mem_append_right _ hr) t ht

/-- No two slots overlap. -/
theorem Owned.slots_apart (h : l.Owned poolSize pool chain others) :
    (l.slots chain).Pairwise fun a b => Region.Apart ⟨a,l.elementSize⟩ ⟨b,l.elementSize⟩ := by
  refine List.pairwise_flatMap.mpr ⟨fun p _ => ?_,?_⟩
  · refine List.pairwise_map.mpr (List.Pairwise.imp (fun {i j} hij => ?_) List.pairwise_lt_range')
    have hle : l.elementSize*(i + 1) ≤ l.elementSize*j := Nat.mul_le_mul_left _ hij
    rw [Nat.mul_succ] at hle
    refine .inr (.inr (.inl ?_))
    simp only [entry]
    omega
  · refine (List.pairwise_map.mp h.pairwise.1).imp_of_mem fun {p q} hp hq happart a ha b hb => ?_
    have hinside : ∀ {p a}, p ∈ chain → a ∈ partFrom l.count l.entry p 0 →
        (l.buffer p).addr ≤ a ∧ a + l.elementSize ≤ (l.buffer p).addr + (l.buffer p).size := by
      intro p a hp ha
      obtain ⟨i,hi,rfl⟩ := mem_partFrom.mp ha
      exact h.chained.entry_inside hp hi
    obtain ⟨hlo,hhi⟩ := hinside hp ha
    obtain ⟨hlo',hhi'⟩ := hinside hq hb
    exact (Region.Apart.mono (Region.Apart.mono happart hlo hhi).symm hlo' hhi').symm

theorem Owned.slots_nodup (h : l.Owned poolSize pool chain others) : (l.slots chain).Nodup :=
  h.slots_apart.imp fun {a b} happart heq => by
    have hpos := h.elementSize
    simp only [Region.Apart,heq] at happart
    omega

/-- A slot is nobody else's, and none of the records of the list. -/
theorem Owned.slot_apart (h : l.Owned poolSize pool chain others) {a : ℕ} (ha : a ∈ l.slots chain) {r : Region}
    (hr : r ∈ l.records chain ++ others) : Region.Apart ⟨a,l.elementSize⟩ r := by
  obtain ⟨p,hp,hlo,hhi⟩ := h.chained.inside ha
  exact Region.Apart.mono (h.pairwise.2 _ (List.mem_map_of_mem hp) r hr) hlo hhi

/-- A block beside those of the list is none of its parts. -/
theorem Chained.not_mem_of_apart (h : l.Chained chain) {last : ℕ}
    (happart : ∀ r ∈ l.records chain, Region.Apart ⟨last,partSize⟩ r) : last ∉ chain := by
  obtain ⟨ps,rfl⟩ := h.cons
  intro hmem
  rcases List.mem_cons.mp hmem with hlast | hmem
  · have hheader := happart ⟨l.addr,listSize⟩ List.mem_cons_self
    simp only [Region.Apart,partSize,listSize,hlast,part] at hheader
    omega
  · have hpart := happart ⟨last,partSize⟩ (List.mem_cons_of_mem _ (List.mem_map.mpr ⟨last,hmem,rfl⟩))
    simp only [Region.Apart,partSize] at hpart
    omega

/-- A new part adds its block and that of its elements. -/
theorem Chained.append_blocks (h : l.Chained chain) {last : ℕ} (hnew : last ∉ chain) (elements : ℕ) :
    ((l.append last elements).take.2.blocks (chain ++ [last])).Perm
      (⟨elements,l.capacity*l.elementSize⟩::⟨last,partSize⟩::l.blocks chain) := by
  obtain ⟨hkeep,hself⟩ := h.append_take_elements hnew elements
  obtain ⟨ps,rfl⟩ := h.cons
  have hbuffers : (l.part::ps).map (l.append last elements).take.2.buffer = (l.part::ps).map l.buffer :=
    List.map_congr_left fun p hp => by
      rw [buffer,buffer,hkeep p hp]
      rfl
  have hbuffer : (l.append last elements).take.2.buffer last = ⟨elements,l.capacity*l.elementSize⟩ := by
    rw [buffer,hself]
    rfl
  have hrecords : (l.append last elements).take.2.records (l.part::ps ++ [last]) =
      l.records (l.part::ps) ++ [⟨last,partSize⟩] := by
    simp [records,NgxList.take,NgxList.append,setPart]
  rw [blocks,blocks,List.map_append,hbuffers,hrecords,List.map_singleton,hbuffer,List.append_assoc,List.singleton_append]
  refine List.perm_middle.trans (List.Perm.trans (List.Perm.cons _ ?_) (List.Perm.swap ..))
  rw [← List.append_assoc]
  exact List.perm_append_singleton _ _

section
variable (halign : align ∣ poolAlignment) (hsize : poolAlignment ∣ poolSize) (hmin : poolHeader ≤ poolSize)
include halign hsize hmin

/-- A push fails and leaves the list as it was, or it returns a new slot behind the others. -/
theorem Owned.push (h : l.Owned poolSize pool chain others) {first second : Grant}
    (hfirst : pool.Supplied (l.blocks chain ++ others) partSize first.block first.chunk)
    (hsecond : (palloc align pool partSize first.block first.chunk).2.Supplied
      (blocksOf (palloc align pool partSize first.block first.chunk).1 partSize ++ (l.blocks chain ++ others))
      (l.capacity*l.elementSize) second.block second.chunk) :
    match listPush align pool l first second with
    | (none,pool',l') => Same chain l l' ∧ l'.Owned poolSize pool' chain others
    | (some slot,pool',l') => ∃ chain', l'.Owned poolSize pool' chain' others ∧
      l'.slots chain' = l.slots chain ++ [slot] ∧ l'.addr = l.addr ∧ l'.elementSize = l.elementSize := by
  unfold listPush
  split_ifs with hfull
  · have halloc := h.owns.alloc halign hsize hmin true hfirst
    rw [show pallocAs true = palloc from rfl] at halloc
    generalize palloc align pool partSize first.block first.chunk = result at hsecond halloc ⊢
    obtain ⟨r,pool₁⟩ := result
    cases r with
    | none => exact ⟨Same.refl _ _,h.same (Same.refl _ _) halloc⟩
    | some last =>
      have halloc : pool₁.Owns poolSize (⟨last,partSize⟩::(l.blocks chain ++ others)) := halloc
      have halloc₂ := halloc.alloc halign hsize hmin true hsecond
      rw [show pallocAs true = palloc from rfl] at halloc₂
      have hnew : last ∉ chain := h.chained.not_mem_of_apart fun r hr => by
        have hpairs := (List.pairwise_append.mp halloc.pairwise).1
        exact (List.pairwise_cons.mp hpairs).1 r (List.mem_append_left _ (List.mem_append_left _ hr))
      dsimp only
      generalize palloc align pool₁ (l.capacity*l.elementSize) second.block second.chunk = result at halloc₂ ⊢
      obtain ⟨r,pool₂⟩ := result
      cases r with
      | none =>
        have hsame := same_setPart (l := l) hnew { l.parts last with elements := 0 }
        exact ⟨hsame,h.same hsame (halloc₂.subperm (List.sublist_cons_self _ _).subperm)⟩
      | some elements =>
        obtain ⟨hchained,hslots,helements⟩ := h.chained.append_take hfull hnew elements
        refine ⟨chain ++ [last],⟨hchained,h.elementSize,?_⟩,hslots,rfl,rfl⟩
        exact halloc₂.perm ((h.chained.append_blocks hnew elements).append_right others)
  · obtain ⟨hchained,hslots⟩ := h.chained.take (Nat.lt_of_le_of_ne (h.chained.packed.bounded _
      (List.mem_of_getLast? h.chained.last)) hfull)
    have hblocks : l.take.2.blocks chain = l.blocks chain := by
      refine congrArg _ (List.map_congr_left fun p _ => ?_)
      rw [buffer,buffer,(take_keeps l p).1]
      rfl
    exact ⟨chain,⟨hchained,h.elementSize,hblocks ▸ h.owns⟩,hslots,rfl,rfl⟩

/-- A list begins with an empty part. -/
theorem Owned.init {r : Region} (hr : r.size = listSize) (howns : pool.Owns poolSize (r::others)) (parts : ℕ → ListPart)
    {n size : ℕ} (hn : 1 ≤ n) (hpos : 1 ≤ size) {g : Grant}
    (hsupplied : pool.Supplied (r::others) (n*size) g.block g.chunk) :
    match listInit align pool parts r.addr n size g with
    | (none,pool') => pool'.Owns poolSize (r::others)
    | (some l,pool') => l.Owned poolSize pool' [l.part] others ∧ l.slots [l.part] = [] := by
  have halloc := howns.alloc halign hsize hmin true hsupplied
  rw [show pallocAs true = palloc from rfl] at halloc
  unfold listInit
  generalize palloc align pool (n*size) g.block g.chunk = result at halloc ⊢
  obtain ⟨elements,pool'⟩ := result
  cases elements with
  | none => exact halloc
  | some elements =>
    have halloc : pool'.Owns poolSize (⟨elements,n*size⟩::r::others) := halloc
    dsimp only
    generalize hl : (⟨r.addr,r.addr + 8,Function.update parts (r.addr + 8) ⟨elements,0,none⟩,size,n⟩ : NgxList) = l
    have hself : l.parts l.part = ⟨elements,0,none⟩ := by
      rw [← hl]
      exact Function.update_self ..
    have hempty : l.count l.part = 0 := congrArg ListPart.elementCount hself
    refine ⟨⟨⟨hl ▸ hn,⟨rfl,congrArg ListPart.next hself⟩,List.nodup_singleton _,hl ▸ rfl,?_⟩,hl ▸ hpos,?_⟩,?_⟩
    · exact ⟨by simp [hempty],by simp,by simp⟩
    · have hblocks : l.blocks [l.part] = [r,⟨elements,n*size⟩] := by
        rw [blocks,List.map_singleton,buffer,hself,← hl]
        simp [records,← hr]
      rw [hblocks]
      exact halloc.perm (List.Perm.swap ..)
    · rw [slots,entries,List.flatMap_singleton,partFrom_nil hempty.le]

end

end NgxList

/-! ### Whole runs -/

namespace Listing
variable {align poolSize : ℕ} {s : Listing}

/-- The invariant: the list owns its blocks, and its slots are those that were returned. -/
def Sound (poolSize : ℕ) (s : Listing) : Prop := match s.list with
  | none => s.pool.Owns poolSize s.others
  | some l => ∃ chain, l.Owned poolSize s.pool chain s.others ∧ l.slots chain = s.returned

theorem Sound.of_none (hl : s.list = none) (howns : s.pool.Owns poolSize s.others) : s.Sound poolSize := by
  unfold Sound
  rwa [hl]

theorem Sound.of_some {l : NgxList} {chain : List ℕ} (hl : s.list = some l)
    (howned : l.Owned poolSize s.pool chain s.others) (hslots : l.slots chain = s.returned) : s.Sound poolSize := by
  unfold Sound
  rw [hl]
  exact ⟨chain,howned,hslots⟩

theorem Sound.owns (h : s.Sound poolSize) (hl : s.list = none) : s.pool.Owns poolSize s.others := by
  unfold Sound at h
  rwa [hl] at h

theorem Sound.owned (h : s.Sound poolSize) {l : NgxList} (hl : s.list = some l) :
    ∃ chain, l.Owned poolSize s.pool chain s.others ∧ l.slots chain = s.returned := by
  unfold Sound at h
  rwa [hl] at h

theorem leads {l : NgxList} (hl : s.list = some l) {chain : List ℕ} (h : l.Chained chain) :
    s.Leads (l.blocks chain ++ s.others) := by
  unfold Leads
  rw [hl]
  exact ⟨chain,h.path,rfl⟩

/-- Other users of the pool change their blocks only. -/
theorem Sound.elsewhere (h : s.Sound poolSize) {pool : Pool} {others : List Region}
    (howns : ∀ own, s.Leads (own ++ s.others) → s.pool.Owns poolSize (own ++ s.others) →
      pool.Owns poolSize (own ++ others)) : Sound poolSize { s with pool := pool, others := others } := by
  cases hl : s.list with
  | none =>
    exact .of_none rfl (howns [] (by unfold Leads; rw [hl]; rfl) (h.owns hl))
  | some l =>
    obtain ⟨chain,howned,hslots⟩ := h.owned hl
    exact .of_some rfl ⟨howned.chained,howned.elementSize,howns _ (leads hl howned.chained) howned.owns⟩ hslots

variable (halign : align ∣ poolAlignment) (hsize : poolAlignment ∣ poolSize) (hmin : poolHeader ≤ poolSize)
include halign hsize hmin

theorem Sound.push (h : s.Sound poolSize) {l : NgxList} (hl : s.list = some l) {first second : Grant}
    (hfresh : s.Fresh align (.push first second)) :
    match listPush align s.pool l first second with
    | (none,pool,l') => (∀ chain, l.Chained chain → NgxList.Same chain l l') ∧
      Sound poolSize { s with pool := pool, list := some l' }
    | (some slot,pool,l') => l'.addr = l.addr ∧ l'.elementSize = l.elementSize ∧
      Sound poolSize ⟨pool,some l',s.returned ++ [slot],s.others⟩ := by
  obtain ⟨chain,howned,hslots⟩ := h.owned hl
  obtain ⟨hfirst,hsecond⟩ := hfresh _ (leads hl howned.chained)
  have hpush := howned.push halign hsize hmin hfirst (hsecond l hl)
  generalize listPush align s.pool l first second = result at hpush ⊢
  obtain ⟨r,pool,l'⟩ := result
  cases r with
  | none =>
    obtain ⟨hsame,howned'⟩ := hpush
    refine ⟨fun chain' hchain' => ?_,.of_some rfl howned' (hsame.slots.trans hslots)⟩
    rwa [howned.chained.unique hchain'.path]
  | some slot =>
    obtain ⟨chain',howned',hslots',haddr,hsize'⟩ := hpush
    exact ⟨haddr,hsize',.of_some rfl howned' (hslots'.trans (by rw [hslots]))⟩

theorem Sound.step (h : s.Sound poolSize) {op : ListOp} {s' : Listing} (hfresh : s.Fresh align op)
    (hstep : s.step align op = some s') : s'.Sound poolSize := by
  cases op with
  | palloc aligned size g =>
    cases hstep
    refine h.elsewhere fun own hleads howns => ?_
    exact (howns.alloc halign hsize hmin aligned (hfresh _ hleads)).perm (List.perm_append_comm_assoc ..)
  | divide r n =>
    obtain ⟨⟨hr,hn⟩,hs⟩ := Option.ite_none_right_eq_some.mp hstep
    cases hs
    refine h.elsewhere fun own _ howns => ?_
    obtain ⟨k,hk⟩ := Nat.exists_eq_add_of_le hn
    have hperm : (own ++ s.others).Perm (⟨r.addr,n + k⟩::(own ++ s.others.erase r)) := by
      rw [← hk]
      exact ((List.perm_cons_erase hr).append_left own).trans List.perm_middle
    have hdivide := (howns.perm hperm.symm).divide
    rw [hk,Nat.add_sub_cancel_left]
    exact hdivide.perm (List.perm_append_comm_assoc own [_,_] _)
  | init r parts n size g =>
    obtain ⟨⟨⟨hnone,hr,hrsize⟩,hn,hpos,-⟩,hs⟩ := Option.ite_none_right_eq_some.mp hstep
    have herase := List.perm_cons_erase hr
    have hinit := NgxList.Owned.init halign hsize hmin hrsize ((h.owns hnone).perm herase.symm) parts hn hpos
      (hfresh.mono fun t ht => herase.symm.subset ht)
    generalize listInit align s.pool parts r.addr n size g = result at hinit hs
    obtain ⟨l,pool⟩ := result
    cases l with
    | none =>
      cases hs
      exact .of_none hnone (hinit.perm herase)
    | some l =>
      cases hs
      exact .of_some rfl hinit.1 hinit.2
  | create parts n size first second =>
    obtain ⟨⟨hnone,hn,hpos,-⟩,hs⟩ := Option.ite_none_right_eq_some.mp hstep
    cases hs
    obtain ⟨hfirst,hsecond⟩ := hfresh
    have halloc := (h.owns hnone).alloc halign hsize hmin true hfirst
    rw [show pallocAs true = Palloc.palloc from rfl] at halloc
    unfold listCreate
    generalize Palloc.palloc align s.pool listSize first.block first.chunk = result at hsecond halloc ⊢
    obtain ⟨list,pool⟩ := result
    cases list with
    | none => exact .of_none rfl halloc
    | some list =>
      have halloc : pool.Owns poolSize (⟨list,listSize⟩::s.others) := halloc
      have hinit := NgxList.Owned.init halign hsize hmin (r := ⟨list,listSize⟩) rfl halloc parts hn hpos hsecond
      dsimp only
      generalize listInit align pool parts list n size second = result at hinit ⊢
      obtain ⟨l,pool'⟩ := result
      cases l with
      | none => exact .of_none rfl (hinit.subperm (List.sublist_cons_self _ _).subperm)
      | some l => exact .of_some rfl hinit.1 hinit.2
  | push first second =>
    obtain ⟨l,hl,rfl⟩ := Option.map_eq_some_iff.mp hstep
    have hpush := h.push halign hsize hmin hl hfresh
    generalize listPush align s.pool l first second = result at hpush ⊢
    obtain ⟨r,pool,l'⟩ := result
    cases r with
    | none =>
      dsimp only [Option.toList]
      rw [List.append_nil]
      exact hpush.2
    | some slot => exact hpush.2.2

omit halign hsize hmin in
theorem sound_init {pagesize : ℕ} (hheader : poolHeader ≤ poolSize) {p : ℕ} (hp : poolAlignment ∣ p)
    (hlt : p + poolSize < 2^64) (hcreate : createPool pagesize (some p) poolSize = some s.pool)
    (hlist : s.list = none) (hothers : s.others = []) : s.Sound poolSize := by
  refine .of_none hlist ?_
  rw [hothers]
  refine ⟨[],[],List.Perm.refl _,createPool_valid hp hlt hheader hcreate,?_,by simp,List.Pairwise.nil⟩
  rw [← Option.some.inj hcreate]
  exact List.pairwise_singleton ..

/-- What holds of a list in the memory of a pool. -/
structure Kept (align : ℕ) (s : Listing) (l : NgxList) (chain : List ℕ) : Prop where
  path : TailQueue.Path l.links (some l.part) chain
  inside : ∀ a ∈ s.returned, ∃ p ∈ chain, (l.buffer p).addr ≤ a ∧
    a + l.elementSize ≤ (l.buffer p).addr + (l.buffer p).size
  own : ∀ a ∈ s.returned, ∀ r ∈ l.records chain ++ s.others, Region.Apart ⟨a,l.elementSize⟩ r
  apart : s.returned.Pairwise fun a b => Region.Apart ⟨a,l.elementSize⟩ ⟨b,l.elementSize⟩
  failed : ∀ first second, s.Fresh align (.push first second) →
    (listPush align s.pool l first second).1 = none → NgxList.Same chain l (listPush align s.pool l first second).2.2
  stays : ∀ op s', s.Fresh align op → s.step align op = some s' → s.returned <+: s'.returned ∧
    ∃ l', s'.list = some l' ∧ l'.addr = l.addr ∧ l'.elementSize = l.elementSize
  iterates : ∀ (σ ρ : Type) (body : ℕ → σ → σ × Option ρ) (fuel : ℕ), s.returned.length < fuel →
    ∀ t, iterate l body fuel t = .ok (visitAll body s.returned t)

/-- A list stays in place, and what it has returned remains. -/
theorem Sound.stays (h : s.Sound poolSize) {l : NgxList} (hl : s.list = some l) {op : ListOp} {s' : Listing}
    (hfresh : s.Fresh align op) (hstep : s.step align op = some s') : s.returned <+: s'.returned ∧
      ∃ l', s'.list = some l' ∧ l'.addr = l.addr ∧ l'.elementSize = l.elementSize := by
  cases op with
  | palloc aligned size g =>
    cases hstep
    exact ⟨List.prefix_refl _,l,hl,rfl,rfl⟩
  | divide r n =>
    obtain ⟨-,hs⟩ := Option.ite_none_right_eq_some.mp hstep
    cases hs
    exact ⟨List.prefix_refl _,l,hl,rfl,rfl⟩
  | init r parts n size g =>
    obtain ⟨⟨⟨hnone,-⟩,-⟩,-⟩ := Option.ite_none_right_eq_some.mp hstep
    cases hl.symm.trans hnone
  | create parts n size first second =>
    obtain ⟨⟨hnone,-⟩,-⟩ := Option.ite_none_right_eq_some.mp hstep
    cases hl.symm.trans hnone
  | push first second =>
    obtain ⟨l₀,hl₀,rfl⟩ := Option.map_eq_some_iff.mp hstep
    obtain rfl := Option.some.inj (hl.symm.trans hl₀)
    refine ⟨List.prefix_append _ _,_,rfl,?_⟩
    have hpush := h.push halign hsize hmin hl hfresh
    obtain ⟨chain,howned,-⟩ := h.owned hl
    generalize listPush align s.pool l first second = result at hpush ⊢
    obtain ⟨r,pool,l'⟩ := result
    cases r with
    | none =>
      have hsame := hpush.1 chain howned.chained
      exact ⟨hsame.addr,hsame.elementSize⟩
    | some slot => exact ⟨hpush.1,hpush.2.1⟩

theorem Sound.kept (h : s.Sound poolSize) {l : NgxList} (hl : s.list = some l) : ∃ chain, s.Kept align l chain := by
  obtain ⟨chain,howned,hslots⟩ := h.owned hl
  refine ⟨chain,howned.chained.path,?_,?_,?_,fun first second hfresh hfail => ?_,fun op s' => h.stays halign hsize hmin hl,
    fun σ ρ body fuel hfuel t => ?_⟩
  · rw [← hslots]
    exact fun a => howned.chained.inside
  · rw [← hslots]
    exact fun a ha r => howned.slot_apart ha
  · rw [← hslots]
    exact howned.slots_apart
  · have hpush := h.push halign hsize hmin hl hfresh
    generalize listPush align s.pool l first second = result at hpush hfail ⊢
    obtain ⟨r,pool,l'⟩ := result
    cases hfail
    exact hpush.1 chain howned.chained
  · rw [← hslots] at hfuel ⊢
    exact iterate_eq howned.chained body hfuel t

end Listing

/-- All states of a run are sound. -/
theorem listing_sound {align pagesize size : ℕ} (halign : align ∣ poolAlignment) (hsize : poolAlignment ∣ size)
    (hheader : poolHeader ≤ size) {s : Listing} (h : (listing align pagesize size).Reachable s) : s.Sound size := by
  refine h.invariant (I := Listing.Sound size) ?_ ?_
  · rintro s ⟨hlist,-,hothers,p,hp,hlt,hcreate⟩
    exact Listing.sound_init hheader hp hlt hcreate hlist hothers
  · rintro s op s' - ih ⟨hfresh,hstep⟩
    exact ih.step halign hsize hheader hfresh hstep

/-- A list holds the slots that were pushed, and the iteration visits them. -/
theorem list_kept {align pagesize size : ℕ} (halign : align ∣ poolAlignment) (hsize : poolAlignment ∣ size)
    (hheader : poolHeader ≤ size) {s : Listing} (h : (listing align pagesize size).Reachable s) {l : NgxList}
    (hl : s.list = some l) : ∃ chain, s.Kept align l chain :=
  (listing_sound halign hsize hheader h).kept halign hsize hheader hl

/-- A list of two parts; the fifth push fails at its second allocation. -/
def fullOps : List ListOp :=
  [.create (fun _ => ⟨0,0,none⟩) 2 8 ⟨none,none⟩ ⟨none,none⟩,.push ⟨none,none⟩ ⟨none,none⟩,.push ⟨none,none⟩ ⟨none,none⟩,
    .push ⟨none,none⟩ ⟨none,none⟩,.palloc true 32 ⟨none,none⟩,.push ⟨none,none⟩ ⟨none,none⟩,.push ⟨none,none⟩ ⟨none,none⟩]

theorem fullOps_reachable : ∃ (s : Listing) (l : NgxList), (listing 8 4096 256).Reachable s ∧ s.list = some l ∧
    s.returned = [1160,1168,1200,1208] := by
  have hinit : (listing 8 4096 256).Reachable ⟨⟨[⟨1024,1104,1280,0⟩],176,0,[],[]⟩,none,[],[]⟩ :=
    .init ⟨rfl,rfl,rfl,1024,by decide,by decide,rfl⟩
  have hsupplied : ∀ (pool : Pool) live size, pool.Supplied live size none none := fun pool live size =>
    ⟨by rintro p ⟨⟩,by simp,by simp⟩
  have hsteps : ∀ op ∈ fullOps, ∀ s s' : Listing, s.step 8 op = some s' → (listing 8 4096 256).step s op s' := by
    intro op hop s s' hstep
    refine ⟨?_,hstep⟩
    simp only [fullOps,List.mem_cons,List.not_mem_nil,or_false] at hop
    rcases hop with rfl | rfl | rfl | rfl | rfl | rfl | rfl <;> simp [Listing.Fresh,hsupplied]
  have hrun : (TransitionSystem.replay (Listing.step 8) ⟨⟨[⟨1024,1104,1280,0⟩],176,0,[],[]⟩,none,[],[]⟩ fullOps).map
      (fun s => (s.list.isSome,s.returned)) = some (true,[1160,1168,1200,1208]) := by
    decide +kernel
  obtain ⟨s,hs,heq⟩ := Option.map_eq_some_iff.mp hrun
  obtain ⟨hsome,hreturned⟩ := Prod.mk.inj heq
  obtain ⟨l,hl⟩ := Option.isSome_iff_exists.mp hsome
  have hreach : (listing 8 4096 256).Reachable s := hinit.of_replay_of_step hsteps hs
  exact ⟨s,l,hreach,hl,hreturned⟩

theorem list_kept_full : ∃ (s : Listing) (l : NgxList) (chain : List ℕ), (listing 8 4096 256).Reachable s ∧
    s.list = some l ∧ s.returned = [1160,1168,1200,1208] ∧ s.Kept 8 l chain := by
  obtain ⟨s,l,hreach,hl,hreturned⟩ := fullOps_reachable
  obtain ⟨chain,hkept⟩ := list_kept (by decide) (by decide) (by decide) hreach hl
  exact ⟨s,l,chain,hreach,hl,hreturned,hkept⟩

end InsideNginx.Lists
