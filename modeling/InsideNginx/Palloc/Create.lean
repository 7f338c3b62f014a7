import InsideNginx.Palloc.Arrays

/-! `ngx_array_create`. The header of a new array lies in recycled memory, and `ngx_array_init` reads
the pointer to the elements from there: nobody allocates them. -/
namespace InsideNginx.Palloc
open ByteMemory

/-! ### When a pool cannot supply memory -/

/-- No chunk from the current one on has room for a small block. -/
def Pool.NoRoom (align : ℕ) (pool : Pool) (size : ℕ) : Prop :=
  ∀ p ∈ pool.chunks.drop pool.current, sizeT (p.dEnd - p.blockAt align true) < size

/-- There is no memory for a block: none for a small one and no new chunk, or none for a large one, or none
for its record. -/
def Pool.Exhausted (align : ℕ) (pool : Pool) (size : ℕ) (block chunk : Option ℕ) : Prop :=
  if size ≤ pool.max then pool.NoRoom align size ∧ chunk = none
  else block = none ∨ ((∀ l ∈ pool.large.take 5, l.alloc ≠ none) ∧ pool.NoRoom align largeSize ∧ chunk = none)

variable {align : ℕ} {pool : Pool} {size : ℕ} {block chunk : Option ℕ}

theorem pallocSmallLoop_eq_none {ps : List PoolChunk} :
    pallocSmallLoop align true size ps = none ↔ ∀ p ∈ ps, sizeT (p.dEnd - p.blockAt align true) < size := by
  induction ps with
  | nil => simp [pallocSmallLoop]
  | cons p ps ih =>
    rw [pallocSmallLoop]
    split_ifs with hroom
    · simp [not_lt.mpr hroom]
    · simp [ih,not_le.mp hroom]

theorem pallocSmall_eq_none : (pallocSmall align pool size true chunk).1 = none ↔ pool.NoRoom align size ∧ chunk = none := by
  unfold pallocSmall Pool.NoRoom
  rw [← pallocSmallLoop_eq_none]
  cases pallocSmallLoop align true size (pool.chunks.drop pool.current) with
  | some found => simp
  | none => cases chunk <;> simp [pallocBlock]

theorem reuseLarge_eq_none (new : ℕ) (ls : List PoolLarge) {n : ℕ} (hn : n ≤ 4) :
    reuseLarge new n ls = none ↔ ∀ l ∈ ls.take (5 - n), l.alloc ≠ none := by
  induction ls generalizing n with
  | nil => simp [reuseLarge]
  | cons l ls ih =>
    rw [reuseLarge,show 5 - n = (4 - n) + 1 by omega,List.take_succ_cons]
    split_ifs with hfree hlast
    · simp [hfree]
    · simp [hfree,show 4 - n = 0 by omega]
    · have hrest := ih (n := n+1) (by omega)
      rw [show 5 - (n + 1) = 4 - n by omega] at hrest
      simp only [Option.map_eq_none_iff,List.forall_mem_cons,hrest]
      exact ⟨fun h => ⟨hfree,h⟩,fun h => h.2⟩

/-- `ngx_palloc` returns NULL exactly when there is no memory. -/
theorem palloc_eq_none : (palloc align pool size block chunk).1 = none ↔ pool.Exhausted align size block chunk := by
  unfold palloc pallocAs Pool.Exhausted
  split_ifs
  · exact pallocSmall_eq_none
  · unfold pallocLarge
    cases block with
    | none => simp
    | some new =>
      have hreuse := reuseLarge_eq_none new pool.large (Nat.zero_le 4)
      rw [Nat.sub_zero] at hreuse
      rw [← hreuse]
      dsimp only
      cases reuseLarge new 0 pool.large with
      | some large => simp
      | none =>
        have hrecord : (recordLarge align pool new chunk).1 = none ↔ pool.NoRoom align largeSize ∧ chunk = none := by
          rw [← pallocSmall_eq_none]
          unfold recordLarge
          generalize pallocSmall align pool largeSize true chunk = result
          obtain ⟨l,pool'⟩ := result
          cases l <;> simp
        simp [hrecord]

/-! ### The call -/

/-- `ngx_array_init`; the fields but `elements` are written. -/
def arrayInit (mem : ℕ → UInt8) (addr n size : ℕ) : Bool × NgxArray :=
  let a := ⟨addr,word mem addr,0,size,n⟩
  (a.elements != 0,a)

/-- What `ngx_array_create` returns and leaves; `blocks` are the results of its calls of `ngx_palloc`. -/
structure Creation where
  result : Option NgxArray
  pool : Pool
  blocks : List (Option Region)

/-- `ngx_array_create`. -/
def arrayCreate (align : ℕ) (pool : Pool) (mem : ℕ → UInt8) (n size : ℕ) (block chunk : Option ℕ) : Creation :=
  match palloc align pool arraySize block chunk with
  | (none,pool) => ⟨none,pool,[none]⟩
  | (some addr,pool) =>
    let (ok,a) := arrayInit mem addr n size
    ⟨if ok then some a else none,pool,[some ⟨addr,arraySize⟩]⟩

/-- The memory and the pool of an array that elements are added to. -/
structure Pushing where
  pool : Pool
  mem : ℕ → UInt8
  array : NgxArray

/-- A call that adds elements. -/
inductive PushOp
  | push (block chunk : Option ℕ)
  | pushN (n : ℕ) (block chunk : Option ℕ)

/-- How many elements it adds. -/
def PushOp.count : PushOp → ℕ
  | .push _ _ => 1
  | .pushN n _ _ => n

namespace Pushing

def call (align : ℕ) (s : Pushing) : PushOp → Grown UInt8
  | .push block chunk => arrayPush align s.pool s.mem s.array block chunk
  | .pushN n block chunk => arrayPushN align s.pool s.mem s.array n block chunk

/-- The system allocator hands out no memory that is out. -/
def Fresh (live : List Region) (s : Pushing) : PushOp → Prop
  | .push block chunk =>
    s.pool.Supplied (s.array.buffer::live) (2*(s.array.elementSize*s.array.capacity)) block chunk
  | .pushN n block chunk => s.pool.Supplied (s.array.buffer::live)
    (2*(if s.array.capacity ≤ n then n else s.array.capacity)*s.array.elementSize) block chunk

end Pushing

/-- The sequences of calls from a state on. -/
def pushing (align : ℕ) (live : List Region) (start : Pushing) : TransitionSystem Pushing PushOp where
  init s := s = start
  step s op s' := s.Fresh live op ∧ s' = ⟨(s.call align op).pool,(s.call align op).mem,(s.call align op).array⟩

/-- The slots that a call returns lie in the buffer of the array. -/
def Grown.Inside {β : Type} (g : Grown β) (n : ℕ) : Prop := ∀ slot, g.slot = some slot →
  g.array.elements ≤ slot ∧ slot + n*g.array.elementSize ≤ g.array.elements + g.array.buffer.size

/-- An array is usable from the start: it has a block of its own for its elements, and so it stays. Without an
array, a call of `ngx_palloc` has failed. -/
def Creation.Usable (align : ℕ) (mem : ℕ → UInt8) (n size : ℕ) (live : List Region) (c : Creation) : Prop :=
  match c.result with
  | none => none ∈ c.blocks
  | some a => some ⟨a.elements,n*size⟩ ∈ c.blocks.erase (some a.header) ∧
    (∀ r ∈ a.header::live, Region.Apart ⟨a.elements,n*size⟩ r) ∧
    ∀ s, (pushing align (a.header::live) ⟨c.pool,mem,a⟩).Reachable s → s.array.elementCount ≤ s.array.capacity ∧
      ∀ op, s.Fresh (a.header::live) op → (s.call align op).Inside op.count

variable {mem : ℕ → UInt8}

/-- Whether there is an array depends on what its header finds in memory. -/
theorem arrayCreate_of_palloc {addr : ℕ} (h : (palloc align pool arraySize block chunk).1 = some addr) (mem : ℕ → UInt8)
    (n size : ℕ) : (arrayCreate align pool mem n size block chunk).blocks = [some ⟨addr,arraySize⟩] ∧
      (arrayCreate align pool mem n size block chunk).result =
        if word mem addr = 0 then none else some ⟨addr,word mem addr,0,size,n⟩ := by
  unfold arrayCreate
  generalize palloc align pool arraySize block chunk = result at h
  obtain ⟨_,pool'⟩ := result
  cases h
  refine ⟨rfl,?_⟩
  by_cases hword : word mem addr = 0 <;> simp [arrayInit,hword]

/-- Where the pool has memory for the header, nobody asks it for memory for the elements. -/
theorem not_usable_of_palloc {addr : ℕ} (h : (palloc align pool arraySize block chunk).1 = some addr)
    (mem : ℕ → UInt8) (n size : ℕ) (live : List Region) :
    ¬(arrayCreate align pool mem n size block chunk).Usable align mem n size live := by
  obtain ⟨hblocks,hresult⟩ := arrayCreate_of_palloc h mem n size
  unfold Creation.Usable
  rw [hresult,hblocks]
  split_ifs
  · simp
  · rintro ⟨hmem,-⟩
    simp [NgxArray.header] at hmem

/-- An array is usable from the start exactly when there is none since the pool has no memory. -/
theorem array_usable_iff (align : ℕ) (pool : Pool) (mem : ℕ → UInt8) (n size : ℕ) (block chunk : Option ℕ)
    (live : List Region) : (arrayCreate align pool mem n size block chunk).Usable align mem n size live ↔
      pool.Exhausted align arraySize block chunk := by
  rw [← palloc_eq_none]
  cases h : (palloc align pool arraySize block chunk).1 with
  | none =>
    have hcreate : arrayCreate align pool mem n size block chunk =
        ⟨none,(palloc align pool arraySize block chunk).2,[none]⟩ := by
      unfold arrayCreate
      generalize palloc align pool arraySize block chunk = result at h
      obtain ⟨_,pool'⟩ := result
      cases h
      rfl
    simp [hcreate,Creation.Usable]
  | some addr => simp [not_usable_of_palloc h]

/-- A second defect: where an array of capacity 0 moves, a push leaves its capacity as it is. -/
theorem arrayPush_overruns {β : Type} {a : NgxArray} {mem : ℕ → β} (hcapacity : a.capacity = 0) (hcount : a.elementCount = 0)
    (hmoves : a.elements ≠ pool.first.dLast) (hsupplied : (palloc align pool 0 block chunk).1 ≠ none) :
    (arrayPush align pool mem a block chunk).slot.isSome ∧
      (arrayPush align pool mem a block chunk).array.elementCount = 1 ∧
      (arrayPush align pool mem a block chunk).array.capacity = 0 := by
  unfold arrayPush
  simp only [hcapacity,hcount,if_true,Nat.mul_zero,Nat.add_zero,hmoves,false_and,if_false]
  generalize palloc align pool 0 block chunk = result at hsupplied
  obtain ⟨new,pool'⟩ := result
  cases new with
  | none => exact absurd rfl hsupplied
  | some new => exact ⟨rfl,rfl,rfl⟩

/-- A new pool in cleared memory: there is room for the array, and there is no array. -/
theorem create_in_cleared_memory : ¬ ∀ (pool : Pool) (mem : ℕ → UInt8) (n size : ℕ) (block chunk : Option ℕ),
    (∃ p, createPool 4096 (some p) 256 = some pool) → 1 ≤ size →
    (arrayCreate 16 pool mem n size block chunk).Usable 16 mem n size [] := by
  intro hall
  have hone := hall ⟨[⟨1024,1104,1280,0⟩],176,0,[],[]⟩ (fun _ => 0) 4 8 none none ⟨1024,by decide⟩ (by decide)
  exact not_usable_of_palloc (by decide : _ = some 1104) (fun _ => 0) 4 8 [] hone

end InsideNginx.Palloc
