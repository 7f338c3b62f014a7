import InsideNginx.General.ByteMemory
import InsideNginx.Palloc.Owned

/-! Arrays in the memory of a pool, among other blocks of it. Products and pointers are taken not
to overflow. -/
namespace InsideNginx.Palloc
open ByteMemory
variable {β : Type}

/-- `ngx_array_t`, at the address where it lies; `pool` is the one that all arrays here share. -/
structure NgxArray where
  addr : ℕ
  elements : ℕ
  elementCount : ℕ
  elementSize : ℕ
  capacity : ℕ
  deriving DecidableEq, Repr

/-- `sizeof(ngx_array_t)`. -/
def arraySize : ℕ := 40

/-- What a call that adds elements returns and leaves. -/
structure Grown (β : Type) where
  slot : Option ℕ
  pool : Pool
  mem : ℕ → β
  array : NgxArray

/-- The end of `ngx_array_push` and `ngx_array_push_n`. -/
def NgxArray.grow (a : NgxArray) (n : ℕ) (pool : Pool) (mem : ℕ → β) : Grown β where
  slot := some (a.elements + a.elementSize*a.elementCount)
  pool := pool
  mem := mem
  array := { a with elementCount := a.elementCount + n }

/-- `ngx_array_push`. -/
def arrayPush (align : ℕ) (pool : Pool) (mem : ℕ → β) (a : NgxArray) (block chunk : Option ℕ) : Grown β :=
  if a.elementCount = a.capacity then
    let size := a.elementSize*a.capacity
    if a.elements + size = pool.first.dLast ∧ pool.first.dLast + a.elementSize ≤ pool.first.dEnd then
      { a with capacity := a.capacity + 1 }.grow 1 (pool.setLast (pool.first.dLast + a.elementSize)) mem
    else
      match palloc align pool (2*size) block chunk with
      | (none,pool) => ⟨none,pool,mem,a⟩
      | (some newArray,pool) => { a with elements := newArray, capacity := a.capacity*2 }.grow 1 pool
          (copy mem newArray a.elements size)
  else a.grow 1 pool mem

/-- `ngx_array_push_n`. -/
def arrayPushN (align : ℕ) (pool : Pool) (mem : ℕ → β) (a : NgxArray) (n : ℕ) (block chunk : Option ℕ) : Grown β :=
  let size := n*a.elementSize
  if a.capacity < a.elementCount + n then
    if a.elements + a.elementSize*a.capacity = pool.first.dLast ∧ pool.first.dLast + size ≤ pool.first.dEnd then
      { a with capacity := a.capacity + n }.grow n (pool.setLast (pool.first.dLast + size)) mem
    else
      let nalloc := 2*(if a.capacity ≤ n then n else a.capacity)
      match palloc align pool (nalloc*a.elementSize) block chunk with
      | (none,pool) => ⟨none,pool,mem,a⟩
      | (some newArray,pool) => { a with elements := newArray, capacity := nalloc }.grow n pool
          (copy mem newArray a.elements (a.elementCount*a.elementSize))
  else a.grow n pool mem

/-- The first half of `ngx_array_destroy`. -/
def destroyElements (pool : Pool) (a : NgxArray) : Pool :=
  if a.elements + a.elementSize*a.capacity = pool.first.dLast then
    pool.setLast (pool.first.dLast - a.elementSize*a.capacity) else pool

/-- `ngx_array_destroy`. -/
def arrayDestroy (pool : Pool) (a : NgxArray) : Pool :=
  let pool := destroyElements pool a
  if a.addr + arraySize = pool.first.dLast then pool.setLast a.addr else pool

def NgxArray.header (a : NgxArray) : Region := ⟨a.addr,arraySize⟩

def NgxArray.buffer (a : NgxArray) : Region := ⟨a.elements,a.elementSize*a.capacity⟩

/-- An array with the elements that were pushed to it, as their owner wrote them. -/
structure OwnedArray (β : Type) where
  array : NgxArray
  pushed : List (List β)

/-- A pool, the memory, the live arrays, and the other blocks that are out. -/
structure Arrays (β : Type) where
  pool : Pool
  mem : ℕ → β
  arrays : List (OwnedArray β)
  blocks : List Region

/-- An operation. Besides the calls: memory from elsewhere comes in, a caller sees a block of its as
two, makes two blocks the header and the elements of an array, writes to an element of an array
or to a block. A push is followed by the writes to the slots that it returns. -/
inductive ArrayOp (β : Type)
  | palloc (size : ℕ) (block chunk : Option ℕ)
  | outside (r : Region)
  | divide (r : Region) (n : ℕ)
  | start (header buffer : Region) (n size : ℕ)
  | push (k : ℕ) (value : List β) (block chunk : Option ℕ)
  | pushN (k : ℕ) (values : List (List β)) (block chunk : Option ℕ)
  | write (k i : ℕ) (value : List β)
  | poke (r : Region) (offset : ℕ) (bytes : List β)
  | destroy (k : ℕ)

namespace Arrays

/-- All regions that somebody owns. -/
def live (s : Arrays β) : List Region :=
  s.arrays.flatMap (fun o => [o.array.header,o.array.buffer]) ++ s.blocks

/-- After a push to array `k` the owner writes the new elements to the slots. -/
def fill (s : Arrays β) (k : ℕ) (o : OwnedArray β) (values : List (List β)) (g : Grown β) : Arrays β :=
  match g.slot with
  | none => { s with pool := g.pool, mem := g.mem, arrays := s.arrays.set k { o with array := g.array } }
  | some slot => { s with
      pool := g.pool
      mem := storeAll g.mem slot g.array.elementSize values
      arrays := s.arrays.set k ⟨g.array,o.pushed ++ values⟩ }

def step (align : ℕ) (s : Arrays β) : ArrayOp β → Option (Arrays β)
  | .palloc size block chunk =>
    let result := Palloc.palloc align s.pool size block chunk
    some { s with pool := result.2, blocks := blocksOf result.1 size ++ s.blocks }
  | .outside r => some { s with blocks := r::s.blocks }
  | .divide r n =>
    if r ∈ s.blocks ∧ n ≤ r.size then
      some { s with blocks := ⟨r.addr,n⟩::⟨r.addr + n,r.size - n⟩::s.blocks.erase r }
    else none
  | .start header buffer n size =>
    if (header ∈ s.blocks ∧ buffer ∈ s.blocks.erase header) ∧
        (header.size = arraySize ∧ buffer.size = size*n) ∧ 1 ≤ n ∧ 1 ≤ size then
      some { s with
        arrays := s.arrays ++ [⟨⟨header.addr,buffer.addr,0,size,n⟩,[]⟩]
        blocks := (s.blocks.erase header).erase buffer }
    else none
  | .push k value block chunk => s.arrays[k]?.bind fun o =>
    if value.length = o.array.elementSize then
      some (s.fill k o [value] (arrayPush align s.pool s.mem o.array block chunk))
    else none
  | .pushN k values block chunk => s.arrays[k]?.bind fun o =>
    if ∀ v ∈ values, v.length = o.array.elementSize then
      some (s.fill k o values (arrayPushN align s.pool s.mem o.array values.length block chunk))
    else none
  | .write k i value => s.arrays[k]?.bind fun o =>
    if i < o.array.elementCount ∧ value.length = o.array.elementSize then
      some { s with
        mem := store s.mem (o.array.elements + o.array.elementSize*i) value
        arrays := s.arrays.set k { o with pushed := o.pushed.set i value } }
    else none
  | .poke r offset bytes =>
    if r ∈ s.blocks ∧ offset + bytes.length ≤ r.size then
      some { s with mem := store s.mem (r.addr + offset) bytes }
    else none
  | .destroy k => s.arrays[k]?.map fun o => { s with
      pool := arrayDestroy s.pool o.array
      arrays := s.arrays.eraseIdx k
      blocks := if o.array.addr + arraySize = (destroyElements s.pool o.array).first.dLast then s.blocks
        else o.array.header::s.blocks }

/-- The system allocator, or whoever else provides memory, hands out none that is out. -/
def Fresh (s : Arrays β) : ArrayOp β → Prop
  | .palloc size block chunk => s.pool.Supplied s.live size block chunk
  | .outside r => (∀ p ∈ s.pool.chunks, r.Apart ⟨p.addr,s.pool.size⟩) ∧ ∀ t ∈ s.live, r.Apart t
  | .push k _ block chunk => ∀ o ∈ s.arrays[k]?,
    s.pool.Supplied s.live (2*(o.array.elementSize*o.array.capacity)) block chunk
  | .pushN k values block chunk => ∀ o ∈ s.arrays[k]?, s.pool.Supplied s.live
    (2*(if o.array.capacity ≤ values.length then values.length else o.array.capacity)*o.array.elementSize) block chunk
  | _ => True

end Arrays

/-- The runs on a pool from its creation on. -/
def arraying (β : Type) (align pagesize size : ℕ) : TransitionSystem (Arrays β) (ArrayOp β) where
  init s := s.arrays = [] ∧ s.blocks = [] ∧ ∃ p, poolAlignment ∣ p ∧ p + size < 2^64 ∧
    createPool pagesize (some p) size = some s.pool
  step s op s' := s.Fresh op ∧ s.step align op = some s'

/-! ### One call -/

/-- For an array with room for one element a push is a push of one element. -/
theorem arrayPush_eq (align : ℕ) (pool : Pool) (mem : ℕ → β) {a : NgxArray} (hcount : a.elementCount ≤ a.capacity)
    (hcapacity : 1 ≤ a.capacity) (block chunk : Option ℕ) :
    arrayPush align pool mem a block chunk = arrayPushN align pool mem a 1 block chunk := by
  unfold arrayPush arrayPushN
  by_cases hfull : a.elementCount = a.capacity
  · have hmax : (if a.capacity ≤ 1 then 1 else a.capacity) = a.capacity := by split <;> omega
    have hsize : 2*(a.elementSize*a.capacity) = 2*a.capacity*a.elementSize := by ring
    simp only [hfull,if_true,Nat.lt_add_one,hmax,one_mul,hsize,Nat.mul_comm a.capacity 2,
      Nat.mul_comm a.capacity a.elementSize]
  · rw [if_neg hfull,if_neg (by omega)]

/-- What a successful push leaves: room for the new elements behind the old ones. -/
structure Grew (poolSize : ℕ) (pool : Pool) (mem : ℕ → β) (a : NgxArray) (n : ℕ) (rest : List Region)
    (g : Grown β) : Prop where
  slot : g.slot = some (g.array.elements + a.elementSize*a.elementCount)
  addr : g.array.addr = a.addr
  size : g.array.elementSize = a.elementSize
  count : g.array.elementCount = a.elementCount + n
  room : a.elementCount + n ≤ g.array.capacity ∧ a.capacity ≤ g.array.capacity
  owns : g.pool.Owns poolSize (g.array.buffer::rest)
  same : ∀ r ∈ rest, Same mem g.mem r
  kept : ∀ i < a.elementCount, load g.mem (g.array.elements + a.elementSize*i) a.elementSize =
    load mem (a.elements + a.elementSize*i) a.elementSize

variable {align poolSize : ℕ} {pool : Pool} {rest : List Region}

/-- A push fails and changes nothing, or it makes room. -/
theorem arrayPushN_spec (halign : align ∣ poolAlignment) (hsize : poolAlignment ∣ poolSize) (hmin : poolHeader ≤ poolSize)
    {a : NgxArray} (mem : ℕ → β) (n : ℕ) (hcount : a.elementCount ≤ a.capacity) (hcapacity : 1 ≤ a.capacity)
    (howns : pool.Owns poolSize (a.buffer::rest)) (hsolid : ∀ r ∈ a.buffer::rest, 0 < r.size) {block chunk : Option ℕ}
    (hsupplied : pool.Supplied (a.buffer::rest) (2*(if a.capacity ≤ n then n else a.capacity)*a.elementSize) block chunk) :
    ((arrayPushN align pool mem a n block chunk).slot = none ∧
      (arrayPushN align pool mem a n block chunk).array = a ∧ (arrayPushN align pool mem a n block chunk).mem = mem ∧
      (arrayPushN align pool mem a n block chunk).pool.Owns poolSize (a.buffer::rest)) ∨
    Grew poolSize pool mem a n rest (arrayPushN align pool mem a n block chunk) := by
  unfold arrayPushN
  dsimp only
  by_cases hfull : a.capacity < a.elementCount + n
  · rw [if_pos hfull]
    by_cases hlast : a.elements + a.elementSize*a.capacity = pool.first.dLast ∧
        pool.first.dLast + n*a.elementSize ≤ pool.first.dEnd
    · -- the buffer ends where the first chunk is taken up to
      rw [if_pos hlast]
      refine .inr ⟨rfl,rfl,rfl,rfl,⟨?_,Nat.le_add_right _ _⟩,?_,fun _ _ _ _ _ => rfl,fun _ _ => rfl⟩
      · exact Nat.add_le_add_right hcount n
      · have hextend := howns.extend hsolid hlast.1 hlast.2
        simpa [NgxArray.grow,NgxArray.buffer,Nat.mul_add,Nat.mul_comm n] using hextend
    · rw [if_neg hlast]
      have halloc := howns.alloc halign hsize hmin true hsupplied
      rw [show pallocAs true = palloc from rfl] at halloc
      generalize palloc align pool (2*(if a.capacity ≤ n then n else a.capacity)*a.elementSize) block chunk = result at halloc
      obtain ⟨r,pool'⟩ := result
      cases r with
      | none => exact .inl ⟨rfl,rfl,rfl,halloc⟩
      | some new =>
        have halloc : pool'.Owns poolSize (⟨new,2*(if a.capacity ≤ n then n else a.capacity)*a.elementSize⟩::
          a.buffer::rest) := halloc
        have hnalloc : a.elementCount + n ≤ 2*(if a.capacity ≤ n then n else a.capacity) ∧
            a.capacity ≤ 2*(if a.capacity ≤ n then n else a.capacity) := by split <;> omega
        generalize 2*(if a.capacity ≤ n then n else a.capacity) = nalloc at halloc hnalloc ⊢
        have hpairs := List.pairwise_cons.mp (List.pairwise_append.mp halloc.pairwise).1
        have hfits : a.elementCount*a.elementSize ≤ nalloc*a.elementSize :=
          Nat.mul_le_mul_right _ (by omega)
        refine .inr ⟨rfl,rfl,rfl,rfl,hnalloc,?_,fun r hr => ?_,fun i hi => ?_⟩
        · have hdrop : pool'.Owns poolSize (⟨new,nalloc*a.elementSize⟩::rest) := halloc.subperm
            ((List.Sublist.cons_cons _ (List.sublist_cons_self _ _)).subperm)
          simpa [NgxArray.grow,NgxArray.buffer,Nat.mul_comm nalloc] using hdrop
        · refine same_copy ?_
          have hapart := (hpairs.1 r (List.mem_cons_of_mem _ hr)).symm
          unfold Region.Apart at hapart ⊢
          simp only at hapart ⊢
          omega
        · refine load_copy ?_
          rw [Nat.mul_comm a.elementCount]
          exact Nat.mul_succ a.elementSize i ▸ Nat.mul_le_mul_left a.elementSize hi
  · rw [if_neg hfull]
    exact .inr ⟨rfl,rfl,rfl,rfl,⟨not_lt.mp hfull,le_rfl⟩,howns,fun _ _ _ _ _ => rfl,fun _ _ => rfl⟩

/-- A call that adds `n` elements fails and leaves the array and the memory alone, or it returns the
slot behind the elements that are there. -/
def Grown.Consecutive (g : Grown β) (mem : ℕ → β) (a : NgxArray) (n : ℕ) : Prop :=
  match g.slot with
  | none => g.array = a ∧ g.mem = mem
  | some slot => slot = g.array.elements + a.elementSize*a.elementCount ∧
    g.array.elementCount = a.elementCount + n ∧ g.array.elementSize = a.elementSize ∧ g.array.addr = a.addr

theorem arrayPushN_consecutive (align : ℕ) (pool : Pool) (mem : ℕ → β) (a : NgxArray) (n : ℕ) (block chunk : Option ℕ) :
    (arrayPushN align pool mem a n block chunk).Consecutive mem a n := by
  unfold arrayPushN
  dsimp only
  split
  · split
    · exact ⟨rfl,rfl,rfl,rfl⟩
    · generalize palloc align pool (2*(if a.capacity ≤ n then n else a.capacity)*a.elementSize) block chunk = result
      obtain ⟨new,pool'⟩ := result
      cases new with
      | none => exact ⟨rfl,rfl⟩
      | some new => exact ⟨rfl,rfl,rfl,rfl⟩
  · exact ⟨rfl,rfl,rfl,rfl⟩

/-- The pool has back what lies from its new `d.last` to its old one, and that is memory of the regions. -/
def Pool.GaveBack (pool old : Pool) (regions : List Region) : Prop :=
  pool.chunks.tail = old.chunks.tail ∧ pool.first.dLast ≤ old.first.dLast ∧
  ∀ x, pool.first.dLast ≤ x → x < old.first.dLast → ∃ r ∈ regions, r.addr ≤ x ∧ x < r.addr + r.size

theorem destroyElements_gaveBack (pool : Pool) (a : NgxArray) (hnonempty : pool.chunks ≠ []) :
    (destroyElements pool a).chunks ≠ [] ∧ (destroyElements pool a).GaveBack pool [a.buffer] := by
  unfold destroyElements
  split
  · rename_i hend
    refine ⟨Pool.nonempty_setLast hnonempty _,Pool.tail_setLast ..,?_⟩
    rw [Pool.first_setLast hnonempty]
    refine ⟨Nat.sub_le _ _,fun x hlo hhi => ⟨_,List.mem_singleton_self _,?_⟩⟩
    simp only [NgxArray.buffer] at hlo ⊢
    omega
  · exact ⟨hnonempty,rfl,le_rfl,fun x hlo hhi => absurd hhi (not_lt.mpr hlo)⟩

/-- `ngx_array_destroy` gives back nothing but the elements and the header of the array. -/
theorem arrayDestroy_gaveBack (pool : Pool) (a : NgxArray) (hnonempty : pool.chunks ≠ []) :
    (arrayDestroy pool a).GaveBack pool [a.buffer,a.header] := by
  obtain ⟨hne,htail,hle,hbytes⟩ := destroyElements_gaveBack pool a hnonempty
  have hbuffer : ∀ x, (destroyElements pool a).first.dLast ≤ x → x < pool.first.dLast →
      ∃ r ∈ [a.buffer,a.header], r.addr ≤ x ∧ x < r.addr + r.size := fun x hlo hhi =>
    (hbytes x hlo hhi).imp fun r hr => ⟨List.mem_cons.mpr (.inl (List.mem_singleton.mp hr.1)),hr.2⟩
  unfold arrayDestroy
  dsimp only
  split
  · rename_i hend
    refine ⟨(Pool.tail_setLast ..).trans htail,?_⟩
    rw [Pool.first_setLast hne]
    refine ⟨by simp only; omega,fun x hlo hhi => ?_⟩
    by_cases hx : x < (destroyElements pool a).first.dLast
    · exact ⟨a.header,by simp,hlo,hend ▸ hx⟩
    · exact hbuffer x (not_lt.mp hx) hhi
  · exact ⟨htail,hle,hbuffer⟩

/-- What a destroyed array leaves to others stays theirs. -/
theorem Pool.Owns.destroy {a : NgxArray} (h : pool.Owns poolSize (a.buffer::a.header::rest))
    (hsolid : ∀ r ∈ a.buffer::a.header::rest, 0 < r.size) :
    (arrayDestroy pool a).Owns poolSize
      (if a.addr + arraySize = (destroyElements pool a).first.dLast then rest else a.header::rest) := by
  have hhalf : (destroyElements pool a).Owns poolSize (a.header::rest) := by
    unfold destroyElements
    split
    · rename_i hend
      have hback := h.giveBack hsolid hend
      rwa [show a.buffer.addr = pool.first.dLast - a.elementSize*a.capacity by
        simp only [NgxArray.buffer]
        omega] at hback
    · exact h.subperm (List.sublist_cons_self _ _).subperm
  unfold arrayDestroy
  dsimp only
  split
  · rename_i hend
    exact hhalf.giveBack (fun r hr => hsolid r (List.mem_cons_of_mem _ hr)) hend
  · exact hhalf

/-! ### Whole runs -/

/-- An array holds what was pushed to it. -/
structure OwnedArray.Holds (mem : ℕ → β) (o : OwnedArray β) : Prop where
  elementSize : 1 ≤ o.array.elementSize
  capacity : 1 ≤ o.array.capacity
  count : o.array.elementCount ≤ o.array.capacity
  pushed : o.pushed.length = o.array.elementCount
  elements : ∀ i v, o.pushed[i]? = some v → v.length = o.array.elementSize ∧
    load mem (o.array.elements + o.array.elementSize*i) o.array.elementSize = v

/-- An element lies in the buffer. -/
theorem OwnedArray.Holds.inside {mem : ℕ → β} {o : OwnedArray β} (h : o.Holds mem) {i : ℕ}
    (hi : i < o.array.elementCount) : o.array.elementSize*i + o.array.elementSize ≤ o.array.elementSize*o.array.capacity := by
  rw [← Nat.mul_succ]
  exact Nat.mul_le_mul_left _ (Nat.lt_of_lt_of_le hi h.count)

theorem OwnedArray.Holds.congr {mem mem' : ℕ → β} {o : OwnedArray β} (h : o.Holds mem)
    (hsame : Same mem mem' o.array.buffer) : o.Holds mem' where
  elementSize := h.elementSize
  capacity := h.capacity
  count := h.count
  pushed := h.pushed
  elements i v hv := by
    obtain ⟨hlength,hload⟩ := h.elements i v hv
    have hi := h.inside (h.pushed ▸ (List.getElem?_eq_some_iff.mp hv).1)
    refine ⟨hlength,(load_congr (hsame.mono (Nat.le_add_right _ _) ?_)).trans hload⟩
    simp only [NgxArray.buffer]
    omega

namespace Arrays

/-- The regions of the other arrays, and the other blocks. -/
def others (s : Arrays β) (k : ℕ) : List Region :=
  (s.arrays.eraseIdx k).flatMap (fun o => [o.array.header,o.array.buffer]) ++ s.blocks

/-- The regions that are not empty. -/
def solid (live : List Region) : List Region := live.filter fun r => decide (0 < r.size)

/-- The invariant: all that is live is owned, and every array holds what was pushed to it. -/
structure Sound (poolSize : ℕ) (s : Arrays β) : Prop where
  owns : s.pool.Owns poolSize (solid s.live)
  arrays : ∀ o ∈ s.arrays, o.Holds s.mem

theorem solid_pos {live : List Region} : ∀ r ∈ solid live, 0 < r.size := fun r hr => by
  simpa using (List.mem_filter.mp hr).2

variable {s : Arrays β}

theorem live_perm {k : ℕ} {o : OwnedArray β} (hk : s.arrays[k]? = some o) :
    s.live.Perm (o.array.buffer::o.array.header::s.others k) := by
  obtain ⟨hlt,rfl⟩ := List.getElem?_eq_some_iff.mp hk
  have hperm := (List.getElem_cons_eraseIdx_perm hlt).symm.flatMap_right fun o : OwnedArray β => [o.array.header,o.array.buffer]
  refine (hperm.append_right s.blocks).trans ?_
  simp only [List.flatMap_cons,List.cons_append,List.nil_append,others]
  exact List.Perm.swap ..

/-- The arrays after one of them has changed. -/
theorem mem_set_cases {k : ℕ} {o o' o'' : OwnedArray β} (hk : s.arrays[k]? = some o)
    (h : o'' ∈ s.arrays.set k o') : o'' = o' ∨ o'' ∈ s.arrays.eraseIdx k := by
  have hlt : k < (s.arrays.set k o').length := by
    rw [List.length_set]
    exact (List.getElem?_eq_some_iff.mp hk).1
  have hperm := List.getElem_cons_eraseIdx_perm hlt
  rw [List.getElem_set_self,List.eraseIdx_set_eq] at hperm
  exact List.mem_cons.mp (hperm.symm.subset h)

theorem buffer_mem_others {k : ℕ} {o : OwnedArray β} (h : o ∈ s.arrays.eraseIdx k) : o.array.buffer ∈ s.others k :=
  List.mem_append_left _ (List.mem_flatMap.mpr ⟨o,h,by simp⟩)

section
variable (h : s.Sound poolSize) {k : ℕ} {o : OwnedArray β} (hk : s.arrays[k]? = some o)
include h hk

theorem Sound.holds : o.Holds s.mem := h.arrays o (List.mem_of_getElem? hk)

theorem Sound.buffer_pos : 0 < o.array.buffer.size :=
  Nat.mul_pos (h.holds hk).elementSize (h.holds hk).capacity

/-- The regions with those of one array in front. -/
theorem Sound.owns_array : s.pool.Owns poolSize (o.array.buffer::o.array.header::solid (s.others k)) ∧
    ∀ r ∈ o.array.buffer::o.array.header::solid (s.others k), 0 < r.size := by
  have hpos := h.buffer_pos hk
  have hsolid : solid (o.array.buffer::o.array.header::s.others k) =
      o.array.buffer::o.array.header::solid (s.others k) := by
    simp [solid,hpos,NgxArray.header,arraySize]
  rw [← hsolid]
  exact ⟨h.owns.perm ((live_perm hk).filter _).symm,solid_pos⟩

/-- The buffer of an array is apart from the memory of others. -/
theorem Sound.buffer_apart {r : Region} (hr : r ∈ s.others k) : o.array.buffer.Apart r := by
  by_cases hpos : 0 < r.size
  · have hpairs := List.pairwise_cons.mp (List.pairwise_append.mp (h.owns_array hk).1.pairwise).1
    exact hpairs.1 r (List.mem_cons_of_mem _ (List.mem_filter.mpr ⟨hr,by simpa using hpos⟩))
  · exact .inr (.inl (Nat.eq_zero_of_not_pos hpos))

/-- One array changes, with its regions and in its buffer. -/
theorem Sound.update (o' : OwnedArray β) {pool : Pool} (mem : ℕ → β) (hheader : o'.array.addr = o.array.addr)
    (howns : pool.Owns poolSize (o'.array.buffer::o'.array.header::solid (s.others k))) (hholds : o'.Holds mem)
    (hsame : ∀ r ∈ solid (s.others k), Same s.mem mem r) :
    Sound poolSize { s with pool := pool, mem := mem, arrays := s.arrays.set k o' } := by
  have hk' : (s.arrays.set k o')[k]? = some o' := by
    rw [List.getElem?_set_self (List.getElem?_eq_some_iff.mp hk).1]
  have hothers : others { s with pool := pool, mem := mem, arrays := s.arrays.set k o' } k = s.others k := by
    simp [others,List.eraseIdx_set_eq]
  refine ⟨?_,fun o'' ho'' => ?_⟩
  · have hperm := live_perm (s := { s with pool := pool, mem := mem, arrays := s.arrays.set k o' }) hk'
    rw [hothers] at hperm
    refine howns.subperm ((hperm.filter _).subperm.trans (List.Sublist.subperm ?_))
    rw [List.filter_cons,List.filter_cons]
    split
    · split
      · exact List.Sublist.refl _
      · exact (List.sublist_cons_self _ _).cons_cons _
    · split
      · exact List.sublist_cons_self _ _
      · exact ((List.sublist_cons_self _ _).trans (List.sublist_cons_self _ _))
  · rcases mem_set_cases hk ho'' with rfl | hmem
    · exact hholds
    · have hold := h.arrays o'' (List.mem_of_mem_eraseIdx hmem)
      refine hold.congr (hsame _ (List.mem_filter.mpr ⟨buffer_mem_others hmem,?_⟩))
      exact decide_eq_true (Nat.mul_pos hold.elementSize hold.capacity)

end

/-- A push with the writes that follow it. -/
theorem Sound.fill (h : s.Sound poolSize) {k : ℕ} {o : OwnedArray β} (hk : s.arrays[k]? = some o)
    (halign : align ∣ poolAlignment) (hsize : poolAlignment ∣ poolSize) (hmin : poolHeader ≤ poolSize)
    (values : List (List β)) (hvalues : ∀ v ∈ values, v.length = o.array.elementSize) {block chunk : Option ℕ}
    (hsupplied : s.pool.Supplied s.live
      (2*(if o.array.capacity ≤ values.length then values.length else o.array.capacity)*o.array.elementSize) block chunk) :
    (s.fill k o values (arrayPushN align s.pool s.mem o.array values.length block chunk)).Sound poolSize := by
  obtain ⟨howns,hpos⟩ := h.owns_array hk
  have hold := h.holds hk
  have hsupplied : s.pool.Supplied (o.array.buffer::o.array.header::solid (s.others k))
      (2*(if o.array.capacity ≤ values.length then values.length else o.array.capacity)*o.array.elementSize)
      block chunk := hsupplied.mono fun r hr => by
    refine (live_perm hk).symm.subset ?_
    simp only [List.mem_cons] at hr ⊢
    exact hr.imp_right (Or.imp_right fun hr => List.mem_of_mem_filter hr)
  rcases arrayPushN_spec halign hsize hmin s.mem values.length hold.count hold.capacity howns hpos hsupplied with
    ⟨hslot,harray,hmem,howns'⟩ | hgrew
  · have hupdate := h.update hk o s.mem rfl howns' hold fun r _ _ _ _ => rfl
    unfold Arrays.fill
    rw [hslot]
    dsimp only
    rw [harray,hmem]
    exact hupdate
  · generalize arrayPushN align s.pool s.mem o.array values.length block chunk = g at hgrew
    obtain ⟨hslot,haddr,hes,hcount,⟨hroom,hcapacity⟩,howns',hsame,hkept⟩ := hgrew
    unfold Arrays.fill
    rw [hslot]
    dsimp only
    have hheader : g.array.header = o.array.header := by simp [NgxArray.header,haddr]
    have hvalues' : ∀ v ∈ values, v.length = g.array.elementSize := fun v hv => (hvalues v hv).trans hes.symm
    -- the slots lie in the buffer, behind the elements that are there
    have hslots : o.array.elementSize*o.array.elementCount + o.array.elementSize*values.length ≤
        g.array.elementSize*g.array.capacity := by
      rw [← Nat.mul_add,hes]
      exact Nat.mul_le_mul_left _ hroom
    have hpairs := List.pairwise_cons.mp (List.pairwise_append.mp howns'.pairwise).1
    have hstored : ∀ r ∈ o.array.header::solid (s.others k), Same g.mem (storeAll g.mem
        (g.array.elements + o.array.elementSize*o.array.elementCount) g.array.elementSize values) r := by
      intro r hr
      refine same_storeAll hvalues' ?_
      have hapart := (hpairs.1 r hr).symm
      unfold Region.Apart NgxArray.buffer at hapart
      unfold Region.Apart
      simp only [hes] at hapart hslots ⊢
      omega
    refine h.update hk ⟨g.array,o.pushed ++ values⟩ _ haddr (hheader ▸ howns') ⟨hes ▸ hold.elementSize,hold.capacity.trans hcapacity,hcount ▸ hroom,?_,?_⟩
      fun r hr => (hsame r (List.mem_cons_of_mem _ hr)).trans (hstored r (List.mem_cons_of_mem _ hr))
    · rw [List.length_append,hold.pushed,hcount]
    · intro i v hv
      dsimp only at hv ⊢
      by_cases hi : i < o.pushed.length
      · rw [List.getElem?_append_left hi] at hv
        obtain ⟨hlength,hload⟩ := hold.elements i v hv
        rw [hold.pushed] at hi
        refine ⟨hlength.trans hes.symm,?_⟩
        rw [hes,← hload,← hkept i hi]
        refine load_congr (same_storeAll (fun v hv => hvalues v hv) ?_)
        have hle := Nat.mul_le_mul_left o.array.elementSize (show i + 1 ≤ o.array.elementCount from hi)
        rw [Nat.mul_succ] at hle
        unfold Region.Apart
        simp only
        omega
      · rw [List.getElem?_append_right (not_lt.mp hi)] at hv
        refine ⟨hvalues' v (List.mem_of_getElem? hv),?_⟩
        have hload := load_storeAll (m := g.mem) (a := g.array.elements + o.array.elementSize*o.array.elementCount) hvalues' hv
        have haddr : g.array.elements + o.array.elementSize*o.array.elementCount +
            g.array.elementSize*(i - o.pushed.length) = g.array.elements + g.array.elementSize*i := by
          rw [hes,Nat.add_assoc,← Nat.mul_add,hold.pushed] at *
          congr 2
          omega
        rwa [haddr] at hload

/-- Regions join those that are live. -/
theorem solid_subperm {live live' new : List Region} (h : live'.Perm (new ++ live)) :
    (solid live').Subperm (new ++ solid live) := by
  refine (h.filter _).subperm.trans ?_
  rw [List.filter_append]
  exact (List.filter_sublist.append_right _).subperm

/-- The blocks of callers change, and nothing else does. -/
theorem Sound.blocks (h : s.Sound poolSize) {pool : Pool} {blocks : List Region}
    (howns : pool.Owns poolSize (solid (live { s with pool := pool, blocks := blocks }))) :
    Sound poolSize { s with pool := pool, blocks := blocks } := ⟨howns,h.arrays⟩

theorem live_blocks (pool : Pool) (new : List Region) {blocks : List Region} (hblocks : s.blocks.Perm blocks) :
    (live { s with pool := pool, blocks := new ++ blocks }).Perm (new ++ s.live) := by
  simp only [live]
  rw [← List.append_assoc,← List.append_assoc]
  exact (List.perm_append_comm.append_right _).trans (hblocks.symm.append_left _)

/-- The owner writes to an element. -/
theorem Sound.write (h : s.Sound poolSize) {k i : ℕ} {o : OwnedArray β} {value : List β} (hk : s.arrays[k]? = some o)
    (hi : i < o.array.elementCount) (hvalue : value.length = o.array.elementSize) :
    Sound poolSize { s with
      mem := store s.mem (o.array.elements + o.array.elementSize*i) value
      arrays := s.arrays.set k { o with pushed := o.pushed.set i value } } := by
  have hold := h.holds hk
  obtain ⟨howns,-⟩ := h.owns_array hk
  have hinside := hold.inside hi
  refine h.update hk { o with pushed := o.pushed.set i value } _ rfl howns
    ⟨hold.elementSize,hold.capacity,hold.count,by simpa using hold.pushed,fun j v hv => ?_⟩ fun r hr => same_store ?_
  · dsimp only at hv ⊢
    by_cases hij : i = j
    · subst hij
      rw [List.getElem?_set_self (hold.pushed ▸ hi)] at hv
      cases hv
      refine ⟨hvalue,?_⟩
      have hload := load_store s.mem (o.array.elements + o.array.elementSize*i) value
      rwa [hvalue] at hload
    · rw [List.getElem?_set_ne hij] at hv
      obtain ⟨hlength,hload⟩ := hold.elements j v hv
      refine ⟨hlength,(load_congr (same_store ?_)).trans hload⟩
      rw [hvalue]
      -- one of the elements ends before the other
      unfold Region.Apart
      rcases Nat.lt_or_gt_of_ne hij with hlt | hlt
      · have hle := Nat.mul_le_mul_left o.array.elementSize (show i + 1 ≤ j from hlt)
        rw [Nat.mul_succ] at hle
        simp only
        omega
      · have hle := Nat.mul_le_mul_left o.array.elementSize (show j + 1 ≤ i from hlt)
        rw [Nat.mul_succ] at hle
        simp only
        omega
  · have hapart := h.buffer_apart hk (List.mem_of_mem_filter hr)
    unfold Region.Apart NgxArray.buffer at hapart
    unfold Region.Apart
    simp only [hvalue] at hapart ⊢
    omega

/-- A caller writes to its block. -/
theorem Sound.poke (h : s.Sound poolSize) {r : Region} (hr : r ∈ s.blocks) {offset : ℕ} {bytes : List β}
    (hfits : offset + bytes.length ≤ r.size) : Sound poolSize { s with mem := store s.mem (r.addr + offset) bytes } := by
  refine ⟨h.owns,fun o ho => (h.arrays o ho).congr (same_store ?_)⟩
  obtain ⟨k,hk⟩ := List.mem_iff_getElem?.mp ho
  have hapart := h.buffer_apart hk (List.mem_append_right _ hr)
  unfold Region.Apart at hapart ⊢
  simp only
  omega

/-- Two blocks become an array. -/
theorem Sound.start (h : s.Sound poolSize) {header buffer : Region} {n size : ℕ}
    (hblocks : header ∈ s.blocks ∧ buffer ∈ s.blocks.erase header)
    (hsizes : header.size = arraySize ∧ buffer.size = size*n) (hn : 1 ≤ n) (hsize : 1 ≤ size) :
    Sound poolSize { s with
      arrays := s.arrays ++ [⟨⟨header.addr,buffer.addr,0,size,n⟩,[]⟩]
      blocks := (s.blocks.erase header).erase buffer } := by
  have hperm : s.blocks.Perm (header::buffer::(s.blocks.erase header).erase buffer) :=
    (List.perm_cons_erase hblocks.1).trans ((List.perm_cons_erase hblocks.2).cons _)
  refine ⟨h.owns.perm (List.Perm.filter _ ?_),fun o ho => ?_⟩
  · simp only [live,List.flatMap_append,List.flatMap_cons,List.flatMap_nil,NgxArray.header,NgxArray.buffer,
      ← hsizes.1,← hsizes.2,List.append_assoc]
    exact hperm.symm.append_left _
  · rcases List.mem_append.mp ho with ho | ho
    · exact h.arrays o ho
    · rw [List.mem_singleton] at ho
      subst ho
      exact ⟨hsize,hn,Nat.zero_le _,rfl,fun i v hv => by cases hv⟩

/-- A caller sees its block as two. -/
theorem Sound.divide (h : s.Sound poolSize) {r : Region} (hr : r ∈ s.blocks) {n : ℕ} (hn : n ≤ r.size) :
    Sound poolSize { s with blocks := ⟨r.addr,n⟩::⟨r.addr + n,r.size - n⟩::s.blocks.erase r } := by
  have hperm : s.live.Perm (r::live { s with blocks := s.blocks.erase r }) :=
    ((List.perm_cons_erase hr).append_left _).trans List.perm_middle
  have hparts : (live { s with blocks := ⟨r.addr,n⟩::⟨r.addr + n,r.size - n⟩::s.blocks.erase r }).Perm
      ([⟨r.addr,n⟩,⟨r.addr + n,r.size - n⟩] ++ live { s with blocks := s.blocks.erase r }) :=
    live_blocks (s := { s with blocks := s.blocks.erase r }) s.pool [⟨r.addr,n⟩,⟨r.addr + n,r.size - n⟩] (List.Perm.refl _)
  refine h.blocks ?_
  have howns := h.owns.perm (hperm.filter _).symm
  by_cases hpos : 0 < r.size
  · rw [List.filter_cons,if_pos (by simpa using hpos)] at howns
    obtain ⟨k,hk⟩ := Nat.exists_eq_add_of_le hn
    have hsplit : r = ⟨r.addr,n + k⟩ := by rw [← hk]
    have hdivide : s.pool.Owns poolSize (⟨r.addr,n⟩::⟨r.addr + n,k⟩::solid (live { s with blocks := s.blocks.erase r })) :=
      Pool.Owns.divide (hsplit ▸ howns)
    rw [show r.size - n = k by omega] at hparts ⊢
    exact hdivide.subperm (solid_subperm hparts)
  · -- an empty block has empty parts
    have hempty : n = 0 ∧ r.size = 0 := by omega
    rw [List.filter_cons,if_neg (by simpa using hpos)] at howns
    refine howns.perm ?_
    have hsolid := hparts.filter fun r => decide (0 < r.size)
    simpa [solid,hempty] using hsolid

/-- An array is destroyed. -/
theorem Sound.destroy (h : s.Sound poolSize) {k : ℕ} {o : OwnedArray β} (hk : s.arrays[k]? = some o) :
    Sound poolSize { s with
      pool := arrayDestroy s.pool o.array
      arrays := s.arrays.eraseIdx k
      blocks := if o.array.addr + arraySize = (destroyElements s.pool o.array).first.dLast then s.blocks
        else o.array.header::s.blocks } := by
  obtain ⟨howns,hpos⟩ := h.owns_array hk
  have hdestroy := howns.destroy hpos
  refine ⟨?_,fun o' ho' => h.arrays o' (List.mem_of_mem_eraseIdx ho')⟩
  split
  · rename_i hend
    rw [if_pos hend] at hdestroy
    exact hdestroy
  · rename_i hend
    rw [if_neg hend] at hdestroy
    have hperm := live_blocks (s := { s with arrays := s.arrays.eraseIdx k }) (arrayDestroy s.pool o.array)
      [o.array.header] (List.Perm.refl s.blocks)
    exact hdestroy.subperm (solid_subperm hperm)

/-- One operation keeps the invariant. -/
theorem Sound.step (h : s.Sound poolSize) (halign : align ∣ poolAlignment) (hsize : poolAlignment ∣ poolSize)
    (hmin : poolHeader ≤ poolSize) {op : ArrayOp β} {s' : Arrays β} (hfresh : s.Fresh op)
    (hstep : s.step align op = some s') : s'.Sound poolSize := by
  cases op with
  | palloc size block chunk =>
    cases hstep
    have halloc := h.owns.alloc halign hsize hmin true
      (Pool.Supplied.mono hfresh fun r hr => List.mem_of_mem_filter hr)
    exact h.blocks (halloc.subperm (solid_subperm (live_blocks _ _ (List.Perm.refl _))))
  | outside r =>
    cases hstep
    obtain ⟨hchunks,hlive⟩ := hfresh
    rw [h.owns.size_eq] at hchunks
    have hout := h.owns.outside hchunks fun t ht => hlive t (List.mem_of_mem_filter ht)
    exact h.blocks (hout.subperm (solid_subperm (live_blocks _ [r] (List.Perm.refl _))))
  | divide r n =>
    obtain ⟨⟨hr,hn⟩,hs⟩ := Option.ite_none_right_eq_some.mp hstep
    cases hs
    exact h.divide hr hn
  | start header buffer n size =>
    obtain ⟨⟨hblocks,hsizes,hn,hpos⟩,hs⟩ := Option.ite_none_right_eq_some.mp hstep
    cases hs
    exact h.start hblocks hsizes hn hpos
  | push k value block chunk =>
    obtain ⟨o,hk,hpush⟩ := Option.bind_eq_some_iff.mp hstep
    obtain ⟨hvalue,hs⟩ := Option.ite_none_right_eq_some.mp hpush
    cases hs
    have hold := h.holds hk
    have hsupplied := hfresh o hk
    rw [arrayPush_eq align s.pool s.mem hold.count hold.capacity]
    refine h.fill hk halign hsize hmin [value] (by simpa using hvalue) ?_
    have hmax : (if o.array.capacity ≤ [value].length then [value].length else o.array.capacity) = o.array.capacity := by
      have := hold.capacity
      rw [List.length_singleton]
      split <;> omega
    rw [hmax,Nat.mul_assoc,Nat.mul_comm o.array.capacity]
    exact hsupplied
  | pushN k values block chunk =>
    obtain ⟨o,hk,hpush⟩ := Option.bind_eq_some_iff.mp hstep
    obtain ⟨hvalues,hs⟩ := Option.ite_none_right_eq_some.mp hpush
    cases hs
    exact h.fill hk halign hsize hmin values hvalues (hfresh o hk)
  | write k i value =>
    obtain ⟨o,hk,hwrite⟩ := Option.bind_eq_some_iff.mp hstep
    obtain ⟨⟨hi,hvalue⟩,hs⟩ := Option.ite_none_right_eq_some.mp hwrite
    cases hs
    exact h.write hk hi hvalue
  | poke r offset bytes =>
    obtain ⟨⟨hr,hfits⟩,hs⟩ := Option.ite_none_right_eq_some.mp hstep
    cases hs
    exact h.poke hr hfits
  | destroy k =>
    obtain ⟨o,hk,rfl⟩ := Option.map_eq_some_iff.mp hstep
    exact h.destroy hk

/-- All that is live is apart, the empty regions too. -/
theorem Sound.pairwise (h : s.Sound poolSize) : (s.live ++ s.pool.large.map PoolLarge.region).Pairwise Region.Apart := by
  obtain ⟨hlive,hlarge,hbetween⟩ := List.pairwise_append.mp h.owns.pairwise
  refine List.pairwise_append.mpr ⟨?_,hlarge,fun r hr l hl => ?_⟩
  · refine (List.pairwise_filter.mp hlive).imp fun {r t} happart => ?_
    by_cases hr : 0 < r.size
    · by_cases ht : 0 < t.size
      · exact happart (decide_eq_true hr) (decide_eq_true ht)
      · exact .inr (.inl (Nat.eq_zero_of_not_pos ht))
    · exact .inl (Nat.eq_zero_of_not_pos hr)
  · by_cases hr' : 0 < r.size
    · exact hbetween r (List.mem_filter.mpr ⟨hr,decide_eq_true hr'⟩) l hl
    · exact .inl (Nat.eq_zero_of_not_pos hr')

/-- What holds of the arrays and of the calls on them. -/
structure Kept (align : ℕ) (s : Arrays β) : Prop where
  count : ∀ o ∈ s.arrays, o.array.elementCount ≤ o.array.capacity
  pushed : ∀ o ∈ s.arrays, o.pushed.length = o.array.elementCount ∧ ∀ i v, o.pushed[i]? = some v →
    load s.mem (o.array.elements + o.array.elementSize*i) o.array.elementSize = v
  apart : (s.live ++ s.pool.large.map PoolLarge.region).Pairwise Region.Apart
  push : ∀ o ∈ s.arrays, ∀ block chunk, (arrayPush align s.pool s.mem o.array block chunk).Consecutive s.mem o.array 1
  pushN : ∀ o ∈ s.arrays, ∀ n block chunk, (arrayPushN align s.pool s.mem o.array n block chunk).Consecutive s.mem o.array n
  destroy : ∀ o ∈ s.arrays, (arrayDestroy s.pool o.array).GaveBack s.pool [o.array.buffer,o.array.header]

theorem Sound.kept (h : s.Sound poolSize) : s.Kept align where
  count o ho := (h.arrays o ho).count
  pushed o ho := ⟨(h.arrays o ho).pushed,fun i v hv => ((h.arrays o ho).elements i v hv).2⟩
  apart := h.pairwise
  push o ho block chunk := by
    rw [arrayPush_eq align s.pool s.mem (h.arrays o ho).count (h.arrays o ho).capacity]
    exact arrayPushN_consecutive ..
  pushN o _ n block chunk := arrayPushN_consecutive ..
  destroy o _ := arrayDestroy_gaveBack s.pool o.array h.owns.nonempty

end Arrays

/-- Arrays keep their elements. -/
theorem arrays_kept {align pagesize size : ℕ} (halign : align ∣ poolAlignment) (hsize : poolAlignment ∣ size)
    (hheader : poolHeader ≤ size) {s : Arrays β} (h : (arraying β align pagesize size).Reachable s) : s.Kept align := by
  have hsound : s.Sound size := by
    refine h.invariant (I := Arrays.Sound size) ?_ ?_
    · rintro s ⟨harrays,hblocks,p,hp,hlt,hcreate⟩
      have hlive : Arrays.solid s.live = [] := by simp [Arrays.solid,Arrays.live,harrays,hblocks]
      refine ⟨hlive ▸ ⟨[],[],List.Perm.refl _,createPool_valid hp hlt hheader hcreate,?_,by simp,List.Pairwise.nil⟩,
        by simp [harrays]⟩
      obtain hpool := Option.some.inj hcreate
      rw [← hpool]
      exact List.pairwise_singleton ..
    · rintro s op s' - ih ⟨hfresh,hstep⟩
      exact ih.step halign hsize hheader hfresh hstep
  exact hsound.kept

/-- Two arrays of a pool: both grow in place, then the first one, which is not the last block any more, moves. -/
def growOps : List (ArrayOp ℕ) :=
  [.palloc 2 none none,.start ⟨100,40⟩ ⟨1104,2⟩ 2 1,.push 0 [7] none none,.push 0 [8] none none,.push 0 [9] none none,
    .palloc 8 none none,.start ⟨200,40⟩ ⟨1112,8⟩ 4 2,.pushN 1 [[1,2],[3,4],[5,6]] none none,
    .pushN 1 [[7,8],[9,10]] none none,.write 0 1 [5],.push 0 [10] none none]

theorem arrays_kept_grown : ∃ s : Arrays ℕ, (arraying ℕ 8 4096 256).Reachable s ∧
    s.arrays.map (·.array) = [⟨100,1128,4,1,6⟩,⟨200,1112,5,2,6⟩] ∧
    s.arrays.map (·.pushed) = [[[7],[5],[9],[10]],[[1,2],[3,4],[5,6],[7,8],[9,10]]] ∧ s.Kept 8 := by
  have hinit : (arraying ℕ 8 4096 256).Reachable ⟨⟨[⟨1024,1104,1280,0⟩],176,0,[],[]⟩,fun _ => 0,[],[]⟩ :=
    .init ⟨rfl,rfl,1024,by decide,by decide,rfl⟩
  have hone : (arraying ℕ 8 4096 256).Reachable ⟨⟨[⟨1024,1104,1280,0⟩],176,0,[],[]⟩,fun _ => 0,[],[⟨100,40⟩]⟩ :=
    hinit.step (a := ArrayOp.outside ⟨100,40⟩) ⟨⟨by simp [Region.Apart],by simp [Arrays.live]⟩,rfl⟩
  have htwo : (arraying ℕ 8 4096 256).Reachable
      ⟨⟨[⟨1024,1104,1280,0⟩],176,0,[],[]⟩,fun _ => 0,[],[⟨200,40⟩,⟨100,40⟩]⟩ :=
    hone.step (a := ArrayOp.outside ⟨200,40⟩) ⟨⟨by simp [Region.Apart],by simp [Arrays.live,Region.Apart]⟩,rfl⟩
  -- the later steps take no memory from elsewhere
  have hsupplied : ∀ (pool : Pool) live size, pool.Supplied live size none none := fun pool live size =>
    ⟨by rintro p ⟨⟩,by simp,by simp⟩
  have hsteps : ∀ op ∈ growOps, ∀ (s s' : Arrays ℕ), s.step 8 op = some s' → (arraying ℕ 8 4096 256).step s op s' := by
    intro op hop s s' hstep
    refine ⟨?_,hstep⟩
    simp only [growOps,List.mem_cons,List.not_mem_nil,or_false] at hop
    rcases hop with rfl | rfl | rfl | rfl | rfl | rfl | rfl | rfl | rfl | rfl | rfl <;> simp [Arrays.Fresh,hsupplied]
  have hrun : (TransitionSystem.replay (Arrays.step 8)
      ⟨⟨[⟨1024,1104,1280,0⟩],176,0,[],[]⟩,fun _ => 0,[],[⟨200,40⟩,⟨100,40⟩]⟩ growOps).map
      (fun s => (s.arrays.map (·.array),s.arrays.map (·.pushed))) =
      some ([⟨100,1128,4,1,6⟩,⟨200,1112,5,2,6⟩],[[[7],[5],[9],[10]],[[1,2],[3,4],[5,6],[7,8],[9,10]]]) := by
    decide +kernel
  obtain ⟨s,hs,heq⟩ := Option.map_eq_some_iff.mp hrun
  have hreach : (arraying ℕ 8 4096 256).Reachable s := htwo.of_replay_of_step hsteps hs
  obtain ⟨harrays,hpushed⟩ := Prod.mk.inj heq
  exact ⟨s,hreach,harrays,hpushed,arrays_kept (by decide) (by decide) (by decide) hreach⟩

end InsideNginx.Palloc
