import InsideNginx.General.PartChain
import InsideNginx.General.TailQueue
import InsideNginx.Palloc.Owned

/-! Lists of parts in the memory of a pool, and the loop with which they are iterated. -/
namespace InsideNginx.Lists
open Palloc PartChain TailQueue

/-- `ngx_list_part_t`. -/
structure ListPart where
  elements : ℕ
  elementCount : ℕ
  next : Option ℕ
  deriving DecidableEq, Repr

/-- `ngx_list_t` at the address where it lies, with the memory of list parts, its field `part` among
them. The pool is handed to each call. -/
structure NgxList where
  addr : ℕ
  last : ℕ
  parts : ℕ → ListPart
  elementSize : ℕ
  capacity : ℕ

/-- `sizeof(ngx_list_t)` and `sizeof(ngx_list_part_t)`. -/
def listSize : ℕ := 56
def partSize : ℕ := 24

/-- What the system allocator gives to one call of `ngx_palloc`: to `ngx_alloc`, and as a new chunk. -/
structure Grant where
  block : Option ℕ
  chunk : Option ℕ
  deriving DecidableEq, Repr

namespace NgxList

/-- `&list->part`. -/
def part (l : NgxList) : ℕ := l.addr + 8

def count (l : NgxList) (p : ℕ) : ℕ := (l.parts p).elementCount

/-- The address of the element `i` of a part. -/
def entry (l : NgxList) (p i : ℕ) : ℕ := (l.parts p).elements + l.elementSize*i

def setPart (l : NgxList) (p : ℕ) (x : ListPart) : NgxList := { l with parts := Function.update l.parts p x }

end NgxList

/-- `ngx_list_init`, where the list lies and in what memory. -/
def listInit (align : ℕ) (pool : Pool) (parts : ℕ → ListPart) (list n size : ℕ) (g : Grant) : Option NgxList × Pool :=
  match palloc align pool (n*size) g.block g.chunk with
  | (none,pool) => (none,pool)
  | (some elements,pool) =>
    (some ⟨list,list + 8,Function.update parts (list + 8) ⟨elements,0,none⟩,size,n⟩,pool)

/-- `ngx_list_create`. -/
def listCreate (align : ℕ) (pool : Pool) (parts : ℕ → ListPart) (n size : ℕ) (first second : Grant) :
    Option NgxList × Pool :=
  match palloc align pool listSize first.block first.chunk with
  | (none,pool) => (none,pool)
  | (some list,pool) => listInit align pool parts list n size second

/-- The part that `ngx_list_push` allocates goes behind the last one. -/
def NgxList.append (l : NgxList) (last elements : ℕ) : NgxList :=
  let l := l.setPart last ⟨elements,0,none⟩
  { l.setPart l.last { l.parts l.last with next := some last } with last := last }

/-- The end of `ngx_list_push`. -/
def NgxList.take (l : NgxList) : ℕ × NgxList :=
  (l.entry l.last (l.count l.last),l.setPart l.last { l.parts l.last with elementCount := l.count l.last + 1 })

/-- `ngx_list_push`: the slot that it returns, the pool, and the list. -/
def listPush (align : ℕ) (pool : Pool) (l : NgxList) (first second : Grant) : Option ℕ × Pool × NgxList :=
  if l.count l.last = l.capacity then
    match palloc align pool partSize first.block first.chunk with
    | (none,pool) => (none,pool,l)
    | (some last,pool) =>
      match palloc align pool (l.capacity*l.elementSize) second.block second.chunk with
      -- the block of the part is left with NULL in its `elements`
      | (none,pool) => (none,pool,l.setPart last { l.parts last with elements := 0 })
      | (some elements,pool) => (some (l.append last elements).take.1,pool,(l.append last elements).take.2)
  else (some l.take.1,pool,l.take.2)

section
variable {σ ρ : Type}

/-- The loop of the iteration through a list, at the index `i` of a part whose elements are at `data`.
The body is given the address of an element; with a result it leaves the loop. -/
def iterateFrom (l : NgxList) (body : ℕ → σ → σ × Option ρ) : ℕ → ℕ → ℕ → ℕ → σ → Except Fault (σ × Option ρ)
  | 0,_,_,_,_ => .error .noReturn
  | fuel+1,part,data,i,s =>
    let visit (part data i : ℕ) : Except Fault (σ × Option ρ) :=
      if (l.parts part).elementCount ≤ i then .error .outOfBounds
      else
        match body (data + l.elementSize*i) s with
        | (s,some r) => .ok (s,some r)
        | (s,none) => iterateFrom l body fuel part data (i+1) s
    if (l.parts part).elementCount ≤ i then
      match (l.parts part).next with
      | none => .ok (s,none)
      | some part => visit part (l.parts part).elements 0
    else visit part data i

/-- The iteration through a list as `ngx_list.h` has it. -/
def iterate (l : NgxList) (body : ℕ → σ → σ × Option ρ) (fuel : ℕ) (s : σ) : Except Fault (σ × Option ρ) :=
  iterateFrom l body fuel l.part (l.parts l.part).elements 0 s

end

namespace NgxList

/-- The links of the parts. -/
def links (l : NgxList) : Link Unit ℕ → Option ℕ
  | .root _ => some l.part
  | .next p => (l.parts p).next

/-- The parts that the list leads to. -/
structure Chained (l : NgxList) (chain : List ℕ) : Prop where
  capacity : 1 ≤ l.capacity
  path : Path l.links (some l.part) chain
  nodup : chain.Nodup
  last : chain.getLast? = some l.last
  packed : Packed l.capacity l.count chain

/-- The elements of a list, by their addresses. -/
def slots (l : NgxList) (chain : List ℕ) : List ℕ := entries l.count l.entry chain

/-- The same list, as far as anything that it leads to is concerned. -/
structure Same (chain : List ℕ) (l l' : NgxList) : Prop where
  addr : l'.addr = l.addr
  last : l'.last = l.last
  elementSize : l'.elementSize = l.elementSize
  capacity : l'.capacity = l.capacity
  parts : ∀ p ∈ chain, l'.parts p = l.parts p

/-- Where the list itself and its other parts lie. -/
def records (l : NgxList) (chain : List ℕ) : List Region := ⟨l.addr,listSize⟩::chain.tail.map (⟨·,partSize⟩)

/-- The blocks with the elements of a part. -/
def buffer (l : NgxList) (p : ℕ) : Region := ⟨(l.parts p).elements,l.capacity*l.elementSize⟩

def blocks (l : NgxList) (chain : List ℕ) : List Region := l.records chain ++ chain.map l.buffer

variable {l l' : NgxList} {chain : List ℕ}

theorem Chained.cons (h : l.Chained chain) : ∃ ps, chain = l.part::ps := by
  cases chain with
  | nil => cases h.path
  | cons p ps => exact ⟨ps,by rw [Option.some.inj h.path.1]⟩

theorem Chained.front (h : l.Chained chain) : ∃ front, chain = front ++ [l.last] :=
  List.getLast?_eq_some_iff.mp h.last

/-- The parts are determined by the list. -/
theorem Chained.unique (h : l.Chained chain) {chain' : List ℕ} (h' : Path l.links (some l.part) chain') :
    chain' = chain := h'.unique h.path

theorem Same.slots (h : Same chain l l') : l'.slots chain = l.slots chain :=
  entries_congr (fun p hp => congrArg ListPart.elementCount (h.parts p hp)) fun p hp => by
    funext i
    rw [entry,entry,h.parts p hp,h.elementSize]

theorem Same.blocks (h : Same chain l l') : l'.blocks chain = l.blocks chain := by
  unfold NgxList.blocks records
  rw [h.addr]
  refine congrArg _ (List.map_congr_left fun p hp => ?_)
  rw [buffer,buffer,h.parts p hp,h.capacity,h.elementSize]

theorem Same.chained (h : Same chain l l') (hchain : l.Chained chain) : l'.Chained chain where
  capacity := h.capacity ▸ hchain.capacity
  path := by
    have hpath : Path l'.links (some l.part) chain := hchain.path.congr fun p hp =>
      congrArg ListPart.next (h.parts p hp)
    rwa [show l'.part = l.part from congrArg (· + 8) h.addr]
  nodup := hchain.nodup
  last := h.last ▸ hchain.last
  packed := h.capacity ▸ hchain.packed.congr fun p hp => congrArg ListPart.elementCount (h.parts p hp)

theorem Same.refl (chain : List ℕ) (l : NgxList) : Same chain l l := ⟨rfl,rfl,rfl,rfl,fun _ _ => rfl⟩

/-- A part outside of the list does not matter to it. -/
theorem same_setPart {p : ℕ} (hp : p ∉ chain) (x : ListPart) : Same chain l (l.setPart p x) :=
  ⟨rfl,rfl,rfl,rfl,fun _ hq => Function.update_of_ne (ne_of_mem_of_not_mem hq hp) _ _⟩

/-! ### One call -/

theorem take_keeps (l : NgxList) (p : ℕ) : (l.take.2.parts p).elements = (l.parts p).elements ∧
    (l.take.2.parts p).next = (l.parts p).next := by
  by_cases hp : p = l.last
  · simp [NgxList.take,setPart,hp]
  · simp [NgxList.take,setPart,hp]

theorem take_entry (l : NgxList) : l.take.2.entry = l.entry := by
  funext p i
  rw [entry,entry,(take_keeps l p).1]
  rfl

theorem take_count_last (l : NgxList) : l.take.2.count l.last = l.count l.last + 1 := by
  simp [NgxList.take,setPart,count]

theorem take_count_of_ne {p : ℕ} (hp : p ≠ l.last) : l.take.2.count p = l.count p := by
  simp [NgxList.take,setPart,count,hp]

/-- A slot is taken from the last part. -/
theorem Chained.take (h : l.Chained chain) (hroom : l.count l.last < l.capacity) :
    l.take.2.Chained chain ∧ l.take.2.slots chain = l.slots chain ++ [l.take.1] := by
  obtain ⟨front,rfl⟩ := h.front
  have hcount : ∀ p ∈ front, l.take.2.count p = l.count p := fun p hp =>
    take_count_of_ne fun hlast => (List.nodup_append.mp h.nodup).2.2 _ hp _ (by simp) hlast
  refine ⟨⟨h.capacity,h.path.congr fun p _ => (take_keeps l p).2,h.nodup,h.last,
    h.packed.push hroom hcount (take_count_last l)⟩,?_⟩
  exact entries_push hcount (fun p _ => congrFun (take_entry l) p) (take_count_last l)

/-- What a list is after a new part has been put behind the last one. -/
structure Appended (l : NgxList) (chain : List ℕ) (last elements : ℕ) : Prop where
  path : Path (l.append last elements).links (some l.part) (chain ++ [last])
  new : (l.append last elements).parts last = ⟨elements,0,none⟩
  parts : ∀ p ∈ chain, (l.append last elements).count p = l.count p ∧ (l.append last elements).entry p = l.entry p ∧
    ((l.append last elements).parts p).elements = (l.parts p).elements

theorem Chained.append (h : l.Chained chain) {last : ℕ} (hnew : last ∉ chain) (elements : ℕ) :
    l.Appended chain last elements := by
  obtain ⟨front,hfront⟩ := h.front
  have hlast : l.last ∈ chain := hfront ▸ List.mem_append_right _ (List.mem_singleton_self _)
  have hne : l.last ≠ last := ne_of_mem_of_not_mem hlast hnew
  have hself : (l.append last elements).parts last = ⟨elements,0,none⟩ := by
    simp [NgxList.append,setPart,hne.symm]
  have hold : (l.append last elements).parts l.last = { l.parts l.last with next := some last } := by
    simp [NgxList.append,setPart,hne]
  have hother : ∀ p, p ≠ last → p ≠ l.last → (l.append last elements).parts p = l.parts p := fun p hp hp' => by
    simp [NgxList.append,setPart,hp,hp']
  have hlink : lastLink (Link.root ()) chain = .next l.last := by rw [hfront,lastLink_concat]
  refine ⟨?_,hself,fun p hp => ?_⟩
  · refine TailQueue.Path.concat (l := Link.root ()) (m := l.links) h.path (by simp) h.nodup ?_ ?_ (fun k hk hk' => ?_) hnew (by simp)
    · exact congrArg ListPart.next hself
    · rw [hlink]
      exact congrArg ListPart.next hold
    · rw [hlink] at hk'
      cases k with
      | root _ => rfl
      | next p => exact congrArg ListPart.next (hother p (fun h => hk (congrArg Link.next h)) fun h =>
          hk' (congrArg Link.next h))
  · have hkeep : ((l.append last elements).parts p).elements = (l.parts p).elements ∧
        ((l.append last elements).parts p).elementCount = (l.parts p).elementCount := by
      by_cases hp' : p = l.last
      · rw [hp',hold]
        exact ⟨rfl,rfl⟩
      · rw [hother p (ne_of_mem_of_not_mem hp hnew) hp']
        exact ⟨rfl,rfl⟩
    exact ⟨hkeep.2,by funext i; rw [entry,entry,hkeep.1]; rfl,hkeep.1⟩

/-- The first slot of a new part. -/
theorem Chained.append_take (h : l.Chained chain) (hfull : l.count l.last = l.capacity) {last : ℕ} (hnew : last ∉ chain)
    (elements : ℕ) : (l.append last elements).take.2.Chained (chain ++ [last]) ∧
      (l.append last elements).take.2.slots (chain ++ [last]) = l.slots chain ++ [(l.append last elements).take.1] ∧
      (l.append last elements).take.1 = elements := by
  obtain ⟨hpath,hself,hparts⟩ := h.append hnew elements
  generalize hl : l.append last elements = l' at hpath hself hparts ⊢
  have hlast : l'.last = last := hl ▸ rfl
  have hempty : l'.count last = 0 := congrArg ListPart.elementCount hself
  have hone : l'.take.2.count last = 1 := by rw [← hlast,take_count_last,hlast,hempty]
  have hcount : ∀ p ∈ chain, l'.take.2.count p = l'.count p := fun p hp =>
    take_count_of_ne (hlast ▸ ne_of_mem_of_not_mem hp hnew)
  have hfirst : l'.take.1 = elements := by
    simp [NgxList.take,hlast,hempty,entry,hself]
  have hcapacity : l'.take.2.capacity = l.capacity := hl ▸ rfl
  refine ⟨⟨hcapacity ▸ h.capacity,?_,?_,?_,?_⟩,?_,hfirst⟩
  · have hpart : l'.take.2.part = l.part := hl ▸ rfl
    rw [hpart]
    exact hpath.congr fun p _ => (take_keeps l' p).2
  · exact List.nodup_append.mpr ⟨h.nodup,List.nodup_singleton _,fun a ha b hb => by
      rw [List.mem_singleton.mp hb]
      exact ne_of_mem_of_not_mem ha hnew⟩
  · rw [List.getLast?_concat]
    exact congrArg some hlast.symm
  · obtain ⟨front,rfl⟩ := h.front
    have hpacked : Packed l.capacity l'.take.2.count (front ++ [l.last]) := h.packed.congr fun p hp =>
      (hcount p hp).trans (hparts p hp).1
    rw [hcapacity]
    refine hpacked.concat ?_ (by omega) (hone.trans_le h.capacity)
    rw [hcount _ (by simp),(hparts _ (by simp)).1,hfull]
  · have hentries : l'.slots (chain ++ [last]) = l.slots chain := by
      rw [slots,entries_concat,partFrom_nil hempty.le,List.append_nil]
      exact entries_congr (fun p hp => (hparts p hp).1) fun p hp => (hparts p hp).2.1
    have hpush := entries_push hcount (fun p _ => congrFun (take_entry l') p) (hone.trans (by rw [hempty]))
    rw [slots,hpush,← slots,hentries]
    simp [NgxList.take,hlast]

/-- The elements of the parts stay where they are. -/
theorem Chained.append_take_elements (h : l.Chained chain) {last : ℕ} (hnew : last ∉ chain) (elements : ℕ) :
    (∀ p ∈ chain, ((l.append last elements).take.2.parts p).elements = (l.parts p).elements) ∧
      ((l.append last elements).take.2.parts last).elements = elements := by
  obtain ⟨-,hself,hparts⟩ := h.append hnew elements
  exact ⟨fun p hp => (take_keeps _ p).1.trans (hparts p hp).2.2,
    (take_keeps _ last).1.trans (congrArg ListPart.elements hself)⟩

end NgxList

/-- The loop visits what is left of its part, and then the elements of the parts behind it. -/
theorem iterateFrom_eq {σ ρ : Type} (l : NgxList) (body : ℕ → σ → σ × Option ρ) (fuel : ℕ) {p : ℕ} {ps : List ℕ} {i : ℕ}
    (hpath : Path l.links (l.parts p).next ps) (hnonempty : ∀ q ∈ ps, 0 < l.count q)
    (hfuel : (partFrom l.count l.entry p i ++ entries l.count l.entry ps).length < fuel) (s : σ) :
    iterateFrom l body fuel p (l.parts p).elements i s =
      .ok (visitAll body (partFrom l.count l.entry p i ++ entries l.count l.entry ps) s) := by
  induction fuel generalizing p ps i s with
  | zero => exact absurd hfuel (Nat.not_lt_zero _)
  | succ fuel ih =>
    -- one turn at an index below the count of its part
    have hvisit : ∀ {p i ps}, i < l.count p → Path l.links (l.parts p).next ps → (∀ q ∈ ps, 0 < l.count q) →
        (partFrom l.count l.entry p i ++ entries l.count l.entry ps).length < fuel + 1 →
        (match body ((l.parts p).elements + l.elementSize*i) s with
        | (s,some r) => .ok (s,some r)
        | (s,none) => iterateFrom l body fuel p (l.parts p).elements (i+1) s) =
        Except.ok (visitAll body (partFrom l.count l.entry p i ++ entries l.count l.entry ps) s) := by
      intro p i ps hi hpath hnonempty hfuel
      rw [partFrom_cons hi,List.cons_append,visitAll,NgxList.entry]
      rw [partFrom_cons hi,List.cons_append,List.length_cons] at hfuel
      cases hbody : body ((l.parts p).elements + l.elementSize*i) s with
      | mk s' r =>
        cases r with
        | some r => rfl
        | none => exact ih hpath hnonempty (Nat.lt_of_succ_lt_succ hfuel) s'
    rw [iterateFrom]
    dsimp only
    by_cases hi : (l.parts p).elementCount ≤ i
    · rw [if_pos hi]
      rw [partFrom_nil (show l.count p ≤ i from hi),List.nil_append] at hfuel ⊢
      cases ps with
      | nil =>
        rw [show (l.parts p).next = none from hpath]
        rfl
      | cons q qs =>
        obtain ⟨hq,hrest⟩ := hpath
        have hpos : 0 < (l.parts q).elementCount := hnonempty q List.mem_cons_self
        rw [hq]
        dsimp only
        rw [if_neg (not_le.mpr hpos)]
        exact hvisit hpos hrest (fun r hr => hnonempty r (List.mem_cons_of_mem _ hr)) hfuel
    · rw [if_neg hi,if_neg hi]
      exact hvisit (not_le.mp hi) hpath hnonempty hfuel

/-- More fuel changes no result. -/
theorem iterateFrom_succ {σ ρ : Type} {l : NgxList} {body : ℕ → σ → σ × Option ρ} {fuel part data i : ℕ} {s : σ}
    {r : σ × Option ρ} (h : iterateFrom l body fuel part data i s = .ok r) :
    iterateFrom l body (fuel + 1) part data i s = .ok r := by
  induction fuel generalizing part data i s with
  | zero => cases h
  | succ fuel ih =>
    have hvisit : ∀ part data i, (if (l.parts part).elementCount ≤ i then .error .outOfBounds
        else match body (data + l.elementSize*i) s with
          | (s,some r) => .ok (s,some r)
          | (s,none) => iterateFrom l body fuel part data (i+1) s) = Except.ok r →
        (if (l.parts part).elementCount ≤ i then .error .outOfBounds
        else match body (data + l.elementSize*i) s with
          | (s,some r) => .ok (s,some r)
          | (s,none) => iterateFrom l body (fuel+1) part data (i+1) s) = Except.ok r := by
      intro part data i h
      split_ifs at h ⊢ with hi
      generalize body (data + l.elementSize*i) s = turn at h ⊢
      obtain ⟨s',result⟩ := turn
      cases result with
      | some r => exact h
      | none => exact ih h
    rw [iterateFrom] at h ⊢
    dsimp only at h ⊢
    split_ifs at h ⊢ with hi
    · generalize (l.parts part).next = next at h ⊢
      cases next with
      | none => exact h
      | some part => exact hvisit part _ 0 h
    · have hturn := hvisit part data i
      rw [if_neg hi,if_neg hi] at hturn
      exact hturn h

theorem iterate_mono {σ ρ : Type} {l : NgxList} {body : ℕ → σ → σ × Option ρ} {fuel fuel' : ℕ} (hle : fuel ≤ fuel')
    {s : σ} {r : σ × Option ρ} (h : iterate l body fuel s = .ok r) : iterate l body fuel' s = .ok r := by
  induction hle with
  | refl => exact h
  | step _ ih => exact iterateFrom_succ ih

/-- The iteration visits the elements of the list and ends. -/
theorem iterate_eq {σ ρ : Type} {l : NgxList} {chain : List ℕ} (h : l.Chained chain) (body : ℕ → σ → σ × Option ρ)
    {fuel : ℕ} (hfuel : (l.slots chain).length < fuel) (s : σ) :
    iterate l body fuel s = .ok (visitAll body (l.slots chain) s) := by
  obtain ⟨ps,rfl⟩ := h.cons
  exact iterateFrom_eq l body fuel h.path.2 h.packed.nonempty hfuel s

end InsideNginx.Lists
