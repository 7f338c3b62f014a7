import InsideNginx.General.LinkedTree
import InsideNginx.Radix.Tree

/-! The invariant of the node heap: the nodes below the root form a tree with parent links, the
free list is apart from them, and every node lies in memory of its own. Each elementary change
of the heap has one lemma here. -/
namespace InsideNginx.Radix

@[simp] theorem child_setChild (node : RadixNode) (b x : Bool) (c : Option ℕ) :
    (node.setChild b c).child x = if x = b then c else node.child x := by
  cases b <;> cases x <;> rfl

@[simp] theorem parent_setChild (node : RadixNode) (b : Bool) (c : Option ℕ) :
    (node.setChild b c).parent = node.parent := by cases b <;> rfl

@[simp] theorem value_setChild (node : RadixNode) (b : Bool) (c : Option ℕ) :
    (node.setChild b c).value = node.value := by cases b <;> rfl

theorem hasChild_eq_false {node : RadixNode} : node.hasChild = false ↔ ∀ b, node.child b = none := by
  simp [RadixNode.hasChild,RadixNode.child,and_comm]

/-- The value of a node as an optional value. -/
def valueOf (v : BitVec 64) : Option (BitVec 64) := if v = noValue then none else some v

@[simp] theorem valueOf_noValue : valueOf noValue = none := rfl

theorem value_eq_getD (v : BitVec 64) : v = (valueOf v).getD noValue := by
  by_cases hv : v = noValue
  · simp [hv]
  · simp [valueOf,hv]

theorem valueOf_injective : Function.Injective valueOf := by
  intro v v' h
  rw [value_eq_getD v,h,← value_eq_getD v']

theorem valueOf_eq_none {v : BitVec 64} : valueOf v = none ↔ v = noValue := by simp [valueOf]

namespace RadixTree
variable (t : RadixTree)

def child (a : ℕ) (b : Bool) : Option ℕ := (t.heap a).child b

/-- The node at the end of a path from the root. -/
def walk (p : List Bool) : Option ℕ := LinkedTree.walk t.child t.root p

def Reached (a : ℕ) : Prop := ∃ p, t.walk p = some a

/-- The value that the tree stores for a prefix. -/
def stored (p : List Bool) : Option (BitVec 64) := (t.walk p).bind fun a => valueOf (t.heap a).value

end RadixTree

variable {pagesize : ℕ} {page : ℕ → Option ℕ} {t : RadixTree}

@[simp] theorem walk_nil : t.walk [] = t.root := by simp [RadixTree.walk]

theorem walk_concat (p : List Bool) (b : Bool) :
    t.walk (p ++ [b]) = (t.walk p).bind fun a => t.child a b := LinkedTree.walk_concat ..

theorem stored_of_walk {p : List Bool} {a : ℕ} (h : t.walk p = some a) :
    t.stored p = valueOf (t.heap a).value := by simp [RadixTree.stored,h]

theorem stored_of_none {p : List Bool} (h : t.walk p = none) : t.stored p = none := by
  simp [RadixTree.stored,h]

theorem walk_congr {t' : RadixTree} (hheap : t'.heap = t.heap) (hroot : t'.root = t.root)
    (p : List Bool) : t'.walk p = t.walk p := by
  have hchild : t'.child = t.child := by funext a b; simp only [RadixTree.child,hheap]
  simp only [RadixTree.walk,hchild,hroot]

theorem stored_congr {t' : RadixTree} (hheap : t'.heap = t.heap) (hroot : t'.root = t.root)
    (p : List Bool) : t'.stored p = t.stored p := by
  simp only [RadixTree.stored,walk_congr hheap hroot,hheap]

/-! ### The tree -/

/-- The nodes below the root form a tree of depth at most 32 with coherent parent links. -/
structure Shaped (t : RadixTree) : Prop where
  root : ∃ r, t.root = some r ∧ (t.heap r).parent = none
  parent : ∀ p b a c, t.walk p = some a → t.child a b = some c → (t.heap c).parent = some a
  inj : ∀ p q a, t.walk p = some a → t.walk q = some a → p = q
  depth : ∀ p a, t.walk p = some a → p.length ≤ 32

theorem Shaped.congr {t' : RadixTree} (h : Shaped t) (hheap : t'.heap = t.heap)
    (hroot : t'.root = t.root) : Shaped t' := by
  have hwalk := walk_congr hheap hroot
  refine ⟨?_,fun p b a c hp hc => ?_,fun p q a hp hq => ?_,fun p a hp => ?_⟩
  · rw [hroot,hheap]; exact h.root
  · rw [hheap]
    exact h.parent p b a c (hwalk p ▸ hp) (by simpa only [RadixTree.child,hheap] using hc)
  · exact h.inj p q a (hwalk p ▸ hp) (hwalk q ▸ hq)
  · exact h.depth p a (hwalk p ▸ hp)

theorem Shaped.walk_concat_ne {a : ℕ} {p : List Bool} {b : Bool} (h : Shaped t)
    (hp : t.walk p = some a) : t.walk (p ++ [b]) ≠ some a := by
  intro hc
  have := h.inj _ _ _ hp hc
  simp at this

/-- A stored value changes nothing but the value. -/
theorem Shaped.storeValue {p : List Bool} {a : ℕ} (h : Shaped t) (hp : t.walk p = some a)
    (v : BitVec 64) :
    Shaped (t.store a { t.heap a with value := v }) ∧
    (∀ q, (t.store a { t.heap a with value := v }).walk q = t.walk q) ∧
    ∀ q, (t.store a { t.heap a with value := v }).stored q = if q = p then valueOf v else t.stored q := by
  have hchild : (t.store a { t.heap a with value := v }).child = t.child := by
    funext c b
    by_cases hc : c = a
    · subst hc; simp [RadixTree.child,RadixTree.store,RadixNode.child]
    · simp [RadixTree.child,RadixTree.store,hc]
  have hparent : ∀ c, ((t.store a { t.heap a with value := v }).heap c).parent = (t.heap c).parent := by
    intro c
    by_cases hc : c = a
    · subst hc; simp [RadixTree.store]
    · simp [RadixTree.store,hc]
  have hwalk : ∀ q, (t.store a { t.heap a with value := v }).walk q = t.walk q := by
    intro q
    simp only [RadixTree.walk,hchild]
    rfl
  refine ⟨⟨?_,?_,?_,?_⟩,hwalk,fun q => ?_⟩
  · obtain ⟨r,hr,hrp⟩ := h.root
    exact ⟨r,hr,(hparent r).trans hrp⟩
  · intro q b c d hq hc
    rw [hparent]
    exact h.parent q b c d (by rwa [← hwalk]) (by rwa [← hchild])
  · intro q q' c hq hq'
    exact h.inj q q' c (by rwa [← hwalk]) (by rwa [← hwalk])
  · intro q c hq
    exact h.depth q c (by rwa [← hwalk])
  · simp only [RadixTree.stored,hwalk]
    by_cases hq : q = p
    · subst hq; simp [hp,RadixTree.store]
    · rw [if_neg hq]
      cases hc : t.walk q with
      | none => rfl
      | some c =>
        have hca : c ≠ a := fun he => hq (h.inj q p a (he ▸ hc) hp)
        simp [RadixTree.store,hca]

/-- Link a new node below `a`. -/
def RadixTree.link (t : RadixTree) (a : ℕ) (b : Bool) (c : ℕ) : RadixTree :=
  let t := t.store c ⟨none,none,some a,noValue⟩
  t.store a ((t.heap a).setChild b (some c))

/-- Unlink the node `c` from its parent `a` and put it on the free list. -/
def RadixTree.unlink (t : RadixTree) (a : ℕ) (b : Bool) (c : ℕ) : RadixTree :=
  let t := t.store a ((t.heap a).setChild b none)
  let t := t.store c { t.heap c with right := t.freeList }
  { t with freeList := some c }

theorem Shaped.link {p : List Bool} {a c : ℕ} {b : Bool} (h : Shaped t) (hp : t.walk p = some a)
    (hnew : t.walk (p ++ [b]) = none) (hlength : p.length < 32) (hc : ¬ t.Reached c) :
    Shaped (t.link a b c) ∧
    (∀ q, (t.link a b c).walk q = if q = p ++ [b] then some c else t.walk q) ∧
    ∀ q, (t.link a b c).stored q = t.stored q := by
  have hca : c ≠ a := fun he => hc ⟨p,he ▸ hp⟩
  have hheap : ∀ d, (t.link a b c).heap d = if d = a then (t.heap a).setChild b (some c)
      else if d = c then ⟨none,none,some a,noValue⟩ else t.heap d := by
    intro d
    by_cases hda : d = a
    · subst hda; simp [RadixTree.link,RadixTree.store,Ne.symm hca]
    · by_cases hdc : d = c
      · subst hdc; simp [RadixTree.link,RadixTree.store,hda]
      · simp [RadixTree.link,RadixTree.store,hda,hdc]
  have hwalk : ∀ q, (t.link a b c).walk q = if q = p ++ [b] then some c else t.walk q := by
    refine LinkedTree.walk_store hp ?_ ?_ ?_ ?_
    · simp [RadixTree.child,hheap]
    · rintro d ⟨⟩ x
      simp [RadixTree.child,hheap,hca,RadixNode.child]
    · intro x
      exact LinkedTree.walk_eq_none_below hnew (List.prefix_append _ _)
    · intro q d x hq hqp hqx
      have hdc : d ≠ c := fun he => hc ⟨q,he ▸ hq⟩
      by_cases hda : d = a
      · have hqp : q = p := h.inj q p a (hda ▸ hq) hp
        have hxb : x ≠ b := fun he => hqx (by rw [hqp,he])
        simp [RadixTree.child,hheap,hda,hxb]
      · simp [RadixTree.child,hheap,hda,hdc]
  have hparent : ∀ e, e ≠ c → ((t.link a b c).heap e).parent = (t.heap e).parent := by
    intro e he
    by_cases hea : e = a
    · subst hea; simp [hheap]
    · simp [hheap,hea,he]
  have hreached : ∀ {q : List Bool} {d : ℕ}, t.walk q = some d → d ≠ c := fun hq he => hc ⟨_,he ▸ hq⟩
  refine ⟨⟨?_,?_,?_,?_⟩,hwalk,fun q => ?_⟩
  · obtain ⟨r,hr,hrp⟩ := h.root
    exact ⟨r,hr,(hparent r (hreached (q := []) (by simpa using hr))).trans hrp⟩
  · intro q x d e hq he
    rw [hwalk] at hq
    split at hq
    · obtain rfl := Option.some.inj hq
      simp [RadixTree.child,hheap,hca,RadixNode.child] at he
    · have hd := hreached hq
      by_cases hda : d = a
      · subst hda
        have hx : (if x = b then some c else t.child d x) = some e := by
          simpa [RadixTree.child,hheap] using he
        split at hx
        · obtain rfl := Option.some.inj hx
          simp [hheap,hca]
        · have hwe : t.walk (q ++ [x]) = some e := by simp [walk_concat,hq,hx]
          exact (hparent e (hreached hwe)).trans (h.parent q x d e hq hx)
      · have hx : t.child d x = some e := by simpa [RadixTree.child,hheap,hda,hd] using he
        have hwe : t.walk (q ++ [x]) = some e := by simp [walk_concat,hq,hx]
        exact (hparent e (hreached hwe)).trans (h.parent q x d e hq hx)
  · intro q q' d hq hq'
    rw [hwalk] at hq hq'
    split at hq <;> split at hq'
    · simp_all
    · exact absurd (Option.some.inj hq).symm (hreached hq')
    · exact absurd (Option.some.inj hq').symm (hreached hq)
    · exact h.inj q q' d hq hq'
  · intro q d hq
    rw [hwalk] at hq
    split at hq
    · rename_i hqp; simp [hqp]; omega
    · exact h.depth q d hq
  · by_cases hq : q = p ++ [b]
    · subst hq
      rw [stored_of_none hnew,stored_of_walk (a := c) (by simp [hwalk])]
      simp [hheap,hca]
    · simp only [RadixTree.stored,hwalk,if_neg hq]
      cases hd : t.walk q with
      | none => rfl
      | some d =>
        by_cases hda : d = a
        · subst hda; simp [hheap]
        · simp [hheap,hda,hreached hd]

theorem Shaped.unlink {p : List Bool} {a c : ℕ} {b : Bool} (h : Shaped t) (hp : t.walk p = some a)
    (hc : t.walk (p ++ [b]) = some c) (hleaf : (t.heap c).hasChild = false) :
    Shaped (t.unlink a b c) ∧
    (∀ q, (t.unlink a b c).walk q = if q = p ++ [b] then none else t.walk q) ∧
    ∀ q, (t.unlink a b c).stored q = if q = p ++ [b] then none else t.stored q := by
  have hca : c ≠ a := fun he => h.walk_concat_ne hp (he ▸ hc)
  have hheap : ∀ d, (t.unlink a b c).heap d = if d = c then { t.heap c with right := t.freeList }
      else if d = a then (t.heap a).setChild b none else t.heap d := by
    intro d
    by_cases hdc : d = c
    · subst hdc; simp [RadixTree.unlink,RadixTree.store,hca]
    · by_cases hda : d = a
      · subst hda; simp [RadixTree.unlink,RadixTree.store,hdc]
      · simp [RadixTree.unlink,RadixTree.store,hda,hdc]
  have hreached : ∀ {q : List Bool} {d : ℕ}, t.walk q = some d → q ≠ p ++ [b] → d ≠ c :=
    fun hq hne he => hne (h.inj _ _ _ (he ▸ hq) hc)
  have hwalk : ∀ q, (t.unlink a b c).walk q = if q = p ++ [b] then none else t.walk q := by
    refine LinkedTree.walk_store hp ?_ (by simp) ?_ ?_
    · simp [RadixTree.child,hheap,Ne.symm hca]
    · intro x
      change t.walk (p ++ [b] ++ [x]) = none
      rw [walk_concat,hc]
      exact hasChild_eq_false.mp hleaf x
    · intro q d x hq hqp hqx
      have hdc := hreached hq hqp
      by_cases hda : d = a
      · have hqp : q = p := h.inj q p a (hda ▸ hq) hp
        have hxb : x ≠ b := fun he => hqx (by rw [hqp,he])
        simp [RadixTree.child,hheap,hda,hxb,Ne.symm hca]
      · simp [RadixTree.child,hheap,hda,hdc]
  have hparent : ∀ e, ((t.unlink a b c).heap e).parent = (t.heap e).parent := by
    intro e
    by_cases hec : e = c
    · subst hec; simp [hheap]
    · by_cases hea : e = a
      · subst hea; simp [hheap,hec]
      · simp [hheap,hea,hec]
  refine ⟨⟨?_,?_,?_,?_⟩,hwalk,fun q => ?_⟩
  · obtain ⟨r,hr,hrp⟩ := h.root
    exact ⟨r,hr,(hparent r).trans hrp⟩
  · intro q x d e hq he
    rw [hwalk] at hq
    split at hq
    · cases hq
    · rename_i hqp
      have hd := hreached hq hqp
      rw [hparent]
      by_cases hda : d = a
      · subst hda
        have hx : x ≠ b ∧ t.child d x = some e := by
          simpa [RadixTree.child,hheap,hd] using he
        exact h.parent q x d e hq hx.2
      · exact h.parent q x d e hq (by simpa [RadixTree.child,hheap,hda,hd] using he)
  · intro q q' d hq hq'
    rw [hwalk] at hq hq'
    split at hq <;> split at hq'
    · cases hq
    · cases hq
    · cases hq'
    · exact h.inj q q' d hq hq'
  · intro q d hq
    rw [hwalk] at hq
    split at hq
    · cases hq
    · exact h.depth q d hq
  · simp only [RadixTree.stored,hwalk]
    split
    · rfl
    · rename_i hqp
      cases hd : t.walk q with
      | none => rfl
      | some d =>
        by_cases hda : d = a
        · subst hda; simp [hheap,hreached hd hqp]
        · simp [hheap,hda,hreached hd hqp]

/-! ### The memory of the nodes -/

/-- The free list from a pointer on: the nodes are linked by `right`. -/
def FreeChain (heap : ℕ → RadixNode) : Option ℕ → List ℕ → Prop
  | none,[] => True
  | some a,b::bs => a = b ∧ FreeChain heap (heap a).right bs
  | _,_ => False

theorem FreeChain.congr {heap heap' : ℕ → RadixNode} {a : Option ℕ} {free : List ℕ}
    (h : FreeChain heap a free) (hsame : ∀ b ∈ free, heap' b = heap b) : FreeChain heap' a free := by
  induction free generalizing a with
  | nil => cases a <;> exact h
  | cons b bs ih =>
    cases a with
    | none => exact h
    | some a =>
      obtain ⟨rfl,hrest⟩ := h
      refine ⟨rfl,?_⟩
      rw [hsame a List.mem_cons_self]
      exact ih hrest fun c hc => hsame c (List.mem_cons_of_mem _ hc)

/-- The pages do not overlap. -/
def FreshPages (pagesize : ℕ) (page : ℕ → Option ℕ) : Prop :=
  ∀ i j p q, i ≠ j → page i = some p → page j = some q → p + pagesize ≤ q ∨ q + pagesize ≤ p

/-- Pages one after the other. -/
theorem freshPages_mul (pagesize : ℕ) : FreshPages pagesize fun k => some (pagesize*k) := by
  rintro i j p q hij ⟨⟩ ⟨⟩
  rcases Nat.lt_or_gt_of_ne hij with h | h
  · exact .inl (Nat.mul_le_mul_left pagesize h)
  · exact .inr (Nat.mul_le_mul_left pagesize h)

/-- A node lies in a page, and outside what is left of the current page. -/
structure Carved (pagesize : ℕ) (page : ℕ → Option ℕ) (t : RadixTree) (a : ℕ) : Prop where
  inPage : ∃ i < t.calls, ∃ q, page i = some q ∧ q ≤ a ∧ a + nodeSize ≤ q + pagesize
  apart : nodeSize ≤ t.size → ∀ s, t.start = some s → a + nodeSize ≤ s ∨ s + t.size ≤ a

/-- The memory: `free` is the free list, the nodes in use are not on it, and what is left of the
current page holds neither. -/
structure Allocated (pagesize : ℕ) (page : ℕ → Option ℕ) (t : RadixTree) (used : ℕ → Prop)
    (free : List ℕ) : Prop where
  chain : FreeChain t.heap t.freeList free
  nodup : free.Nodup
  apart : ∀ a ∈ free, ¬ used a
  carved : ∀ a, used a ∨ a ∈ free → Carved pagesize page t a
  region : nodeSize ≤ t.size → ∃ i < t.calls, ∃ q s, page i = some q ∧ t.start = some s ∧
    q ≤ s ∧ s + t.size ≤ q + pagesize

/-- Stores to nodes in use do not disturb the memory. -/
theorem Allocated.congr {used used' : ℕ → Prop} {free : List ℕ} {t' : RadixTree}
    (h : Allocated pagesize page t used free) (hused : ∀ a, used' a ↔ used a)
    (hheap : ∀ a, ¬ used a → t'.heap a = t.heap a) (hcalls : t'.calls = t.calls)
    (hfree : t'.freeList = t.freeList) (hstart : t'.start = t.start) (hsize : t'.size = t.size) :
    Allocated pagesize page t' used' free where
  chain := hfree ▸ h.chain.congr fun b hb => hheap b (h.apart b hb)
  nodup := h.nodup
  apart a ha := by rw [hused]; exact h.apart a ha
  carved a ha := by
    obtain ⟨hin,hapart⟩ := h.carved a (by rwa [hused] at ha)
    exact ⟨hcalls ▸ hin,by rwa [hsize,hstart]⟩
  region := by rw [hsize,hcalls,hstart]; exact h.region

/-- Two nodes do not overlap. -/
def Apart (a b : ℕ) : Prop := a + nodeSize ≤ b ∨ b + nodeSize ≤ a

/-- What is left of the current page, with the number of calls of `ngx_pmemalign`. -/
def RadixTree.memory (t : RadixTree) : ℕ × Option ℕ × ℕ := (t.calls,t.start,t.size)

/-- A node is carved from what is left of the current page. -/
theorem Allocated.carve {used : ℕ → Prop} (h : Allocated pagesize page t used [])
    (hsize : nodeSize ≤ t.size) :
    ∃ c t', t.carve = (some c,t') ∧ ¬ used c ∧ t'.heap = t.heap ∧ t'.root = t.root ∧
      t'.calls = t.calls ∧ Allocated pagesize page t' (fun a => used a ∨ a = c) [] ∧
      t'.size < t.size ∧ ∀ a, used a → Apart a c := by
  obtain ⟨i,hi,q,s,hq,hs,hqs,hend⟩ := h.region hsize
  have hout : ∀ a, used a → a + nodeSize ≤ s ∨ s + t.size ≤ a := fun a ha =>
    (h.carved a (.inl ha)).apart hsize s hs
  have hpos : 0 < nodeSize := by decide
  refine ⟨s,{ t with start := some (s + nodeSize), size := t.size - nodeSize },
    by rw [RadixTree.carve,hs]; rfl,fun hu => ?_,rfl,rfl,rfl,?_,Nat.sub_lt (by omega) hpos,fun a ha => ?_⟩
  · have := hout s hu
    omega
  · refine ⟨h.chain,.nil,by simp,?_,?_⟩
    · rintro a (ha | ha)
      · rcases ha with ha | rfl
        · refine ⟨(h.carved a (.inl ha)).inPage,fun _ s' hs' => ?_⟩
          have := hout a ha
          obtain rfl : s + nodeSize = s' := by simpa using hs'
          simp only
          omega
        · refine ⟨⟨i,hi,q,hq,hqs,by omega⟩,fun _ s' hs' => ?_⟩
          obtain rfl : a + nodeSize = s' := by simpa using hs'
          exact .inl le_rfl
      · cases ha
    · intro hleft
      simp only at hleft
      exact ⟨i,hi,q,s + nodeSize,hq,by simp,by omega,by simp only; omega⟩
  · have := hout a ha
    simp only [Apart]
    omega

/-- A call of `ngx_pmemalign` has failed. -/
def Starved (page : ℕ → Option ℕ) (t : RadixTree) : Prop := ∃ k < t.calls, page k = none

/-- A call of `ngx_pmemalign` between two trees has failed. -/
def StarvedBetween (page : ℕ → Option ℕ) (t t' : RadixTree) : Prop := ∃ k, t.calls ≤ k ∧ k < t'.calls ∧ page k = none

theorem StarvedBetween.starved {page : ℕ → Option ℕ} {t t' : RadixTree} (h : StarvedBetween page t t') : Starved page t' := by
  obtain ⟨k,-,hlt,hnone⟩ := h
  exact ⟨k,hlt,hnone⟩

theorem StarvedBetween.of_le {page : ℕ → Option ℕ} {t₀ t t' : RadixTree} (h : StarvedBetween page t t')
    (hcalls : t₀.calls ≤ t.calls) : StarvedBetween page t₀ t' := by
  obtain ⟨k,hle,hlt,hnone⟩ := h
  exact ⟨k,hcalls.trans hle,hlt,hnone⟩

/-- `ngx_radix_alloc` returns NULL, or a node that is not in use: the first of the free list, or
a new one when the free list is empty. -/
theorem radixAlloc_spec (hpages : FreshPages pagesize page) (hpagesize : nodeSize ≤ pagesize)
    {used : ℕ → Prop} {free : List ℕ} (h : Allocated pagesize page t used free) :
    (∃ t', radixAlloc pagesize page t = (none,t') ∧ t'.heap = t.heap ∧ t'.root = t.root ∧
      t.calls ≤ t'.calls ∧ StarvedBetween page t t' ∧ Allocated pagesize page t' used free) ∨
    ∃ c t' free', radixAlloc pagesize page t = (some c,t') ∧ ¬ used c ∧ t'.heap = t.heap ∧
      t'.root = t.root ∧ t.calls ≤ t'.calls ∧ Allocated pagesize page t' (fun a => used a ∨ a = c) free' ∧
      (t'.memory = t.memory ∧ free = c::free' ∨
        t'.memory ≠ t.memory ∧ t.freeList = none ∧ free = [] ∧ free' = [] ∧ ∀ a, used a → Apart a c) := by
  unfold radixAlloc
  cases hf : t.freeList with
  | some c =>
    cases free with
    | nil => have := h.chain; rw [hf] at this; exact this.elim
    | cons b free =>
      have hchain := h.chain
      rw [hf] at hchain
      obtain ⟨rfl,hchain⟩ := hchain
      refine .inr ⟨c,_,free,rfl,h.apart c List.mem_cons_self,rfl,rfl,le_rfl,
        ⟨hchain,h.nodup.of_cons,?_,?_,h.region⟩,.inl ⟨rfl,rfl⟩⟩
      · rintro a ha (hu | rfl)
        · exact h.apart a (List.mem_cons_of_mem _ ha) hu
        · exact (List.nodup_cons.mp h.nodup).1 ha
      · rintro a ((hu | rfl) | ha)
        · exact ⟨(h.carved a (.inl hu)).inPage,(h.carved a (.inl hu)).apart⟩
        · exact ⟨(h.carved a (.inr List.mem_cons_self)).inPage,(h.carved a (.inr List.mem_cons_self)).apart⟩
        · exact ⟨(h.carved a (.inr (List.mem_cons_of_mem _ ha))).inPage,
            (h.carved a (.inr (List.mem_cons_of_mem _ ha))).apart⟩
  | none =>
    obtain rfl : free = [] := by
      cases free with
      | nil => rfl
      | cons b free => have := h.chain; rw [hf] at this; exact this.elim
    have hinPage : ∀ a, used a ∨ a ∈ [] → ∃ i < t.calls + 1, ∃ q, page i = some q ∧ q ≤ a ∧
        a + nodeSize ≤ q + pagesize := by
      intro a ha
      obtain ⟨i,hi,hq⟩ := (h.carved a ha).inPage
      exact ⟨i,by omega,hq⟩
    by_cases hsize : t.size < nodeSize
    · simp only [if_pos hsize]
      cases hp : page t.calls with
      | none =>
        refine .inl ⟨_,rfl,rfl,rfl,Nat.le_succ _,⟨t.calls,le_rfl,Nat.lt_succ_self _,hp⟩,hf ▸ h.chain,.nil,by simp,
          fun a ha => ⟨hinPage a ha,?_⟩,?_⟩
        · intro hle; simp only at hle; omega
        · intro hle; simp only at hle; omega
      | some q =>
        right
        have hnew : Allocated pagesize page
            { t with calls := t.calls + 1, freeList := none, start := some q, size := pagesize } used [] := by
          refine ⟨trivial,.nil,by simp,fun a ha => ⟨hinPage a ha,fun _ s hs => ?_⟩,fun _ => ?_⟩
          · obtain rfl : q = s := by simpa using hs
            obtain ⟨i,hi,q',hq',hle,hend⟩ := (h.carved a ha).inPage
            have := hpages i t.calls q' q (by omega) hq' hp
            simp only
            omega
          · exact ⟨t.calls,by simp,q,q,hp,rfl,le_rfl,le_rfl⟩
        obtain ⟨c,t',hcarve,hc,hheap,hroot,hcalls,hall,-,hapart⟩ := hnew.carve hpagesize
        refine ⟨c,t',[],hcarve,hc,hheap,hroot,hcalls ▸ Nat.le_succ _,hall,.inr ⟨fun he => ?_,trivial,trivial,rfl,hapart⟩⟩
        have hsame : t'.calls = t.calls := congrArg Prod.fst he
        rw [hcalls] at hsame
        simp at hsame
    · simp only [if_neg hsize]
      right
      obtain ⟨c,t',hcarve,hc,hheap,hroot,hcalls,hall,hless,hapart⟩ := h.carve (by omega)
      refine ⟨c,t',[],hcarve,hc,hheap,hroot,hcalls.ge,hall,.inr ⟨fun he => ?_,trivial,trivial,rfl,hapart⟩⟩
      have hsame : t'.size = t.size := congrArg (fun m => m.2.2) he
      omega

end InsideNginx.Radix
