import InsideNginx.General.TransitionSystem
import InsideNginx.Radix.Operations

/-! Runs of insertions and deletions on a created tree: at any time the tree is the map from
the prefixes that the run has stored, and lookup is longest-prefix match in that map. -/
namespace InsideNginx.Radix
variable {pagesize : ℕ} {page : ℕ → Option ℕ} {t : RadixTree} {free : List ℕ}

/-! ### Creation -/

theorem Allocated.empty (heap : ℕ → RadixNode) :
    Allocated pagesize page ⟨heap,0,none,none,none,0⟩ (fun _ => False) [] :=
  ⟨trivial,.nil,by simp,by simp,fun h => absurd h (by simp [nodeSize])⟩

/-- Below a root without children there is nothing. -/
theorem walk_root {r : ℕ} (hroot : t.root = some r) (hnode : t.heap r = ⟨none,none,none,noValue⟩)
    {q : List Bool} {a : ℕ} (hq : t.walk q = some a) : q = [] ∧ a = r := by
  cases q with
  | nil => exact ⟨rfl,by simpa [hroot] using hq.symm⟩
  | cons b bs =>
    have hchild : t.child r b = none := by cases b <;> simp [RadixTree.child,hnode,RadixNode.child]
    simp [RadixTree.walk,hroot,LinkedTree.walk,hchild] at hq

/-- A root without children is a well-formed tree, which stores nothing. -/
theorem WellFormed.root {t : RadixTree} {r : ℕ} (hroot : t.root = some r)
    (hnode : t.heap r = ⟨none,none,none,noValue⟩) (hall : Allocated pagesize page t (· = r) free) :
    WellFormed pagesize page t free ∧ (∀ a, t.Reached a ↔ a = r) ∧ ∀ q, t.stored q = none := by
  have hwalk : ∀ q a, t.walk q = some a → q = [] ∧ a = r := fun q a => walk_root hroot hnode
  have hused : ∀ a, t.Reached a ↔ a = r := by
    intro a
    constructor
    · rintro ⟨q,hq⟩; exact (hwalk q a hq).2
    · rintro rfl; exact ⟨[],by simpa using hroot⟩
  refine ⟨⟨⟨⟨r,hroot,by rw [hnode]⟩,?_,?_,?_⟩,hall.congr hused (fun _ _ => rfl) rfl rfl rfl rfl⟩,hused,
    fun q => ?_⟩
  · intro p b a c hp hc
    obtain ⟨rfl,rfl⟩ := hwalk p a hp
    cases b <;> simp [RadixTree.child,hnode,RadixNode.child] at hc
  · intro p q a hp hq
    exact (hwalk p a hp).1.trans (hwalk q a hq).1.symm
  · intro p a hp
    simp [(hwalk p a hp).1]
  · cases hq : t.walk q with
    | none => exact stored_of_none hq
    | some a =>
      obtain ⟨rfl,rfl⟩ := hwalk q a hq
      rw [stored_of_walk hq,hnode]
      rfl

/-- The root that a tree is created with. -/
theorem created_root {r : ℕ} (hall : Allocated pagesize page t (fun a => False ∨ a = r) free) :
    WellFormed pagesize page { t.store r ⟨none,none,none,noValue⟩ with root := some r } free ∧
    (∀ a, { t.store r ⟨none,none,none,noValue⟩ with root := some r }.Reached a ↔ a = r) ∧
    ∀ q, { t.store r ⟨none,none,none,noValue⟩ with root := some r }.stored q = none := by
  refine WellFormed.root rfl (by simp [RadixTree.store]) (hall.congr (by simp) (fun a ha => ?_) rfl rfl rfl rfl)
  have har : a ≠ r := fun he => ha (.inr he)
  simp [RadixTree.store,har]

/-- A tree of preallocated nodes only. -/
def Blank (pagesize : ℕ) (page : ℕ → Option ℕ) (t : RadixTree) : Prop :=
  (∃ free, WellFormed pagesize page t free) ∧ ∀ q, t.stored q = none

/-- One level of preallocation ends when the key wraps, which takes `rounds` iterations. -/
theorem preallocateLevel_spec (hpages : FreshPages pagesize page) (hpagesize : nodeSize ≤ pagesize)
    {n : ℕ} (hn : n ≤ 32) (inc : BitVec 32) {fuel rounds : ℕ} {key : BitVec 32} (h : Blank pagesize page t)
    (hrounds : key.toNat + rounds*inc.toNat = 2^32 ∨ key = 0 ∧ inc = 0) (hpos : 0 < rounds)
    (hfuel : rounds ≤ fuel) :
    ∃ r, preallocateLevel pagesize page (prefixMask n) inc fuel key t = .ok r ∧
      ∀ t', r = some t' → Blank pagesize page t' := by
  induction fuel generalizing rounds key t with
  | zero => omega
  | succ fuel ih =>
    obtain ⟨⟨free,hwf⟩,hblank⟩ := h
    obtain ⟨rc,t',free',hinsert,hwf',-,hbusy,-,-,hstored⟩ :=
      radix32treeInsert_spec hpages hpagesize hn hwf key noValue
    have hblank' : Blank pagesize page t' := by
      refine ⟨⟨free',hwf'⟩,fun q => ?_⟩
      rw [hstored]
      split
      · rfl
      · exact hblank q
    rw [preallocateLevel,hinsert]
    simp only [bind,Except.bind,pure,Except.pure]
    cases rc with
    | error => exact ⟨none,rfl,by simp⟩
    | busy => exact ⟨none,rfl,by simp⟩
    | ok =>
      by_cases hz : key + inc = 0
      · exact ⟨some t',by simp [hz],fun t'' ht => Option.some.inj ht ▸ hblank'⟩
      · simp only [if_neg hz]
        rcases hrounds with hsum | ⟨rfl,rfl⟩
        · have hadd := BitVec.toNat_add key inc
          have hlt := key.isLt
          obtain ⟨rounds,rfl⟩ : ∃ k, rounds = k + 1 := ⟨rounds - 1,by omega⟩
          rw [Nat.add_mul,Nat.one_mul] at hsum
          cases rounds with
          | zero =>
            refine absurd (BitVec.eq_of_toNat_eq ?_) hz
            rw [hadd]
            simp at hsum
            simp [hsum]
          | succ rounds =>
            have hne : inc ≠ 0 := fun he => by simp [he] at hsum; omega
            have hpos' : 0 < inc.toNat := Nat.pos_of_ne_zero fun he => hne (BitVec.eq_of_toNat_eq (by simpa using he))
            have hle : inc.toNat ≤ (rounds+1)*inc.toNat := Nat.le_mul_of_pos_left _ (by omega)
            refine ih hblank' (.inl (show (key + inc).toNat + (rounds+1)*inc.toNat = 2^32 from ?_))
              (Nat.succ_pos rounds) (by omega)
            rw [hadd,Nat.mod_eq_of_lt (by omega)]
            omega
        · exact absurd (by simp) hz

theorem prefixMask_succ {n : ℕ} (h : n ≤ 32) : prefixMask n >>> 1 ||| topBit = prefixMask (min (n+1) 32) := by
  have hall : ∀ n : Fin 33, prefixMask n.val >>> 1 ||| topBit = prefixMask (min (n.val+1) 32) := by
    decide +kernel
  exact hall ⟨n,by omega⟩

/-- The increment of a level divides the keys into `2^(d+1)` steps. -/
theorem topBit_rounds (d : ℕ) : ∃ rounds, 0 < rounds ∧ rounds ≤ 2^32 ∧
    (rounds*(topBit >>> d).toNat = 2^32 ∨ topBit >>> d = 0) := by
  by_cases h : d < 32
  · refine ⟨2^(d+1),by positivity,Nat.pow_le_pow_right (by omega) (by omega),.inl ?_⟩
    rw [topBit_shift h,BitVec.toNat_twoPow,Nat.mod_eq_of_lt (Nat.pow_lt_pow_right (by omega) (by omega)),
      ← pow_add,show d + 1 + (31 - d) = 32 by omega]
  · exact ⟨1,by omega,by norm_num,.inr (BitVec.ushiftRight_eq_zero (by omega))⟩

/-- Preallocation returns, with a tree that stores nothing. -/
theorem preallocate_spec (hpages : FreshPages pagesize page) (hpagesize : nodeSize ≤ pagesize)
    (levels d : ℕ) (h : Blank pagesize page t) :
    ∃ r, preallocate pagesize page levels (prefixMask (min d 32)) (topBit >>> d) t = .ok r ∧
      ∀ t', r = some t' → Blank pagesize page t' := by
  induction levels generalizing d t with
  | zero => exact ⟨some t,rfl,fun t' ht => Option.some.inj ht ▸ h⟩
  | succ levels ih =>
    obtain ⟨rounds,hpos,hle,hrounds⟩ := topBit_rounds d
    have hmask : prefixMask (min d 32) >>> 1 ||| topBit = prefixMask (min (d+1) 32) := by
      rw [prefixMask_succ (by omega)]
      congr 1
      omega
    obtain ⟨r,hlevel,hblank⟩ := preallocateLevel_spec hpages hpagesize (show min (d+1) 32 ≤ 32 by omega)
      (topBit >>> d) h (hrounds.imp (by simp) fun hz => ⟨rfl,hz⟩) hpos hle
    simp only [preallocate,hmask,hlevel,bind,Except.bind,pure,Except.pure]
    cases r with
    | none => exact ⟨none,rfl,by simp⟩
    | some t' =>
      rw [shift_shift]
      exact ih (d+1) (hblank t' rfl)

/-- A created tree stores nothing. -/
theorem radixTreeCreate_blank (hpages : FreshPages pagesize page) (hpagesize : nodeSize ≤ pagesize)
    {palloc : Bool} {heap : ℕ → RadixNode} {levels : ℤ}
    (h : radixTreeCreate palloc pagesize page heap levels = .ok (some t)) : Blank pagesize page t := by
  unfold radixTreeCreate at h
  split at h
  · rcases radixAlloc_spec hpages hpagesize (Allocated.empty heap) with
      ⟨t₁,halloc,-⟩ | ⟨r,t₁,free,halloc,-,hheap,hroot,-,hall,-⟩
    · simp [halloc] at h
    · have hblank : Blank pagesize page { t₁.store r ⟨none,none,none,noValue⟩ with root := some r } := by
        obtain ⟨hwf,-,hstored⟩ := created_root hall
        exact ⟨⟨free,hwf⟩,hstored⟩
      have hmask : prefixMask (min 0 32) = 0 := by decide
      have hspec := fun n => preallocate_spec hpages hpagesize n 0 hblank
      rw [hmask,show topBit >>> 0 = topBit from rfl] at hspec
      simp only [halloc] at h
      split at h
      · obtain ⟨r',hrun,hr'⟩ := hspec (defaultLevels pagesize)
        rw [hrun] at h
        exact hr' t (Except.ok.inj h)
      · split at h
        · cases h
        · obtain ⟨r',hrun,hr'⟩ := hspec levels.toNat
          rw [hrun] at h
          exact hr' t (Except.ok.inj h)
  · cases h

/-! ### Runs -/

/-- A tree with the prefixes that the run has stored so far. -/
structure State where
  tree : RadixTree
  stored : List Bool → Option (BitVec 64)

/-- An operation on the prefix of a key, given by its length. -/
inductive Op
  | insert (key : BitVec 32) (n : ℕ) (value : BitVec 64)
  | delete (key : BitVec 32) (n : ℕ)
  deriving DecidableEq, Repr

/-- One operation of a run: a successful insertion stores the prefix, a deletion forgets it. -/
def State.step (pagesize : ℕ) (page : ℕ → Option ℕ) (s : State) : Op → Option State
  | .insert key n value =>
    if n ≤ 32 ∧ value ≠ noValue then
      match radix32treeInsert pagesize page s.tree key (prefixMask n) value with
      | .ok (.ok,t) => some ⟨t,Function.update s.stored (path key n) (some value)⟩
      | .ok (_,t) => some ⟨t,s.stored⟩
      | .error _ => none
    else none
  | .delete key n =>
    if 0 < n ∧ n ≤ 32 then
      match radix32treeDelete s.tree key (prefixMask n) with
      | .ok (_,t) => some ⟨t,Function.update s.stored (path key n) none⟩
      | .error _ => none
    else none

/-- The runs on a created tree. -/
def prefixMap (pagesize : ℕ) (page : ℕ → Option ℕ) (heap : ℕ → RadixNode) (levels : ℤ) :
    TransitionSystem State Op :=
  .ofFunction (fun s => radixTreeCreate true pagesize page heap levels = .ok (some s.tree) ∧ ∀ q, s.stored q = none)
    (State.step pagesize page)

/-- In every reachable state the nodes hold what the run has stored. -/
theorem reachable_stored (hpages : FreshPages pagesize page) (hpagesize : nodeSize ≤ pagesize)
    {heap : ℕ → RadixNode} {levels : ℤ} {s : State}
    (h : (prefixMap pagesize page heap levels).Reachable s) :
    (∃ free, WellFormed pagesize page s.tree free) ∧ ∀ q, s.tree.stored q = s.stored q := by
  refine h.invariant (I := fun s => (∃ free, WellFormed pagesize page s.tree free) ∧
    ∀ q, s.tree.stored q = s.stored q) ?_ ?_
  · rintro s ⟨hcreate,hstored⟩
    obtain ⟨hwf,hblank⟩ := radixTreeCreate_blank hpages hpagesize hcreate
    exact ⟨hwf,fun q => by rw [hblank,hstored]⟩
  · rintro s op s' - ⟨⟨free,hwf⟩,hsame⟩ hstep
    cases op with
    | insert key n value =>
      change State.step pagesize page s (.insert key n value) = some s' at hstep
      simp only [State.step] at hstep
      split at hstep
      · rename_i hguard
        obtain ⟨rc,t',free',hinsert,hwf',-,-,-,-,hstored⟩ :=
          radix32treeInsert_spec hpages hpagesize hguard.1 hwf key value
        have hvalue : valueOf value = some value := by simp [valueOf,hguard.2]
        rw [hinsert] at hstep
        cases rc <;> obtain rfl := Option.some.inj hstep <;> refine ⟨⟨free',hwf'⟩,fun q => ?_⟩
        · by_cases hq : q = path key n
          · subst hq; simp [hstored,hvalue]
          · simp [hstored,hq,hsame]
        · simp [hstored,hsame]
        · simp [hstored,hsame]
      · cases hstep
    | delete key n =>
      change State.step pagesize page s (.delete key n) = some s' at hstep
      simp only [State.step] at hstep
      split at hstep
      · rename_i hguard
        obtain ⟨rc,t',free',hdelete,hwf',-,-,-,hstored,-⟩ := radix32treeDelete_spec hguard.2 hguard.1 hwf key
        rw [hdelete] at hstep
        obtain rfl := Option.some.inj hstep
        refine ⟨⟨free',hwf'⟩,fun q => ?_⟩
        by_cases hq : q = path key n
        · subst hq; simp [hstored]
        · simp [hstored,hq,hsame]
      · cases hstep

/-- The radix tree is a longest-prefix-match map. An insertion fails only when a call of `ngx_pmemalign` that it
makes does. -/
theorem find_longestMatch (hpages : FreshPages pagesize page) (hpagesize : nodeSize ≤ pagesize)
    {heap : ℕ → RadixNode} {levels : ℤ} {s : State}
    (h : (prefixMap pagesize page heap levels).Reachable s) :
    (∀ key, ∃ v, radix32treeFind s.tree key = .ok v ∧
      LongestMatch.IsLongest s.stored (bits key) (valueOf v)) ∧
    (∀ key n value, n ≤ 32 → value ≠ noValue → ∃ rc t',
      radix32treeInsert pagesize page s.tree key (prefixMask n) value = .ok (rc,t') ∧
      (rc = .busy ↔ s.stored (path key n) ≠ none) ∧ (rc = .busy → t' = s.tree) ∧
      (rc = .error → StarvedBetween page s.tree t') ∧
      ∀ q, t'.stored q = if rc = .ok ∧ q = path key n then some value else s.stored q) ∧
    ∀ key n, 0 < n → n ≤ 32 → ∃ rc t', radix32treeDelete s.tree key (prefixMask n) = .ok (rc,t') ∧
      ∀ q, t'.stored q = if q = path key n then none else s.stored q := by
  obtain ⟨⟨free,hwf⟩,hsame⟩ := reachable_stored hpages hpagesize h
  have hsame : s.tree.stored = s.stored := funext hsame
  refine ⟨fun key => ?_,fun key n value hn hv => ?_,fun key n hpos hn => ?_⟩
  · rw [← hsame]
    exact radix32treeFind_spec hwf.shaped key
  · obtain ⟨rc,t',free',hinsert,-,-,hbusy,hsame',herror,hstored⟩ :=
      radix32treeInsert_spec hpages hpagesize hn hwf key value
    rw [← hsame]
    refine ⟨rc,t',hinsert,hbusy,hsame',herror,fun q => ?_⟩
    rw [hstored,show valueOf value = some value by simp [valueOf,hv]]
  · obtain ⟨rc,t',free',hdelete,-,-,-,-,hstored,-⟩ := radix32treeDelete_spec hn hpos hwf key
    rw [← hsame]
    exact ⟨rc,t',hdelete,hstored⟩

/-- A run of two operations on pages of two nodes: `10000000` is stored below the prefix `1`. -/
theorem find_longestMatch_example : ∃ s : State,
    (prefixMap 64 (fun k => some (64*k)) (fun _ => ⟨none,none,none,0⟩) 0).Reachable s ∧
      ∃ v, radix32treeFind s.tree 0xC0000000#32 = .ok v ∧
        LongestMatch.IsLongest s.stored (bits 0xC0000000#32) (valueOf v) := by
  have hpages := freshPages_mul 64
  obtain ⟨t,ht⟩ : ∃ t, radixTreeCreate true 64 (fun k => some (64*k)) (fun _ => ⟨none,none,none,0⟩) 0 =
    .ok (some t) := ⟨_,rfl⟩
  have hreturns : ((TransitionSystem.replay (State.step 64 fun k => some (64*k)) ⟨t,fun _ => none⟩
      [.insert 0x80000000#32 1 7#64,.insert 0x80000000#32 8 9#64]).isSome) = true := by
    obtain rfl := Option.some.inj (Except.ok.inj ht)
    decide +kernel
  obtain ⟨s,hs⟩ := Option.isSome_iff_exists.mp hreturns
  have hreach : (prefixMap 64 (fun k => some (64*k)) (fun _ => ⟨none,none,none,0⟩) 0).Reachable s :=
    .of_replay (.init ⟨ht,fun _ => rfl⟩) hs
  exact ⟨s,hreach,(find_longestMatch hpages (by decide) hreach).1 _⟩

end InsideNginx.Radix
