import InsideNginx.General.LongestMatch
import InsideNginx.Radix.Nodes

/-! What insertion, deletion and lookup do to the stored prefixes. Each loop has one lemma,
stated for the position that its shifted bit stands for. -/
namespace InsideNginx.Radix

/-! ### Bits -/

/-- The mask of a prefix of length `n`. -/
def prefixMask (n : ℕ) : BitVec 32 := ~~~(BitVec.allOnes 32 >>> n)

/-- The bits of a key, from the first that is looked at. -/
def bits (key : BitVec 32) : List Bool := (List.range 32).map key.getMsbD

@[simp] theorem length_bits (key : BitVec 32) : (bits key).length = 32 := by simp [bits]

/-- The prefix of length `n` of a key. -/
def path (key : BitVec 32) (n : ℕ) : List Bool := (bits key).take n

@[simp] theorem path_zero (key : BitVec 32) : path key 0 = [] := rfl

theorem length_path (key : BitVec 32) {n : ℕ} (h : n ≤ 32) : (path key n).length = n := by
  simp [path,h]

theorem path_succ (key : BitVec 32) {n : ℕ} (h : n < 32) :
    path key (n+1) = path key n ++ [key.getMsbD n] := by
  simp [path,bits,List.take_add_one,h]

theorem path_prefix_path (key : BitVec 32) {i n : ℕ} (h : i ≤ n) : path key i <+: path key n :=
  List.take_prefix_take_left h

theorem shift_shift (i : ℕ) : topBit >>> i >>> 1 = topBit >>> (i+1) := by
  rw [BitVec.shiftRight_add]

theorem topBit_shift {i : ℕ} (h : i < 32) : topBit >>> i = BitVec.twoPow 32 (31 - i) := by
  have hall : ∀ i : Fin 32, topBit >>> i.val = BitVec.twoPow 32 (31 - i.val) := by decide
  exact hall ⟨i,h⟩

theorem topBit_end : topBit >>> 32 = 0#32 := by decide

/-- The bit at position `i` is looked at. -/
theorem and_topBit (x : BitVec 32) {i : ℕ} (h : i < 32) :
    decide (x &&& topBit >>> i ≠ 0) = x.getMsbD i := by
  have hne : BitVec.twoPow 32 (31 - i) ≠ 0#32 := by
    have hall : ∀ i : Fin 32, BitVec.twoPow 32 (31 - i.val) ≠ 0#32 := by decide
    exact hall ⟨i,h⟩
  rw [topBit_shift h,BitVec.and_twoPow,BitVec.getMsbD_eq_getLsbD]
  cases x.getLsbD (31 - i) <;> simp [h,hne]

theorem getMsbD_prefixMask {i n : ℕ} (hi : i < 32) (hn : n ≤ 32) :
    (prefixMask n).getMsbD i = decide (i < n) := by
  have hall : ∀ (n : Fin 33) (i : Fin 32), (prefixMask n.val).getMsbD i.val = decide (i.val < n.val) := by
    decide +kernel
  exact hall ⟨n,by omega⟩ ⟨i,hi⟩

/-- The shifted bit leaves the mask after its last position. -/
theorem and_prefixMask {i n : ℕ} (hi : i ≤ 32) (hn : n ≤ 32) :
    topBit >>> i &&& prefixMask n = 0 ↔ n ≤ i := by
  by_cases h : i < 32
  · have hbit := and_topBit (prefixMask n) h
    rw [getMsbD_prefixMask h hn,decide_eq_decide] at hbit
    rw [BitVec.and_comm,← not_iff_not,not_le]
    exact hbit
  · obtain rfl : i = 32 := by omega
    simp [topBit_end,hn]

/-! ### The well-formed tree -/

/-- The invariant of a created tree, with its free list. -/
structure WellFormed (pagesize : ℕ) (page : ℕ → Option ℕ) (t : RadixTree) (free : List ℕ) : Prop where
  shaped : Shaped t
  allocated : Allocated pagesize page t t.Reached free

/-- Every node off the path `p` leads to a stored prefix. -/
def TidyOff (t : RadixTree) (p : List Bool) : Prop :=
  ∀ q, t.walk q ≠ none → q <+: p ∨ ∃ r, q <+: r ∧ t.stored r ≠ none

/-- Every node but the root leads to a stored prefix, unless memory has run out. -/
def Tidy (page : ℕ → Option ℕ) (t : RadixTree) : Prop := Starved page t ∨ TidyOff t []

/-- A leaf at the prefix `p` that stores nothing. -/
def Idle (t : RadixTree) (p : List Bool) : Prop :=
  ∃ a, t.walk p = some a ∧ (t.heap a).hasChild = false ∧ (t.heap a).value = noValue

variable {pagesize : ℕ} {page : ℕ → Option ℕ} {t : RadixTree} {free : List ℕ} {key : BitVec 32} {n : ℕ}

theorem Starved.mono {t' : RadixTree} (h : Starved page t) (hcalls : t.calls ≤ t'.calls) : Starved page t' := by
  obtain ⟨k,hk,hnone⟩ := h
  exact ⟨k,by omega,hnone⟩

/-- A longer path may be untidy. -/
theorem TidyOff.mono {p p' : List Bool} (h : TidyOff t p) (hp : p <+: p') : TidyOff t p' :=
  fun q hq => (h q hq).imp_left fun hqp => hqp.trans hp

/-- When the prefix `p` is stored, or a longer one, the path to it is tidy. -/
theorem TidyOff.tidy {p r : List Bool} (h : TidyOff t p) (hp : p <+: r) (hr : t.stored r ≠ none) :
    TidyOff t [] := by
  intro q hq
  rcases h q hq with hqp | hs
  · exact .inr ⟨r,hqp.trans hp,hr⟩
  · exact .inr hs

/-- One turn further down the path of a key. -/
theorem walk_path_succ {i a : ℕ} (hi : i < 32) (ha : t.walk (path key i) = some a) :
    t.walk (path key (i+1)) = (t.heap a).child (decide (key &&& topBit >>> i ≠ 0)) := by
  rw [path_succ key hi,walk_concat,ha,and_topBit key hi]
  rfl

/-! ### Insertion -/

/-- The first loop ends at the node of the prefix, or where the path leaves the tree. -/
theorem insertDescend_spec (hn : n ≤ 32) {fuel i a : ℕ} (hi : i ≤ n) (hfuel : n + 1 ≤ fuel + i)
    (ha : t.walk (path key i) = some a) :
    (∃ c, t.walk (path key n) = some c ∧ insertDescend t.heap key (prefixMask n) fuel (topBit >>> i) a =
      .ok (topBit >>> n,c,some c)) ∨
    ∃ j c, j < n ∧ t.walk (path key j) = some c ∧ t.walk (path key (j+1)) = none ∧
      insertDescend t.heap key (prefixMask n) fuel (topBit >>> i) a = .ok (topBit >>> j,c,none) := by
  induction fuel generalizing i a with
  | zero => omega
  | succ fuel ih =>
    rw [insertDescend]
    by_cases hin : n ≤ i
    · obtain rfl : i = n := by omega
      rw [if_pos ((and_prefixMask hn hn).mpr le_rfl)]
      exact .inl ⟨a,ha,rfl⟩
    · rw [if_neg (fun hz => hin ((and_prefixMask (by omega) hn).mp hz)),← walk_path_succ (by omega) ha]
      cases hnext : t.walk (path key (i+1)) with
      | none => exact .inr ⟨i,a,by omega,ha,hnext,rfl⟩
      | some c =>
        simp only [shift_shift]
        exact ih (by omega) (by omega) hnext

/-- A tree that has grown by one path reaches one node more. -/
theorem reached_add {t' : RadixTree} {p : List Bool} {c d : ℕ} (hnone : t.walk p = none)
    (hwalk : ∀ q, t'.walk q = if q = p then some c else t.walk q) : t'.Reached d ↔ t.Reached d ∨ d = c := by
  constructor
  · rintro ⟨q,hq⟩
    rw [hwalk] at hq
    split at hq
    · exact .inr (Option.some.inj hq).symm
    · exact .inl ⟨q,hq⟩
  · rintro (⟨q,hq⟩ | rfl)
    · refine ⟨q,?_⟩
      rw [hwalk,if_neg (fun he => ?_)]
      · exact hq
      · rw [he,hnone] at hq; cases hq
    · exact ⟨_,by rw [hwalk,if_pos rfl]⟩

/-- One iteration of the second loop: the tree grows by a node without a value. -/
theorem WellFormed.link {t' : RadixTree} {a c i : ℕ} {free' : List ℕ} (h : WellFormed pagesize page t free)
    (hi : i < 32) (ha : t.walk (path key i) = some a) (hnone : t.walk (path key (i+1)) = none)
    (hheap : t'.heap = t.heap) (hroot : t'.root = t.root) (hc : ¬ t.Reached c)
    (hall : Allocated pagesize page t' (fun a => t.Reached a ∨ a = c) free') :
    WellFormed pagesize page (t'.link a (key.getMsbD i) c) free' ∧
    (∀ q, (t'.link a (key.getMsbD i) c).walk q = if q = path key (i+1) then some c else t.walk q) ∧
    ∀ q, (t'.link a (key.getMsbD i) c).stored q = t.stored q := by
  have hwalk := walk_congr hheap hroot
  have hlength := length_path key hi.le
  rw [path_succ key hi] at hnone ⊢
  obtain ⟨hshaped,hlink,hstored⟩ := (h.shaped.congr hheap hroot).link (b := key.getMsbD i) (c := c)
    (by rw [hwalk]; exact ha) (by rw [hwalk]; exact hnone) (by omega) (fun ⟨q,hq⟩ => hc ⟨q,hwalk q ▸ hq⟩)
  refine ⟨⟨hshaped,hall.congr (fun d => ?_) (fun d hd => ?_) rfl rfl rfl rfl⟩,fun q => ?_,fun q => ?_⟩
  · exact reached_add hnone fun q => by rw [hlink,hwalk]
  · have hda : d ≠ a := fun he => hd (.inl ⟨_,he ▸ ha⟩)
    have hdc : d ≠ c := fun he => hd (.inr he)
    simp [RadixTree.link,RadixTree.store,hda,hdc]
  · rw [hlink,hwalk]
  · rw [hstored,stored_congr hheap hroot]

/-- A failed allocation leaves the tree as it was. -/
theorem WellFormed.starved {t' : RadixTree} (h : WellFormed pagesize page t free) (hheap : t'.heap = t.heap)
    (hroot : t'.root = t.root) (hall : Allocated pagesize page t' t.Reached free) : WellFormed pagesize page t' free :=
  ⟨h.shaped.congr hheap hroot,hall.congr (fun a => by simp only [RadixTree.Reached,walk_congr hheap hroot])
    (fun _ _ => rfl) rfl rfl rfl rfl⟩

/-- Below a new leaf there is nothing yet. -/
theorem walk_below_link {u : RadixTree} {c i : ℕ} (hi : i + 1 < 32) (hnone : t.walk (path key (i+1)) = none)
    (hwalk : ∀ q, u.walk q = if q = path key (i+1) then some c else t.walk q) : u.walk (path key (i+1+1)) = none := by
  have hne : path key (i+1+1) ≠ path key (i+1) := fun he => by
    have := congrArg List.length he
    rw [length_path key (by omega),length_path key (by omega)] at this
    omega
  rw [hwalk,if_neg hne]
  exact LinkedTree.walk_eq_none_below hnone (path_prefix_path key (by omega))

/-- The second loop builds the rest of the path, or stops when memory runs out. -/
theorem insertExtend_spec (hpages : FreshPages pagesize page) (hpagesize : nodeSize ≤ pagesize)
    (hn : n ≤ 32) {fuel i a : ℕ} (h : WellFormed pagesize page t free) (hi : i ≤ n)
    (hfuel : n + 1 ≤ fuel + i) (ha : t.walk (path key i) = some a)
    (hnone : i < n → t.walk (path key (i+1)) = none) :
    ∃ r t' free', insertExtend pagesize page key (prefixMask n) fuel (topBit >>> i) a t = .ok (r,t') ∧
      WellFormed pagesize page t' free' ∧ (∀ q, t'.stored q = t.stored q) ∧ t.calls ≤ t'.calls ∧
      (r = none → StarvedBetween page t t') ∧ (TidyOff t (path key n) → TidyOff t' (path key n)) ∧
      ∀ c, r = some c → t'.walk (path key n) = some c := by
  induction fuel generalizing i a t free with
  | zero => omega
  | succ fuel ih =>
    rw [insertExtend]
    by_cases hin : n ≤ i
    · obtain rfl : i = n := by omega
      rw [if_pos ((and_prefixMask hn hn).mpr le_rfl)]
      exact ⟨some a,t,free,rfl,h,fun _ => rfl,le_rfl,by simp,id,fun c hc => Option.some.inj hc ▸ ha⟩
    · rw [if_neg (fun hz => hin ((and_prefixMask (by omega) hn).mp hz))]
      rcases radixAlloc_spec hpages hpagesize h.allocated with
        ⟨t',halloc,hheap,hroot,hcalls,hstarved,hall⟩ | ⟨c,t',free',halloc,hc,hheap,hroot,hcalls,hall,-⟩
      · refine ⟨none,t',free,by rw [halloc],h.starved hheap hroot hall,stored_congr hheap hroot,hcalls,
          fun _ => hstarved,fun htidy q => ?_,by simp⟩
        simpa only [walk_congr hheap hroot,stored_congr hheap hroot] using htidy q
      · obtain ⟨hwf,hwalk,hstored⟩ := h.link (by omega) ha (hnone (by omega)) hheap hroot hc hall
        have hc' : (t'.link a (key.getMsbD i) c).walk (path key (i+1)) = some c := by simp [hwalk]
        obtain ⟨r,t'',free'',hrun,hwf',hstored',hcalls',hstarved,htidy,hend⟩ := ih hwf (by omega) (by omega) hc'
          fun hlt => walk_below_link (by omega) (hnone (by omega)) hwalk
        refine ⟨r,t'',free'',?_,hwf',fun q => (hstored' q).trans (hstored q),hcalls.trans hcalls',
          fun hr => (hstarved hr).of_le hcalls,fun h' => htidy fun q hq => ?_,hend⟩
        · rw [halloc,shift_shift,and_topBit key (by omega)]
          exact hrun
        · rw [hwalk] at hq
          split at hq
          · rename_i hqi
            exact .inl (hqi ▸ path_prefix_path key (by omega))
          · simpa only [hstored] using h' q hq

/-- A value is stored for the prefix of a node. -/
theorem WellFormed.storeValue {p : List Bool} {a : ℕ} (h : WellFormed pagesize page t free)
    (ha : t.walk p = some a) (v : BitVec 64) :
    WellFormed pagesize page (t.store a { t.heap a with value := v }) free ∧
    (∀ q, (t.store a { t.heap a with value := v }).walk q = t.walk q) ∧
    ∀ q, (t.store a { t.heap a with value := v }).stored q = if q = p then valueOf v else t.stored q := by
  obtain ⟨hshaped,hwalk,hstored⟩ := h.shaped.storeValue ha v
  refine ⟨⟨hshaped,h.allocated.congr (fun c => ?_) (fun c hc => ?_) rfl rfl rfl rfl⟩,hwalk,hstored⟩
  · simp only [RadixTree.Reached,hwalk]
  · have hca : c ≠ a := fun he => hc ⟨p,he ▸ ha⟩
    simp [RadixTree.store,hca]

/-- A value at the end of the untidy path makes the tree tidy. -/
theorem TidyOff.storeValue {p : List Bool} {a : ℕ} {v : BitVec 64} (h : TidyOff t p)
    (hwalk : ∀ q, (t.store a { t.heap a with value := v }).walk q = t.walk q)
    (hstored : ∀ q, (t.store a { t.heap a with value := v }).stored q = if q = p then valueOf v else t.stored q)
    (hv : v ≠ noValue) : TidyOff (t.store a { t.heap a with value := v }) [] := by
  have hp : (t.store a { t.heap a with value := v }).stored p ≠ none := by
    rw [hstored,if_pos rfl]
    exact fun he => hv (valueOf_eq_none.mp he)
  refine TidyOff.tidy (fun q hq => ?_) List.prefix_rfl hp
  rw [hwalk] at hq
  rcases h q hq with hqp | ⟨r,hqr,hr⟩
  · exact .inl hqp
  · refine .inr ⟨r,hqr,?_⟩
    by_cases hrp : r = p
    · exact hrp ▸ hp
    · rwa [hstored,if_neg hrp]

/-- Insertion: NGX_BUSY exactly for a prefix that stores a value, and otherwise the value is
stored for the prefix or, when an allocation fails, nothing is. -/
theorem radix32treeInsert_spec (hpages : FreshPages pagesize page) (hpagesize : nodeSize ≤ pagesize)
    (hn : n ≤ 32) (h : WellFormed pagesize page t free) (key : BitVec 32) (value : BitVec 64) :
    ∃ rc t' free', radix32treeInsert pagesize page t key (prefixMask n) value = .ok (rc,t') ∧
      WellFormed pagesize page t' free' ∧
      (value ≠ noValue → Tidy page t → Tidy page t') ∧
      (rc = .busy ↔ t.stored (path key n) ≠ none) ∧ (rc = .busy → t' = t) ∧
      (rc = .error → StarvedBetween page t t') ∧
      ∀ q, t'.stored q = if rc = .ok ∧ q = path key n then valueOf value else t.stored q := by
  obtain ⟨r,hr,-⟩ := h.shaped.root
  have hroot : t.walk (path key 0) = some r := by simpa using hr
  rw [radix32treeInsert,hr]
  simp only [orFault,bind,Except.bind,pure,Except.pure]
  rw [show topBit = topBit >>> 0 from rfl]
  rcases insertDescend_spec hn (Nat.zero_le n) (show n + 1 ≤ 33 + 0 by omega) hroot with
    ⟨a,ha,hdescend⟩ | ⟨j,a,hj,ha,hnone,hdescend⟩
  · rw [hdescend]
    simp only
    by_cases hv : (t.heap a).value = noValue
    · obtain ⟨hwf,hwalk,hstored⟩ := h.storeValue ha value
      refine ⟨.ok,_,free,by rw [if_neg (by simpa using hv)],hwf,fun hvalue htidy => ?_,?_,by simp,by simp,?_⟩
      · exact htidy.imp (·.mono le_rfl) fun hoff =>
          (hoff.mono List.nil_prefix).storeValue hwalk hstored hvalue
      · simp [stored_of_walk ha,hv]
      · simpa using hstored
    · refine ⟨.busy,t,free,by rw [if_pos hv],h,fun _ => id,?_,fun _ => rfl,by simp,by simp⟩
      simp [stored_of_walk ha,valueOf_eq_none,hv]
  · obtain ⟨r,t',free',hextend,hwf,hstored,hcalls,hstarved,htidy,hend⟩ := insertExtend_spec hpages hpagesize hn h hj.le
      (show n + 1 ≤ 33 + j by omega) ha fun _ => hnone
    have hwalk : t.walk (path key n) = none :=
      LinkedTree.walk_eq_none_below hnone (path_prefix_path key hj)
    rw [hdescend]
    simp only [hextend]
    cases r with
    | none =>
      exact ⟨.error,t',free',rfl,hwf,fun _ _ => .inl (hstarved rfl).starved,by simp [stored_of_none hwalk],by simp,
        fun _ => hstarved rfl,by simpa using hstored⟩
    | some c =>
      obtain ⟨hwf',hwalk',hstored'⟩ := hwf.storeValue (hend c rfl) value
      refine ⟨.ok,_,free',rfl,hwf',fun hvalue htidy' => ?_,by simp [stored_of_none hwalk],by simp,by simp,fun q => ?_⟩
      · exact htidy'.imp (·.mono hcalls) fun hoff =>
          (htidy (hoff.mono List.nil_prefix)).storeValue hwalk' hstored' hvalue
      · rw [hstored',hstored]
        simp

/-! ### Deletion -/

/-- The search ends at the node of the prefix, or at NULL when there is none. -/
theorem deleteDescend_spec (hn : n ≤ 32) {fuel i : ℕ} (hi : i ≤ n) (hfuel : n + 1 ≤ fuel + i) :
    deleteDescend t.heap key (prefixMask n) fuel (topBit >>> i) (t.walk (path key i)) =
      .ok (t.walk (path key n)) := by
  induction fuel generalizing i with
  | zero => omega
  | succ fuel ih =>
    cases ha : t.walk (path key i) with
    | none =>
      rw [deleteDescend,show t.walk (path key n) = none from
        LinkedTree.walk_eq_none_below ha (path_prefix_path key hi)]
    | some a =>
      rw [deleteDescend]
      by_cases hin : n ≤ i
      · obtain rfl : i = n := by omega
        rw [if_pos ((and_prefixMask hn hn).mpr le_rfl),ha]
      · rw [if_neg (fun hz => hin ((and_prefixMask (by omega) hn).mp hz)),← walk_path_succ (by omega) ha,
          shift_shift]
        exact ih (by omega) (by omega)

/-- Only the root has no parent. -/
theorem Shaped.eq_nil_of_parent {p : List Bool} {a : ℕ} (h : Shaped t) (ha : t.walk p = some a)
    (hparent : (t.heap a).parent = none) : p = [] := by
  induction p using List.reverseRecOn with
  | nil => rfl
  | append_singleton q b =>
    obtain ⟨c,hc,hca⟩ := LinkedTree.walk_concat_eq_some ha
    rw [h.parent q b c a hc hca] at hparent
    cases hparent

/-- The node below `a` on the side of `b` is its right child exactly when `b` is set. -/
theorem Shaped.right_eq {p : List Bool} {a c : ℕ} {b : Bool} (h : Shaped t) (ha : t.walk p = some a)
    (hc : t.walk (p ++ [b]) = some c) : decide ((t.heap a).right = some c) = b := by
  cases b with
  | true =>
    rw [walk_concat,ha] at hc
    exact decide_eq_true hc
  | false =>
    refine decide_eq_false fun hr => ?_
    have hright : t.walk (p ++ [true]) = some c := by rw [walk_concat,ha]; exact hr
    have := h.inj _ _ _ hright hc
    simp at this

/-- One iteration of the pruning loop: a leaf leaves the tree for the free list. -/
theorem WellFormed.unlink {p : List Bool} {a c : ℕ} {b : Bool} (h : WellFormed pagesize page t free)
    (ha : t.walk p = some a) (hc : t.walk (p ++ [b]) = some c) (hleaf : (t.heap c).hasChild = false) :
    WellFormed pagesize page (t.unlink a b c) (c::free) ∧
    (∀ q, (t.unlink a b c).walk q = if q = p ++ [b] then none else t.walk q) ∧
    (∀ q, (t.unlink a b c).stored q = if q = p ++ [b] then none else t.stored q) ∧
    ∀ d, (t.unlink a b c).Reached d ∨ d ∈ c::free ↔ t.Reached d ∨ d ∈ free := by
  obtain ⟨hshaped,hwalk,hstored⟩ := h.shaped.unlink ha hc hleaf
  have hca : c ≠ a := fun he => h.shaped.walk_concat_ne ha (he ▸ hc)
  have hreached : ∀ d, (t.unlink a b c).Reached d ↔ t.Reached d ∧ d ≠ c := by
    intro d
    constructor
    · rintro ⟨q,hq⟩
      rw [hwalk] at hq
      split at hq
      · cases hq
      · rename_i hne
        exact ⟨⟨q,hq⟩,fun he => hne (h.shaped.inj _ _ _ (he ▸ hq) hc)⟩
    · rintro ⟨⟨q,hq⟩,hd⟩
      refine ⟨q,?_⟩
      rw [hwalk,if_neg (fun he => hd ?_)]
      · exact hq
      · rw [he,hc] at hq; exact (Option.some.inj hq).symm
  have hall := h.allocated
  have hnodes : ∀ d, (t.unlink a b c).Reached d ∨ d ∈ c::free ↔ t.Reached d ∨ d ∈ free := by
    intro d
    have hc' : d = c → t.Reached d := fun he => ⟨_,he ▸ hc⟩
    rw [hreached,List.mem_cons]
    tauto
  refine ⟨⟨hshaped,?_,?_,?_,?_,hall.region⟩,hwalk,hstored,hnodes⟩
  · refine ⟨rfl,?_⟩
    have hchain : FreeChain (t.unlink a b c).heap t.freeList free := hall.chain.congr fun d hd => by
      have hdr := hall.apart d hd
      have hda : d ≠ a := fun he => hdr ⟨_,he ▸ ha⟩
      have hdc : d ≠ c := fun he => hdr ⟨_,he ▸ hc⟩
      simp [RadixTree.unlink,RadixTree.store,hda,hdc]
    simpa [RadixTree.unlink,RadixTree.store] using hchain
  · exact List.nodup_cons.mpr ⟨fun hm => hall.apart c hm ⟨_,hc⟩,hall.nodup⟩
  · intro d hd hr
    rw [hreached] at hr
    rcases List.mem_cons.mp hd with rfl | hd
    · exact hr.2 rfl
    · exact hall.apart d hd hr.1
  · intro d hd
    have hd' := hall.carved d ((hnodes d).mp hd)
    exact ⟨hd'.inPage,hd'.apart⟩

/-- Once the leaf at the end of the untidy path is gone, the path is one shorter. -/
theorem TidyOff.unlink {p : List Bool} {a c : ℕ} {b : Bool} (h : TidyOff t (p ++ [b]))
    (hwalk : ∀ q, (t.unlink a b c).walk q = if q = p ++ [b] then none else t.walk q)
    (hstored : ∀ q, (t.unlink a b c).stored q = if q = p ++ [b] then none else t.stored q) :
    TidyOff (t.unlink a b c) p := by
  intro q hq
  rw [hwalk] at hq
  split at hq
  · exact absurd rfl hq
  · rename_i hne
    have hshorter : q <+: p ++ [b] → q <+: p := fun hqp =>
      (List.prefix_concat_iff.mp hqp).resolve_left hne
    rcases h q hq with hqp | ⟨r,hqr,hr⟩
    · exact .inl (hshorter hqp)
    · by_cases hrp : r = p ++ [b]
      · exact .inl (hshorter (hrp ▸ hqr))
      · exact .inr ⟨r,hqr,by rwa [hstored,if_neg hrp]⟩

/-- A node with a child leads to a stored prefix. -/
theorem TidyOff.of_child {p : List Bool} {a : ℕ} (h : TidyOff t p) (ha : t.walk p = some a)
    (hchild : (t.heap a).hasChild = true) : ∃ r, p <+: r ∧ r ≠ p ∧ t.stored r ≠ none := by
  obtain ⟨x,hx⟩ : ∃ x, t.child a x ≠ none := by
    by_contra hnone
    push Not at hnone
    rw [hasChild_eq_false.mpr hnone] at hchild
    cases hchild
  have hwalk : t.walk (p ++ [x]) ≠ none := by rw [walk_concat,ha]; exact hx
  rcases h _ hwalk with hle | ⟨r,hxr,hr⟩
  · have := hle.length_le
    simp at this
  · have := hxr.length_le
    exact ⟨r,(List.prefix_append p [x]).trans hxr,fun he => by simp [he] at this,hr⟩

/-- The pruning loop forgets the value of the leaf it starts from, and of no other node. The nodes
that it takes out of the tree are on the free list. -/
theorem deletePrune_spec {fuel c : ℕ} {p : List Bool} (h : WellFormed pagesize page t free)
    (hc : t.walk p = some c) (hp : p ≠ []) (hleaf : (t.heap c).hasChild = false) (hfuel : p.length ≤ fuel) :
    ∃ t' free', deletePrune fuel c t = .ok t' ∧ WellFormed pagesize page t' free' ∧
      (t'.memory = t.memory ∧ t'.root = t.root) ∧
      (TidyOff t p → TidyOff t' []) ∧ (∀ q, t'.stored q = if q = p then none else t.stored q) ∧
      ∀ d, t'.Reached d ∨ d ∈ free' ↔ t.Reached d ∨ d ∈ free := by
  induction fuel generalizing p c t free with
  | zero => exact absurd (List.length_eq_zero_iff.mp (by omega)) hp
  | succ fuel ih =>
    obtain ⟨p,b,rfl⟩ : ∃ q b, p = q ++ [b] := ⟨_,_,(List.dropLast_append_getLast hp).symm⟩
    obtain ⟨a,ha,hac⟩ := LinkedTree.walk_concat_eq_some hc
    have hparent : (t.heap c).parent = some a := h.shaped.parent p b a c ha hac
    obtain ⟨hwf,hwalk,hstored,hnodes⟩ := h.unlink ha hc hleaf
    have hne : p ≠ p ++ [b] := by simp
    have hca : c ≠ a := fun he => h.shaped.walk_concat_ne ha (he ▸ hc)
    have ha' : (t.unlink a b c).walk p = some a := by rw [hwalk,if_neg hne]; exact ha
    have hheap : (t.unlink a b c).heap a = (t.heap a).setChild b none := by
      simp [RadixTree.unlink,RadixTree.store,Ne.symm hca]
    have hrun : deletePrune (fuel+1) c t =
        if ((t.unlink a b c).heap a).hasChild then .ok (t.unlink a b c)
        else if ((t.unlink a b c).heap a).value ≠ noValue then .ok (t.unlink a b c)
        else if ((t.unlink a b c).heap a).parent = none then .ok (t.unlink a b c)
        else deletePrune fuel a (t.unlink a b c) := by
      simp only [deletePrune,hparent,orFault,bind,Except.bind,pure,Except.pure,h.shaped.right_eq ha hc]
      rfl
    have hoff : TidyOff t (p ++ [b]) → TidyOff (t.unlink a b c) p := fun hoff => hoff.unlink hwalk hstored
    rw [hrun]
    split
    · rename_i hchild
      refine ⟨_,_,rfl,hwf,⟨rfl,rfl⟩,fun h' => ?_,hstored,hnodes⟩
      obtain ⟨r,hpr,-,hr⟩ := (hoff h').of_child ha' hchild
      exact (hoff h').tidy hpr hr
    · rename_i hchild
      split
      · rename_i hv
        refine ⟨_,_,rfl,hwf,⟨rfl,rfl⟩,fun h' => (hoff h').tidy List.prefix_rfl ?_,hstored,hnodes⟩
        rw [stored_of_walk ha']
        exact fun he => hv (valueOf_eq_none.mp he)
      · rename_i hv
        split
        · rename_i hp'
          refine ⟨_,_,rfl,hwf,⟨rfl,rfl⟩,fun h' => ?_,hstored,hnodes⟩
          obtain rfl := hwf.shaped.eq_nil_of_parent ha' hp'
          exact hoff h'
        · rename_i hp'
          have hpne : p ≠ [] := by
            rintro rfl
            obtain ⟨r,hr,hrp⟩ := hwf.shaped.root
            rw [walk_nil,hr] at ha'
            exact hp' (Option.some.inj ha' ▸ hrp)
          have hlength : p.length ≤ fuel := by simp at hfuel; omega
          obtain ⟨t',free',hprune,hwf',hsame,htidy,hstored',hnodes'⟩ :=
            ih hwf ha' hpne (by simpa using hchild) hlength
          refine ⟨t',free',hprune,hwf',hsame,fun h' => htidy (hoff h'),fun q => ?_,
            fun d => (hnodes' d).trans (hnodes d)⟩
          rw [hstored']
          split
          · rename_i hqp
            have hnone : (t.unlink a b c).stored p = none := by
              rw [stored_of_walk ha',valueOf_eq_none]
              simpa using hv
            rw [← hstored q,hqp,hnone]
          · exact hstored q

/-- A node that has children stays useful when its value is forgotten. -/
theorem TidyOff.forget {p : List Bool} {a : ℕ} (h : TidyOff t []) (ha : t.walk p = some a)
    (hchild : (t.heap a).hasChild = true)
    (hwalk : ∀ q, (t.store a { t.heap a with value := noValue }).walk q = t.walk q)
    (hstored : ∀ q, (t.store a { t.heap a with value := noValue }).stored q =
      if q = p then valueOf noValue else t.stored q) :
    TidyOff (t.store a { t.heap a with value := noValue }) [] := by
  obtain ⟨s,hps,hsp,hs⟩ := (h.mono List.nil_prefix).of_child ha hchild
  intro q hq
  rw [hwalk] at hq
  rcases h q hq with hnil | ⟨r,hqr,hr⟩
  · exact .inl hnil
  · by_cases hrp : r = p
    · exact .inr ⟨s,(hrp ▸ hqr).trans hps,by rwa [hstored,if_neg hsp]⟩
    · exact .inr ⟨r,hqr,by rwa [hstored,if_neg hrp]⟩

/-- Deletion forgets the value of its own prefix and of no other. It succeeds where a value is
stored, and on a leaf that stores nothing. -/
theorem radix32treeDelete_spec (hn : n ≤ 32) (hpos : 0 < n) (h : WellFormed pagesize page t free)
    (key : BitVec 32) :
    ∃ rc t' free', radix32treeDelete t key (prefixMask n) = .ok (rc,t') ∧
      WellFormed pagesize page t' free' ∧ (Tidy page t → Tidy page t') ∧ rc ≠ .busy ∧
      (rc = .ok ↔ t.stored (path key n) ≠ none ∨ Idle t (path key n)) ∧
      (∀ q, t'.stored q = if q = path key n then none else t.stored q) ∧ t'.root = t.root ∧
      t'.memory = t.memory ∧ ∀ d, t'.Reached d ∨ d ∈ free' ↔ t.Reached d ∨ d ∈ free := by
  have hdescend : deleteDescend t.heap key (prefixMask n) 33 topBit (t.walk []) = .ok (t.walk (path key n)) :=
    path_zero key ▸ deleteDescend_spec hn (Nat.zero_le n) (show n + 1 ≤ 33 + 0 by omega)
  rw [walk_nil] at hdescend
  rw [radix32treeDelete,hdescend]
  simp only [bind,Except.bind,pure,Except.pure]
  cases hc : t.walk (path key n) with
  | none =>
    refine ⟨.error,t,free,rfl,h,id,by simp,by simp [Idle,hc,stored_of_none hc],fun q => ?_,rfl,rfl,fun _ => .rfl⟩
    split
    · rename_i hq; rw [hq,stored_of_none hc]
    · rfl
  | some c =>
    simp only
    cases hchild : (t.heap c).hasChild with
    | true =>
      by_cases hv : (t.heap c).value = noValue
      · refine ⟨.error,t,free,by simp [hv],h,id,by simp,by simp [Idle,hc,hchild,stored_of_walk hc,hv],
          fun q => ?_,rfl,rfl,fun _ => .rfl⟩
        split
        · rename_i hq; rw [hq,stored_of_walk hc,hv,valueOf_noValue]
        · rfl
      · obtain ⟨hwf,hwalk,hstored⟩ := h.storeValue hc noValue
        refine ⟨.ok,_,free,by simp [hv],hwf,fun htidy => htidy.imp (·.mono le_rfl) fun hoff => ?_,by simp,?_,
          hstored,rfl,rfl,fun d => by simp only [RadixTree.Reached,hwalk]⟩
        · exact hoff.forget hc hchild hwalk hstored
        · simp [stored_of_walk hc,valueOf_eq_none,hv]
    | false =>
      have hne : path key n ≠ [] := fun he => by
        have := length_path key hn
        rw [he] at this
        simp at this
        omega
      obtain ⟨t',free',hprune,hwf,⟨hmemory,hroot⟩,htidy,hstored,hnodes⟩ := deletePrune_spec h hc hne hchild
        (show (path key n).length ≤ 33 by rw [length_path key hn]; omega)
      refine ⟨.ok,t',free',by simp [hprune],hwf,fun h' => ?_,by simp,?_,hstored,hroot,hmemory,hnodes⟩
      · exact h'.imp (·.mono (congrArg Prod.fst hmemory).ge) fun hoff => htidy (hoff.mono List.nil_prefix)
      · simp only [true_iff]
        by_cases hv : (t.heap c).value = noValue
        · exact .inr ⟨c,hc,hchild,hv⟩
        · exact .inl (by rw [stored_of_walk hc]; exact fun he => hv (valueOf_eq_none.mp he))

/-! ### Lookup -/

/-- The lookup scans the prefixes of the key until the path leaves the tree. -/
theorem findLoop_spec (h : Shaped t) (key : BitVec 32) {fuel i : ℕ} (hfuel : 34 ≤ fuel + i) (hi : i ≤ 33)
    {value : BitVec 64} {node : Option ℕ} (hnode : i ≤ 32 → node = t.walk (path key i))
    (hend : i = 33 → node = none)
    (hscan : LongestMatch.Scanned t.stored (bits key) i (valueOf value)) :
    ∃ v, findLoop t.heap key fuel (topBit >>> i) value node = .ok v ∧
      LongestMatch.IsLongest t.stored (bits key) (valueOf v) := by
  induction fuel generalizing i value node with
  | zero => omega
  | succ fuel ih =>
    cases node with
    | none =>
      refine ⟨value,rfl,hscan.finish fun q hq hle => ?_⟩
      have hlength : q.length ≤ 32 := by simpa using hq.length_le
      have hi' : i ≤ 32 := by omega
      refine stored_of_none (LinkedTree.walk_eq_none_below (hnode hi').symm ?_)
      rw [List.prefix_iff_eq_take.mp hq]
      exact List.take_prefix_take_left hle
    | some a =>
      have hi' : i ≤ 32 := by
        by_contra hgt
        cases hend (by omega)
      have ha := (hnode hi').symm
      have hvalue : valueOf (if (t.heap a).value ≠ noValue then (t.heap a).value else value) =
          (t.stored ((bits key).take i)).or (valueOf value) := by
        rw [show t.stored ((bits key).take i) = valueOf (t.heap a).value from stored_of_walk ha]
        by_cases hv : (t.heap a).value = noValue
        · simp [hv]
        · simp [hv,valueOf]
      rw [findLoop,shift_shift]
      refine ih (by omega) (by omega) (fun hlt => ?_) (fun hlast => ?_) ?_
      · exact (walk_path_succ (by omega) ha).symm
      · obtain rfl : i = 32 := by omega
        cases hc : (t.heap a).child (decide (key &&& topBit >>> 32 ≠ 0)) with
        | none => rfl
        | some c =>
          have hwalk : t.walk (path key 32 ++ [decide (key &&& topBit >>> 32 ≠ 0)]) = some c := by
            rw [walk_concat,ha]
            exact hc
          have := h.depth _ _ hwalk
          rw [List.length_append,length_path key le_rfl] at this
          simp at this
      · rw [hvalue]
        exact hscan.succ (by simp [hi'])

/-- The lookup returns the value of the longest stored prefix of the key. -/
theorem radix32treeFind_spec (h : Shaped t) (key : BitVec 32) :
    ∃ v, radix32treeFind t key = .ok v ∧ LongestMatch.IsLongest t.stored (bits key) (valueOf v) := by
  have hscan : LongestMatch.Scanned t.stored (bits key) 0 (valueOf noValue) := .zero
  have hloop := findLoop_spec h key (show 34 ≤ 34 + 0 by omega) (by omega) (fun _ => rfl) (by omega) hscan
  simpa [radix32treeFind] using hloop

end InsideNginx.Radix
