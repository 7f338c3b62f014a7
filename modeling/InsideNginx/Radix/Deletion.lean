import InsideNginx.Radix.PrefixMap

/-! Runs with any masks: a mask acts by the ones that it starts with. A deletion is safe unless it
takes the root, which has no parent, for a leaf to be pruned. -/
namespace InsideNginx.Radix
variable {pagesize : ℕ} {page : ℕ → Option ℕ} {heap : ℕ → RadixNode} {levels : ℤ} {t : RadixTree}
  {free : List ℕ} {key mask : BitVec 32}

/-! ### Masks -/

/-- The number of ones that a mask starts with. -/
def leadingOnes (mask : BitVec 32) : ℕ := (bits mask).findIdx (! ·)

theorem leadingOnes_le (mask : BitVec 32) : leadingOnes mask ≤ 32 := by
  simpa [leadingOnes] using (List.findIdx_le_length : (bits mask).findIdx (! ·) ≤ _)

theorem getElem_bits {i : ℕ} (hi : i < (bits mask).length) : (bits mask)[i] = mask.getMsbD i := by
  simp [bits]

/-- Up to the end of its leading ones, a mask looks like the mask of a prefix. -/
theorem and_mask {i : ℕ} (hi : i ≤ leadingOnes mask) :
    topBit >>> i &&& mask = 0 ↔ topBit >>> i &&& prefixMask (leadingOnes mask) = 0 := by
  have hle := leadingOnes_le mask
  rw [and_prefixMask (hi.trans hle) hle]
  by_cases h32 : i < 32
  · have hbit := and_topBit mask h32
    rcases hi.lt_or_eq with hlt | rfl
    · have hone := List.not_of_lt_findIdx hlt
      rw [getElem_bits] at hone
      have hset : mask.getMsbD i = true := by simpa using hone
      rw [hset,decide_eq_true_iff] at hbit
      rw [BitVec.and_comm]
      exact iff_of_false hbit (by omega)
    · have hlength : (bits mask).findIdx (! ·) < (bits mask).length := by simpa [leadingOnes] using h32
      have hzero := List.findIdx_getElem (w := hlength)
      rw [getElem_bits] at hzero
      have hclear : mask.getMsbD (leadingOnes mask) = false := by simpa [leadingOnes] using hzero
      rw [hclear,decide_eq_false_iff_not,not_not] at hbit
      rw [BitVec.and_comm]
      exact iff_of_true hbit le_rfl
  · obtain rfl : i = 32 := by omega
    simp [topBit_end,hle]

theorem lt_leadingOnes {i : ℕ} (hi : i ≤ leadingOnes mask) (hz : topBit >>> i &&& mask ≠ 0) :
    i < leadingOnes mask := by
  have hle := leadingOnes_le mask
  by_contra hge
  exact hz ((and_mask hi).mpr ((and_prefixMask (hi.trans hle) hle).mpr (by omega)))

theorem insertDescend_mask {heap : ℕ → RadixNode} {fuel i a : ℕ} (hi : i ≤ leadingOnes mask) :
    insertDescend heap key mask fuel (topBit >>> i) a =
      insertDescend heap key (prefixMask (leadingOnes mask)) fuel (topBit >>> i) a := by
  induction fuel generalizing i a with
  | zero => rfl
  | succ fuel ih =>
    rw [insertDescend,insertDescend]
    by_cases hz : topBit >>> i &&& mask = 0
    · rw [if_pos hz,if_pos ((and_mask hi).mp hz)]
    · rw [if_neg hz,if_neg (mt (and_mask hi).mpr hz),shift_shift]
      have hlt := lt_leadingOnes hi hz
      cases (heap a).child (decide (key &&& topBit >>> i ≠ 0)) with
      | none => rfl
      | some next => exact ih hlt

/-- The first loop of the insertion does not go below the prefix. -/
theorem insertDescend_bit {heap : ℕ → RadixNode} {fuel i a n : ℕ} (hi : i ≤ n) (hn : n ≤ 32)
    {bit : BitVec 32} {node : ℕ} {next : Option ℕ}
    (h : insertDescend heap key (prefixMask n) fuel (topBit >>> i) a = .ok (bit,node,next)) :
    ∃ j ≤ n, bit = topBit >>> j := by
  induction fuel generalizing i a with
  | zero => cases h
  | succ fuel ih =>
    rw [insertDescend] at h
    by_cases hz : topBit >>> i &&& prefixMask n = 0
    · rw [if_pos hz] at h
      cases h
      exact ⟨i,hi,rfl⟩
    · rw [if_neg hz,shift_shift] at h
      rw [and_prefixMask (by omega) hn] at hz
      cases hc : (heap a).child (decide (key &&& topBit >>> i ≠ 0)) with
      | none =>
        rw [hc] at h
        cases h
        exact ⟨i,hi,rfl⟩
      | some next =>
        rw [hc] at h
        exact ih (by omega) h

theorem insertExtend_mask {fuel i a : ℕ} (hi : i ≤ leadingOnes mask) :
    insertExtend pagesize page key mask fuel (topBit >>> i) a t =
      insertExtend pagesize page key (prefixMask (leadingOnes mask)) fuel (topBit >>> i) a t := by
  induction fuel generalizing i a t with
  | zero => rfl
  | succ fuel ih =>
    rw [insertExtend,insertExtend]
    by_cases hz : topBit >>> i &&& mask = 0
    · rw [if_pos hz,if_pos ((and_mask hi).mp hz)]
    · rw [if_neg hz,if_neg (mt (and_mask hi).mpr hz),shift_shift]
      have hlt := lt_leadingOnes hi hz
      rcases radixAlloc pagesize page t with ⟨_ | next,t'⟩
      · rfl
      · exact ih hlt

theorem deleteDescend_mask {heap : ℕ → RadixNode} {fuel i : ℕ} {node : Option ℕ} (hi : i ≤ leadingOnes mask) :
    deleteDescend heap key mask fuel (topBit >>> i) node =
      deleteDescend heap key (prefixMask (leadingOnes mask)) fuel (topBit >>> i) node := by
  induction fuel generalizing i node with
  | zero => rfl
  | succ fuel ih =>
    cases node with
    | none => rfl
    | some a =>
      rw [deleteDescend,deleteDescend]
      by_cases hz : topBit >>> i &&& mask = 0
      · rw [if_pos hz,if_pos ((and_mask hi).mp hz)]
      · rw [if_neg hz,if_neg (mt (and_mask hi).mpr hz),shift_shift]
        exact ih (lt_leadingOnes hi hz)

/-- Insertion looks at the leading ones of its mask. -/
theorem radix32treeInsert_mask (t : RadixTree) (key mask : BitVec 32) (value : BitVec 64) :
    radix32treeInsert pagesize page t key mask value =
      radix32treeInsert pagesize page t key (prefixMask (leadingOnes mask)) value := by
  unfold radix32treeInsert
  cases t.root with
  | none => rfl
  | some r =>
    simp only [orFault,bind,Except.bind]
    rw [show topBit = topBit >>> 0 from rfl,insertDescend_mask (Nat.zero_le _)]
    cases hrun : insertDescend t.heap key (prefixMask (leadingOnes mask)) 33 (topBit >>> 0) r with
    | error e => rfl
    | ok found =>
      obtain ⟨bit,node,next⟩ := found
      cases next with
      | some next => rfl
      | none =>
        obtain ⟨j,hj,rfl⟩ := insertDescend_bit (Nat.zero_le _) (leadingOnes_le mask) hrun
        simp only [insertExtend_mask hj]

/-- Deletion looks at the leading ones of its mask. -/
theorem radix32treeDelete_mask (t : RadixTree) (key mask : BitVec 32) :
    radix32treeDelete t key mask = radix32treeDelete t key (prefixMask (leadingOnes mask)) := by
  rw [radix32treeDelete,radix32treeDelete,show topBit = topBit >>> 0 from rfl,
    deleteDescend_mask (Nat.zero_le (leadingOnes mask))]

/-! ### Runs -/

/-- A call of `ngx_radix32tree_insert` or `ngx_radix32tree_delete`. -/
inductive Call
  | insert (key mask : BitVec 32) (value : BitVec 64)
  | delete (key mask : BitVec 32)
  deriving DecidableEq, Repr

/-- The tree after a call that returns. -/
def RadixTree.step (pagesize : ℕ) (page : ℕ → Option ℕ) (t : RadixTree) : Call → Option RadixTree
  | .insert key mask value => (radix32treeInsert pagesize page t key mask value).toOption.map Prod.snd
  | .delete key mask => (radix32treeDelete t key mask).toOption.map Prod.snd

/-- The runs of calls on a created tree. -/
def calls (pagesize : ℕ) (page : ℕ → Option ℕ) (heap : ℕ → RadixNode) (levels : ℤ) :
    TransitionSystem RadixTree Call :=
  .ofFunction (fun t => radixTreeCreate true pagesize page heap levels = .ok (some t))
    (RadixTree.step pagesize page)

/-- The root has no child. -/
def RadixTree.rootIsLeaf (t : RadixTree) : Bool := t.root.any fun r => !(t.heap r).hasChild

/-- The empty mask stands for the root: its value is forgotten, but a root without children is
taken for a leaf that has a parent. -/
theorem radix32treeDelete_root (h : WellFormed pagesize page t free) (key : BitVec 32) :
    (t.rootIsLeaf = true → radix32treeDelete t key (prefixMask 0) = .error .nullDeref) ∧
    (t.rootIsLeaf = false → ∃ rc t', radix32treeDelete t key (prefixMask 0) = .ok (rc,t') ∧
      WellFormed pagesize page t' free ∧ t'.root = t.root ∧ t'.memory = t.memory ∧
      ∀ d, t'.Reached d ↔ t.Reached d) := by
  obtain ⟨r,hr,hparent⟩ := h.shaped.root
  have hdescend : deleteDescend t.heap key (prefixMask 0) 33 topBit t.root = .ok (some r) := by
    rw [hr,deleteDescend,if_pos (by decide)]
  rw [radix32treeDelete,hdescend]
  simp only [RadixTree.rootIsLeaf,hr,Option.any_some,bind,Except.bind,pure,Except.pure]
  cases hchild : (t.heap r).hasChild with
  | false =>
    refine ⟨fun _ => ?_,by simp⟩
    simp [deletePrune,hparent,orFault,bind,Except.bind]
  | true =>
    refine ⟨(by simp),fun _ => ?_⟩
    by_cases hv : (t.heap r).value = noValue
    · exact ⟨.error,t,by simp [hv],h,hr,rfl,fun _ => .rfl⟩
    · have hroot : t.walk [] = some r := by simpa using hr
      obtain ⟨hwf,hwalk,-⟩ := h.storeValue hroot noValue
      exact ⟨.ok,_,by simp [hv],hwf,hr,rfl,fun d => by simp only [RadixTree.Reached,hwalk]⟩

/-- A deletion that returns keeps the tree well-formed, and its nodes on one of the two sides. -/
theorem radix32treeDelete_wellFormed {rc : Rc} {t' : RadixTree} (h : WellFormed pagesize page t free)
    (hrun : radix32treeDelete t key mask = .ok (rc,t')) :
    ∃ free', WellFormed pagesize page t' free' ∧ t'.root = t.root ∧ t'.memory = t.memory ∧
      ∀ d, t'.Reached d ∨ d ∈ free' ↔ t.Reached d ∨ d ∈ free := by
  rw [radix32treeDelete_mask] at hrun
  rcases Nat.eq_zero_or_pos (leadingOnes mask) with hz | hpos
  · rw [hz] at hrun
    obtain ⟨hcrash,hsafe⟩ := radix32treeDelete_root h key
    cases hleaf : t.rootIsLeaf with
    | true =>
      rw [hcrash hleaf] at hrun
      cases hrun
    | false =>
      obtain ⟨rc',t'',hrun',hwf,hroot,hmemory,hreached⟩ := hsafe hleaf
      obtain ⟨rfl,rfl⟩ := Prod.mk.inj (Except.ok.inj (hrun'.symm.trans hrun))
      exact ⟨free,hwf,hroot,hmemory,fun d => by rw [hreached]⟩
  · obtain ⟨rc',t'',free',hrun',hwf,-,-,-,-,hroot,hmemory,hnodes⟩ :=
      radix32treeDelete_spec (leadingOnes_le mask) hpos h key
    obtain ⟨rfl,rfl⟩ := Prod.mk.inj (Except.ok.inj (hrun'.symm.trans hrun))
    exact ⟨free',hwf,hroot,hmemory,hnodes⟩

theorem calls_wellFormed (hpages : FreshPages pagesize page) (hpagesize : nodeSize ≤ pagesize)
    (h : (calls pagesize page heap levels).Reachable t) : ∃ free, WellFormed pagesize page t free := by
  refine h.invariant (I := fun t => ∃ free, WellFormed pagesize page t free) ?_ ?_
  · exact fun t hcreate => (radixTreeCreate_blank hpages hpagesize hcreate).1
  · rintro t call t' - ⟨free,hwf⟩ hstep
    change t.step pagesize page call = some t' at hstep
    cases call with
    | insert key mask value =>
      obtain ⟨rc,t'',free',hinsert,hwf',-⟩ :=
        radix32treeInsert_spec hpages hpagesize (leadingOnes_le mask) hwf key value
      rw [RadixTree.step,radix32treeInsert_mask,hinsert] at hstep
      obtain rfl := Option.some.inj hstep
      exact ⟨free',hwf'⟩
    | delete key mask =>
      cases hrun : radix32treeDelete t key mask with
      | error e =>
        rw [RadixTree.step,hrun] at hstep
        cases hstep
      | ok found =>
        obtain ⟨free',hwf',-⟩ := radix32treeDelete_wellFormed hwf hrun
        rw [RadixTree.step,hrun] at hstep
        obtain rfl := Option.some.inj hstep
        exact ⟨free',hwf'⟩

/-- A deletion that returns, keeps the root off the free list and leaves it valid for lookups. -/
def DeletesSafely (t : RadixTree) (key mask : BitVec 32) : Prop :=
  ∃ rc t' r free, radix32treeDelete t key mask = .ok (rc,t') ∧ t.root = some r ∧ t'.root = some r ∧
    FreeChain t'.heap t'.freeList free ∧ r ∉ free ∧ Shaped t' ∧ ∀ key', ∃ v, radix32treeFind t' key' = .ok v

theorem WellFormed.deletesSafely (h : WellFormed pagesize page t free) {rc : Rc} {t' : RadixTree}
    (hrun : radix32treeDelete t key mask = .ok (rc,t')) : DeletesSafely t key mask := by
  obtain ⟨free',hwf,hroot,-⟩ := radix32treeDelete_wellFormed h hrun
  obtain ⟨r,hr,-⟩ := hwf.shaped.root
  have hreached : t'.Reached r := ⟨[],by simpa using hr⟩
  refine ⟨rc,t',r,free',hrun,hroot ▸ hr,hr,hwf.allocated.chain,fun hm => ?_,hwf.shaped,fun key' => ?_⟩
  · exact hwf.allocated.apart r hm hreached
  · obtain ⟨v,hfind,-⟩ := radix32treeFind_spec hwf.shaped key'
    exact ⟨v,hfind⟩

/-- Deletion is safe except for the empty mask on a tree whose root has no child, where it follows
the parent link of the root. -/
theorem deletes_safely_iff (hpages : FreshPages pagesize page) (hpagesize : nodeSize ≤ pagesize)
    (h : (calls pagesize page heap levels).Reachable t) (key : BitVec 32) {n : ℕ} (hn : n ≤ 32) :
    (DeletesSafely t key (prefixMask n) ↔ 0 < n ∨ t.rootIsLeaf = false) ∧
    (n = 0 → t.rootIsLeaf = true → radix32treeDelete t key (prefixMask n) = .error .nullDeref) := by
  obtain ⟨free,hwf⟩ := calls_wellFormed hpages hpagesize h
  obtain ⟨hcrash,hsafe⟩ := radix32treeDelete_root hwf key
  rcases Nat.eq_zero_or_pos n with rfl | hpos
  · refine ⟨⟨fun hsafely => .inr ?_,fun hleaf => ?_⟩,fun _ => hcrash⟩
    · rw [← Bool.not_eq_true]
      intro hleaf
      obtain ⟨rc,t',-,-,hrun,-⟩ := hsafely
      rw [hcrash hleaf] at hrun
      cases hrun
    · obtain ⟨rc,t',hrun,-⟩ := hsafe (hleaf.resolve_left (by omega))
      exact hwf.deletesSafely hrun
  · obtain ⟨rc,t',-,hrun,-⟩ := radix32treeDelete_spec hn hpos hwf key
    exact ⟨iff_of_true (hwf.deletesSafely hrun) (.inl hpos),fun hz => by omega⟩

/-- The prefix `1` is stored: the root is no leaf, and the empty mask is safe. -/
theorem deletes_safely_iff_stored : ∃ t : RadixTree,
    (calls 64 (fun k => some (64*k)) (fun _ => ⟨none,none,none,0⟩) 0).Reachable t ∧
    (DeletesSafely t 0 (prefixMask 0) ↔ 0 < 0 ∨ t.rootIsLeaf = false) ∧ t.rootIsLeaf = false := by
  have hpages := freshPages_mul 64
  obtain ⟨t,ht⟩ : ∃ t, radixTreeCreate true 64 (fun k => some (64*k)) (fun _ => ⟨none,none,none,0⟩) 0 =
    .ok (some t) := ⟨_,rfl⟩
  have hrun : (TransitionSystem.replay (RadixTree.step 64 fun k => some (64*k)) t
      [.insert 0x80000000#32 0x80000000#32 7#64]).map (·.rootIsLeaf) = some false := by
    obtain rfl := Option.some.inj (Except.ok.inj ht)
    decide +kernel
  obtain ⟨t',ht',hleaf⟩ := Option.map_eq_some_iff.mp hrun
  have hreach : (calls 64 (fun k => some (64*k)) (fun _ => ⟨none,none,none,0⟩) 0).Reachable t' :=
    .of_replay (.init ht) ht'
  exact ⟨t',hreach,(deletes_safely_iff hpages (by decide) hreach 0 (by decide)).1,hleaf⟩

/-- A default route is stored with the empty mask, and its deletion follows a NULL pointer. -/
theorem delete_default_route : ∃ t : RadixTree,
    (calls 4096 (fun k => some (4096*k)) (fun _ => ⟨none,none,none,0⟩) 0).Reachable t ∧
    radix32treeFind t 0 = .ok 7#64 ∧ radix32treeDelete t 0 (prefixMask 0) = .error .nullDeref ∧
    ¬ DeletesSafely t 0 (prefixMask 0) := by
  obtain ⟨t,ht⟩ : ∃ t, radixTreeCreate true 4096 (fun k => some (4096*k)) (fun _ => ⟨none,none,none,0⟩) 0 =
    .ok (some t) := ⟨_,rfl⟩
  have hrun : (TransitionSystem.replay (RadixTree.step 4096 fun k => some (4096*k)) t [.insert 0 0 7#64]).map
      (fun t => (radix32treeFind t 0,radix32treeDelete t 0 (prefixMask 0))) = some (.ok 7#64,.error .nullDeref) := by
    obtain rfl := Option.some.inj (Except.ok.inj ht)
    rfl
  obtain ⟨t',ht',hanswers⟩ := Option.map_eq_some_iff.mp hrun
  obtain ⟨hfind,hcrash⟩ := Prod.mk.inj hanswers
  have hreach : (calls 4096 (fun k => some (4096*k)) (fun _ => ⟨none,none,none,0⟩) 0).Reachable t' :=
    .of_replay (.init ht) ht'
  refine ⟨t',hreach,hfind,hcrash,fun hsafely => ?_⟩
  obtain ⟨rc,t'',-,-,hdelete,-⟩ := hsafely
  rw [hcrash] at hdelete
  cases hdelete

end InsideNginx.Radix
