import InsideNginx.Radix.PrefixMap

/-! What the operations answer, and how far the answers show the layout of the tree: deletion
takes a leaf that stores nothing for a stored prefix. -/
namespace InsideNginx.Radix
variable {pagesize : ℕ} {page page' : ℕ → Option ℕ} {heap heap' : ℕ → RadixNode} {levels levels' : ℤ}
  {n : ℕ}

/-- The return code of an operation. -/
def State.answer (pagesize : ℕ) (page : ℕ → Option ℕ) (s : State) : Op → Option Rc
  | .insert key n value => (radix32treeInsert pagesize page s.tree key (prefixMask n) value).toOption.map Prod.fst
  | .delete key n => (radix32treeDelete s.tree key (prefixMask n)).toOption.map Prod.fst

/-- Deletion succeeds where a value is stored, and on a leaf that stores nothing. -/
theorem answer_delete (hpages : FreshPages pagesize page) (hpagesize : nodeSize ≤ pagesize) {s : State}
    (h : (prefixMap pagesize page heap levels).Reachable s) (key : BitVec 32) (hpos : 0 < n) (hn : n ≤ 32) :
    ∃ rc, s.answer pagesize page (.delete key n) = some rc ∧ rc ≠ .busy ∧
      (rc = .ok ↔ s.stored (path key n) ≠ none ∨ Idle s.tree (path key n)) := by
  obtain ⟨⟨free,hwf⟩,hsame⟩ := reachable_stored hpages hpagesize h
  obtain ⟨rc,t',free',hdelete,-,-,hbusy,hok,-⟩ := radix32treeDelete_spec hn hpos hwf key
  exact ⟨rc,by simp [State.answer,hdelete,Except.toOption],hbusy,by rwa [← hsame]⟩

theorem answer_insert (hpages : FreshPages pagesize page) (hpagesize : nodeSize ≤ pagesize) {s : State}
    (h : (prefixMap pagesize page heap levels).Reachable s) (key : BitVec 32) (hn : n ≤ 32) (value : BitVec 64) :
    ∃ rc, s.answer pagesize page (.insert key n value) = some rc ∧ (rc = .busy ↔ s.stored (path key n) ≠ none) := by
  obtain ⟨⟨free,hwf⟩,hsame⟩ := reachable_stored hpages hpagesize h
  obtain ⟨rc,t',free',hinsert,-,-,hbusy,-,-⟩ := radix32treeInsert_spec hpages hpagesize hn hwf key value
  exact ⟨rc,by simp [State.answer,hinsert,Except.toOption],by rwa [← hsame]⟩

/-- A leaf that stores nothing is not stored. -/
theorem Idle.stored {t : RadixTree} {p : List Bool} (h : Idle t p) : t.stored p = none := by
  obtain ⟨a,ha,-,hv⟩ := h
  rw [stored_of_walk ha,hv,valueOf_noValue]

theorem reachable_idle (hpages : FreshPages pagesize page) (hpagesize : nodeSize ≤ pagesize) {s : State}
    (h : (prefixMap pagesize page heap levels).Reachable s) (p : List Bool) (hidle : Idle s.tree p) :
    s.stored p = none := by
  obtain ⟨-,hsame⟩ := reachable_stored hpages hpagesize h
  rw [← hsame,hidle.stored]

theorem or_iff_or_iff {p q r : Prop} (hq : q → ¬ p) (hr : r → ¬ p) : (p ∨ q ↔ p ∨ r) ↔ (q ↔ r) := by
  by_cases hp : p <;> simp_all

/-! ### Two trees -/

/-- One list of operations run on two trees. -/
structure Twins where
  first : State
  second : State

def Twins.step (pagesize : ℕ) (page page' : ℕ → Option ℕ) (s : Twins) (op : Op) : Option Twins := do
  let first ← s.first.step pagesize page op
  let second ← s.second.step pagesize page' op
  return ⟨first,second⟩

/-- An insertion runs out of memory on both trees or on neither. -/
def Twins.AlikeMemory (pagesize : ℕ) (page page' : ℕ → Option ℕ) (s : Twins) : Op → Prop
  | .insert key n value => s.first.answer pagesize page (.insert key n value) = some .error ↔
      s.second.answer pagesize page' (.insert key n value) = some .error
  | .delete _ _ => True

/-- The runs on two trees that may differ in preallocation and memory. -/
def twins (pagesize : ℕ) (page page' : ℕ → Option ℕ) (heap heap' : ℕ → RadixNode) (levels levels' : ℤ) :
    TransitionSystem Twins Op :=
  (TransitionSystem.ofFunction (fun s => (prefixMap pagesize page heap levels).init s.first ∧
    (prefixMap pagesize page' heap' levels').init s.second) (Twins.step pagesize page page')).restrict
      (Twins.AlikeMemory pagesize page page')

theorem Twins.step_cases {s s' : Twins} {op : Op} (h : s.step pagesize page page' op = some s') :
    s.first.step pagesize page op = some s'.first ∧ s.second.step pagesize page' op = some s'.second := by
  simp only [Twins.step,Option.bind_eq_bind,Option.bind_eq_some_iff] at h
  obtain ⟨first,hfirst,second,hsecond,hs⟩ := h
  obtain rfl := Option.some.inj hs
  exact ⟨hfirst,hsecond⟩

/-- The stored prefixes of the next state depend on the answer alone. -/
theorem State.step_stored {s s' : State} {op : Op} (h : s.step pagesize page op = some s') :
    s'.stored = match op with
      | .insert key n value => if s.answer pagesize page (.insert key n value) = some .ok then
          Function.update s.stored (path key n) (some value) else s.stored
      | .delete key n => Function.update s.stored (path key n) none := by
  cases op with
  | insert key n value =>
    simp only [State.step] at h
    split at h
    · split at h
      · rename_i hrun
        obtain rfl := Option.some.inj h
        simp [State.answer,hrun,Except.toOption]
      · rename_i rc t hok hrun
        obtain rfl := Option.some.inj h
        simpa [State.answer,hrun,Except.toOption] using fun he => absurd he hok
      · cases h
    · cases h
  | delete key n =>
    simp only [State.step] at h
    split at h
    · split at h
      · obtain rfl := Option.some.inj h
        rfl
      · cases h
    · cases h

/-- Insertions that run out of memory alike answer alike on trees that store the same. -/
theorem answer_insert_eq (hpages : FreshPages pagesize page) (hpages' : FreshPages pagesize page')
    (hpagesize : nodeSize ≤ pagesize) {s : Twins} (h : (prefixMap pagesize page heap levels).Reachable s.first)
    (h' : (prefixMap pagesize page' heap' levels').Reachable s.second) (hsame : s.first.stored = s.second.stored)
    {key : BitVec 32} {value : BitVec 64} (hn : n ≤ 32) (halike : s.AlikeMemory pagesize page page' (.insert key n value)) :
    s.first.answer pagesize page (.insert key n value) = s.second.answer pagesize page' (.insert key n value) := by
  obtain ⟨rc,hrc,hbusy⟩ := answer_insert hpages hpagesize h key hn value
  obtain ⟨rc',hrc',hbusy'⟩ := answer_insert hpages' hpagesize h' key hn value
  have herror : rc = .error ↔ rc' = .error := by simpa [Twins.AlikeMemory,hrc,hrc'] using halike
  have hbusy : rc = .busy ↔ rc' = .busy := by rw [hbusy,hbusy',hsame]
  rw [hrc,hrc']
  cases rc <;> cases rc' <;> simp_all

/-- Two trees of one run are reachable and store the same. -/
theorem twins_stored (hpages : FreshPages pagesize page) (hpages' : FreshPages pagesize page')
    (hpagesize : nodeSize ≤ pagesize) {s : Twins}
    (h : (twins pagesize page page' heap heap' levels levels').Reachable s) :
    (prefixMap pagesize page heap levels).Reachable s.first ∧
    (prefixMap pagesize page' heap' levels').Reachable s.second ∧ s.first.stored = s.second.stored := by
  refine h.invariant (I := fun s => (prefixMap pagesize page heap levels).Reachable s.first ∧
    (prefixMap pagesize page' heap' levels').Reachable s.second ∧ s.first.stored = s.second.stored) ?_ ?_
  · rintro s ⟨hinit,hinit'⟩
    exact ⟨.init hinit,.init hinit',funext fun q => (hinit.2 q).trans (hinit'.2 q).symm⟩
  · rintro s op s' - ⟨hs,hs',hsame⟩ ⟨halike,hstep⟩
    obtain ⟨hfirst,hsecond⟩ := Twins.step_cases hstep
    refine ⟨.step hs hfirst,.step hs' hsecond,?_⟩
    rw [State.step_stored hfirst,State.step_stored hsecond,hsame]
    cases op with
    | insert key n value =>
      have hn : n ≤ 32 := by
        simp only [State.step] at hfirst
        split at hfirst
        · rename_i hguard; exact hguard.1
        · cases hfirst
      simp only [answer_insert_eq hpages hpages' hpagesize hs hs' hsame hn halike]
    | delete key n => rfl

/-- A deletion answers as if it looked at the stored prefixes alone unless it meets a leaf that
stores nothing; on two trees that differ in preallocation it answers alike unless it meets one
on just one of them, and the other operations answer alike always. -/
theorem delete_answers (hpages : FreshPages pagesize page) (hpages' : FreshPages pagesize page')
    (hpagesize : nodeSize ≤ pagesize) (heap heap' : ℕ → RadixNode) (levels levels' : ℤ) :
    (∀ s, (prefixMap pagesize page heap levels).Reachable s → ∀ key n, 0 < n → n ≤ 32 →
      ((s.answer pagesize page (.delete key n) = some .ok ↔ s.stored (path key n) ≠ none) ↔
        ¬ Idle s.tree (path key n))) ∧
    ∀ s, (twins pagesize page page' heap heap' levels levels').Reachable s →
      (∀ key n, 0 < n → n ≤ 32 →
        (s.first.answer pagesize page (.delete key n) = s.second.answer pagesize page' (.delete key n) ↔
          (Idle s.first.tree (path key n) ↔ Idle s.second.tree (path key n)))) ∧
      (∀ key n value, n ≤ 32 → s.AlikeMemory pagesize page page' (.insert key n value) →
        s.first.answer pagesize page (.insert key n value) =
          s.second.answer pagesize page' (.insert key n value)) ∧
      ∀ key, radix32treeFind s.first.tree key = radix32treeFind s.second.tree key := by
  refine ⟨fun s h key n hpos hn => ?_,fun s h => ?_⟩
  · obtain ⟨rc,hrc,-,hok⟩ := answer_delete hpages hpagesize h key hpos hn
    have hidle := reachable_idle hpages hpagesize h (path key n)
    rw [hrc,Option.some.injEq,hok]
    tauto
  · obtain ⟨hs,hs',hsame⟩ := twins_stored hpages hpages' hpagesize h
    refine ⟨fun key n hpos hn => ?_,fun key n value hn halike => ?_,fun key => ?_⟩
    · obtain ⟨rc,hrc,hbusy,hok⟩ := answer_delete hpages hpagesize hs key hpos hn
      obtain ⟨rc',hrc',hbusy',hok'⟩ := answer_delete hpages' hpagesize hs' key hpos hn
      have hidle := hsame ▸ reachable_idle hpages hpagesize hs (path key n)
      have hidle' := reachable_idle hpages' hpagesize hs' (path key n)
      have hrcs : rc = rc' ↔ (rc = .ok ↔ rc' = .ok) := by cases rc <;> cases rc' <;> simp_all
      rw [hrc,hrc',Option.some.injEq,hrcs,hok,hok',hsame]
      exact or_iff_or_iff (fun hi hne => hne (hidle hi)) (fun hi hne => hne (hidle' hi))
    · exact answer_insert_eq hpages hpages' hpagesize hs hs' hsame hn halike
    · obtain ⟨⟨free,hwf⟩,hstored⟩ := reachable_stored hpages hpagesize hs
      obtain ⟨⟨free',hwf'⟩,hstored'⟩ := reachable_stored hpages' hpagesize hs'
      obtain ⟨v,hv,hlongest⟩ := radix32treeFind_spec hwf.shaped key
      obtain ⟨v',hv',hlongest'⟩ := radix32treeFind_spec hwf'.shaped key
      rw [show s.first.tree.stored = s.second.tree.stored from
        funext fun q => by rw [hstored,hstored',hsame]] at hlongest
      rw [hv,hv',valueOf_injective (hlongest.unique hlongest')]

/-- With one preallocated level, the deletion of a prefix of length 8 that is not stored fails. -/
theorem delete_answers_example : ∃ s : State,
    (prefixMap 64 (fun k => some (64*k)) (fun _ => ⟨none,none,none,0⟩) 1).Reachable s ∧
    (s.answer 64 (fun k => some (64*k)) (.delete 0x80000000#32 8) = some .ok ↔
      s.stored (path 0x80000000#32 8) ≠ none) := by
  have hpages := freshPages_mul 64
  obtain ⟨t,ht⟩ : ∃ t, radixTreeCreate true 64 (fun k => some (64*k)) (fun _ => ⟨none,none,none,0⟩) 1 =
    .ok (some t) := ⟨_,rfl⟩
  have hreach : (prefixMap 64 (fun k => some (64*k)) (fun _ => ⟨none,none,none,0⟩) 1).Reachable
      ⟨t,fun _ => none⟩ := .init ⟨ht,fun _ => rfl⟩
  refine ⟨_,hreach,((delete_answers hpages hpages (by decide) _ (fun _ => ⟨none,none,none,0⟩) _ 0).1 _ hreach
    0x80000000#32 8 (by decide) (by decide)).mpr ?_⟩
  have hwalk : t.walk (path 0x80000000#32 8) = none := by
    cases ht
    decide +kernel
  rintro ⟨a,ha,-⟩
  rw [hwalk] at ha
  cases ha

/-- Right after a creation with one preallocated level, the deletion of the prefix `1` succeeds
although nothing is stored; without preallocation it fails. -/
theorem idle_leaf_deleted : ∃ s s' : State,
    (prefixMap 64 (fun k => some (64*k)) (fun _ => ⟨none,none,none,0⟩) 1).Reachable s ∧
    (prefixMap 64 (fun k => some (64*k)) (fun _ => ⟨none,none,none,0⟩) 0).Reachable s' ∧
    s.stored (path 0x80000000#32 1) = none ∧ s'.stored = s.stored ∧
    s.answer 64 (fun k => some (64*k)) (.delete 0x80000000#32 1) = some .ok ∧
    s'.answer 64 (fun k => some (64*k)) (.delete 0x80000000#32 1) = some .error := by
  obtain ⟨t,ht⟩ : ∃ t, radixTreeCreate true 64 (fun k => some (64*k)) (fun _ => ⟨none,none,none,0⟩) 1 =
    .ok (some t) := ⟨_,rfl⟩
  obtain ⟨t',ht'⟩ : ∃ t, radixTreeCreate true 64 (fun k => some (64*k)) (fun _ => ⟨none,none,none,0⟩) 0 =
    .ok (some t) := ⟨_,rfl⟩
  refine ⟨⟨t,fun _ => none⟩,⟨t',fun _ => none⟩,.init ⟨ht,fun _ => rfl⟩,.init ⟨ht',fun _ => rfl⟩,rfl,rfl,?_,?_⟩
  · cases ht
    decide +kernel
  · cases ht'
    decide +kernel

end InsideNginx.Radix
