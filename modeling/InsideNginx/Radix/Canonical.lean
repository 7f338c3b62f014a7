import InsideNginx.Radix.PrefixMap

/-! The shape of a tree that was created without preallocation and never ran out of memory: its
nodes are those that the stored prefixes need, whatever run has led there. -/
namespace InsideNginx.Radix
variable {pagesize : ℕ} {page : ℕ → Option ℕ} {heap : ℕ → RadixNode} {t : RadixTree} {s : State}

/-- The value of the node at the end of a path, `none` where there is no node. -/
def RadixTree.view (t : RadixTree) (q : List Bool) : Option (BitVec 64) :=
  (t.walk q).map fun a => (t.heap a).value

/-- A tree that has no more nodes than the stored prefixes need. -/
structure Canonical (t : RadixTree) (stored : List Bool → Option (BitVec 64)) : Prop where
  nodes : ∀ q, t.walk q ≠ none ↔ q = [] ∨ ∃ p, q <+: p ∧ stored p ≠ none
  values : ∀ q a, t.walk q = some a → (t.heap a).value = (stored q).getD noValue
  leaves : ∀ q a, t.walk q = some a → q ≠ [] → (t.heap a).hasChild = false → (t.heap a).value ≠ noValue
  root : ∃ r, t.root = some r ∧ (t.heap r).parent = none
  parent : ∀ p b a c, t.walk p = some a → t.child a b = some c → (t.heap c).parent = some a
  inj : ∀ p q a, t.walk p = some a → t.walk q = some a → p = q

theorem walk_ne_none_of_stored {p q : List Bool} (hqp : q <+: p) (hp : t.stored p ≠ none) : t.walk q ≠ none :=
  fun hq => hp (stored_of_none (LinkedTree.walk_eq_none_below hq hqp))

/-- A leaf that is needed by a stored prefix stores it. -/
theorem TidyOff.leaf {q : List Bool} {a : ℕ} (h : TidyOff t []) (hq : t.walk q = some a) (hne : q ≠ [])
    (hleaf : (t.heap a).hasChild = false) : (t.heap a).value ≠ noValue := by
  rcases h q (by simp [hq]) with hnil | ⟨p,hqp,hp⟩
  · exact absurd (List.prefix_nil.mp hnil) hne
  · obtain ⟨x,rfl⟩ := hqp
    cases x with
    | nil => simpa [stored_of_walk hq,valueOf_eq_none] using hp
    | cons b bs =>
      refine absurd ?_ (walk_ne_none_of_stored (q := q ++ [b]) ⟨bs,by simp⟩ hp)
      rw [walk_concat,hq]
      exact hasChild_eq_false.mp hleaf b

theorem WellFormed.canonical {free : List ℕ} (h : WellFormed pagesize page t free) (htidy : TidyOff t []) :
    Canonical t t.stored where
  nodes q := by
    constructor
    · exact fun hq => (htidy q hq).imp_left List.prefix_nil.mp
    · rintro (rfl | ⟨p,hqp,hp⟩)
      · obtain ⟨r,hr,-⟩ := h.shaped.root
        simp [hr]
      · exact walk_ne_none_of_stored hqp hp
  values q a hq := by rw [stored_of_walk hq]; exact value_eq_getD _
  leaves q a := htidy.leaf
  root := h.shaped.root
  parent := h.shaped.parent
  inj := h.shaped.inj

/-- What a canonical tree looks like depends on the stored prefixes alone. -/
theorem Canonical.view_eq {stored : List Bool → Option (BitVec 64)} {t' : RadixTree} (h : Canonical t stored)
    (h' : Canonical t' stored) : t.view = t'.view := by
  funext q
  have hnodes : t.walk q ≠ none ↔ t'.walk q ≠ none := (h.nodes q).trans (h'.nodes q).symm
  cases ha : t.walk q with
  | none =>
    have hb : t'.walk q = none := by simpa [ha] using hnodes
    simp [RadixTree.view,ha,hb]
  | some a =>
    obtain ⟨b,hb⟩ := Option.ne_none_iff_exists'.mp (hnodes.mp (by simp [ha]))
    simp [RadixTree.view,ha,hb,h.values q a ha,h'.values q b hb]

/-- Without preallocation the created tree is its root. -/
theorem radixTreeCreate_tidy (h : radixTreeCreate true pagesize page heap 0 = .ok (some t)) : TidyOff t [] := by
  simp only [radixTreeCreate,if_pos] at h
  split at h
  · cases h
  · rename_i r t₁ halloc
    obtain rfl := Option.some.inj (Except.ok.inj h)
    intro q hq
    obtain ⟨a,ha⟩ := Option.ne_none_iff_exists'.mp hq
    exact .inl (List.prefix_nil.mpr (walk_root rfl (by simp [RadixTree.store]) ha).1)

/-- The nodes of a tree stay needed until an allocation fails. -/
theorem reachable_tidy (hpages : FreshPages pagesize page) (hpagesize : nodeSize ≤ pagesize)
    (h : (prefixMap pagesize page heap 0).Reachable s) : Tidy page s.tree := by
  refine h.invariant (I := fun s => Tidy page s.tree) ?_ ?_
  · rintro s ⟨hcreate,-⟩
    exact .inr (radixTreeCreate_tidy hcreate)
  · rintro s op s' hs htidy hstep
    obtain ⟨⟨free,hwf⟩,-⟩ := reachable_stored hpages hpagesize hs
    cases op with
    | insert key n value =>
      change State.step pagesize page s (.insert key n value) = some s' at hstep
      simp only [State.step] at hstep
      split at hstep
      · rename_i hguard
        obtain ⟨rc,t',free',hinsert,-,hkeep,-⟩ :=
          radix32treeInsert_spec hpages hpagesize hguard.1 hwf key value
        rw [hinsert] at hstep
        cases rc <;> obtain rfl := Option.some.inj hstep <;> exact hkeep hguard.2 htidy
      · cases hstep
    | delete key n =>
      change State.step pagesize page s (.delete key n) = some s' at hstep
      simp only [State.step] at hstep
      split at hstep
      · rename_i hguard
        obtain ⟨rc,t',free',hdelete,-,hkeep,-⟩ := radix32treeDelete_spec hguard.2 hguard.1 hwf key
        rw [hdelete] at hstep
        obtain rfl := Option.some.inj hstep
        exact hkeep htidy
      · cases hstep

/-- A reachable tree is canonical as long as no allocation has failed. -/
theorem reachable_canonical (hpages : FreshPages pagesize page) (hpagesize : nodeSize ≤ pagesize)
    (h : (prefixMap pagesize page heap 0).Reachable s) (hmemory : ¬ Starved page s.tree) :
    Canonical s.tree s.stored := by
  obtain ⟨⟨free,hwf⟩,hsame⟩ := reachable_stored hpages hpagesize h
  rw [← funext hsame]
  exact hwf.canonical ((reachable_tidy hpages hpagesize h).resolve_left hmemory)

/-- The shape of the tree does not depend on its history. -/
theorem shape_canonical {pagesize' : ℕ} {page' : ℕ → Option ℕ} {heap' : ℕ → RadixNode} {s' : State}
    (hpages : FreshPages pagesize page) (hpages' : FreshPages pagesize' page')
    (hpagesize : nodeSize ≤ pagesize) (hpagesize' : nodeSize ≤ pagesize')
    (h : (prefixMap pagesize page heap 0).Reachable s) (h' : (prefixMap pagesize' page' heap' 0).Reachable s')
    (hmemory : ¬ Starved page s.tree) (hmemory' : ¬ Starved page' s'.tree) (hsame : s.stored = s'.stored) :
    s.tree.view = s'.tree.view ∧ Canonical s.tree s.stored ∧ Canonical s'.tree s'.stored := by
  have hs := reachable_canonical hpages hpagesize h hmemory
  have hs' := reachable_canonical hpages' hpagesize' h' hmemory'
  exact ⟨hs.view_eq (hsame ▸ hs'),hs,hs'⟩

/-- Storing `10000000` and deleting it again leaves the tree that stores the prefix `1` alone. -/
theorem shape_canonical_example : ∃ s s' : State,
    (prefixMap 64 (fun k => some (64*k)) (fun _ => ⟨none,none,none,0⟩) 0).Reachable s ∧
    (prefixMap 64 (fun k => some (64*k)) (fun _ => ⟨none,none,none,0⟩) 0).Reachable s' ∧
    s.tree.freeList ≠ s'.tree.freeList ∧ s.tree.view = s'.tree.view ∧
    Canonical s.tree s.stored ∧ Canonical s'.tree s'.stored := by
  have hpages := freshPages_mul 64
  have hmemory : ∀ t, ¬ Starved (fun k => some (64*k)) t := fun t ⟨k,_,hk⟩ => by simp at hk
  obtain ⟨t,ht⟩ : ∃ t, radixTreeCreate true 64 (fun k => some (64*k)) (fun _ => ⟨none,none,none,0⟩) 0 =
    .ok (some t) := ⟨_,rfl⟩
  obtain ⟨s,hs⟩ : ∃ s, TransitionSystem.replay (State.step 64 fun k => some (64*k)) ⟨t,fun _ => none⟩
      [.insert 0x80000000#32 8 9#64,.insert 0x80000000#32 1 7#64,.delete 0x80000000#32 8] = some s := by
    obtain rfl := Option.some.inj (Except.ok.inj ht)
    exact ⟨_,rfl⟩
  obtain ⟨s',hs'⟩ : ∃ s, TransitionSystem.replay (State.step 64 fun k => some (64*k)) ⟨t,fun _ => none⟩
      [.insert 0x80000000#32 1 7#64] = some s := by
    obtain rfl := Option.some.inj (Except.ok.inj ht)
    exact ⟨_,rfl⟩
  have hreach : (prefixMap 64 (fun k => some (64*k)) (fun _ => ⟨none,none,none,0⟩) 0).Reachable s :=
    .of_replay (.init ⟨ht,fun _ => rfl⟩) hs
  have hreach' : (prefixMap 64 (fun k => some (64*k)) (fun _ => ⟨none,none,none,0⟩) 0).Reachable s' :=
    .of_replay (.init ⟨ht,fun _ => rfl⟩) hs'
  obtain rfl := Option.some.inj (Except.ok.inj ht)
  cases hs
  cases hs'
  refine ⟨_,_,hreach,hreach',by decide +kernel,shape_canonical hpages hpages (by decide) (by decide) hreach hreach'
    (hmemory _) (hmemory _) ?_⟩
  have hne : path 0x80000000#32 8 ≠ path 0x80000000#32 1 := by decide
  funext q
  by_cases hq : q = path 0x80000000#32 8
  · subst hq
    simp [hne]
  · simp [Function.update,hq]

end InsideNginx.Radix
