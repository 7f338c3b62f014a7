import InsideNginx.Rbtree.Delete

/-! The traversal of a tree from its minimum on by `ngx_rbtree_next`, and the loop of
`ngx_event_no_timers_left` over the timers. -/
namespace InsideNginx.Rbtree
open ColorTree

/-- The loop of `ngx_rbtree_next`. -/
def rbtreeClimb : ℕ → RbtreeMem → ℕ → Option ℕ → Except Fault (Option ℕ)
  | 0,_,_,_ => .error .noReturn
  | _+1,_,_,none => .ok none
  | fuel+1,t,node,some parent =>
    if some node = t.left parent then .ok (some parent) else rbtreeClimb fuel t parent (t.parent parent)

/-- `ngx_rbtree_next`. -/
def rbtreeNext (fuel : ℕ) (t : RbtreeMem) (node : ℕ) : Except Fault (Option ℕ) :=
  if t.right node = some t.sentinel then rbtreeClimb fuel t node (t.parent node)
  else do return some (← rbtreeMin fuel t (← deref (t.right node)))

/-- The nodes from one on that `ngx_rbtree_next` visits, until it returns NULL. -/
def visit (fuel : ℕ) (t : RbtreeMem) : ℕ → Option ℕ → Except Fault (List ℕ)
  | 0,_ => .error .noReturn
  | _+1,none => .ok []
  | k+1,some node => do return node::(← visit fuel t k (← rbtreeNext fuel t node))

/-- The loop of `ngx_event_no_timers_left`. -/
def noTimersLoop (cancelable : ℕ → Bool) (fuel : ℕ) (t : RbtreeMem) : ℕ → Option ℕ → Except Fault Bool
  | 0,_ => .error .noReturn
  | _+1,none => .ok true
  | k+1,some node =>
    if !cancelable node then .ok false
    else do noTimersLoop cancelable fuel t k (← rbtreeNext fuel t node)

/-- `ngx_event_no_timers_left`: whether it returns NGX_OK. `cancelable` belongs to the event of a node. -/
def noTimersLeft (cancelable : ℕ → Bool) (fuel : ℕ) (t : RbtreeMem) : Except Fault Bool :=
  if t.root = some t.sentinel then .ok true
  else do
    let node ← rbtreeMin fuel t (← deref t.root)
    noTimersLoop cancelable fuel t fuel (some node)

variable {t : RbtreeMem} {fs : Ctx ℕ} {T l r : CTree ℕ} {a : ℕ} {c : Color} {fuel : ℕ}

/-! ### One step -/

theorem depth_le (T : CTree ℕ) : depth T ≤ T.inorder.length := by
  induction T with
  | leaf => simp [depth]
  | node c l a r ihl ihr =>
    simp only [depth,CTree.inorder_node,List.length_append,List.length_cons]
    omega

theorem length_le_labels (fs : Ctx ℕ) : fs.length ≤ (labels fs).length := by
  induction fs with
  | nil => simp
  | cons f fs ih =>
    simp only [labels,List.length_cons,List.length_append]
    omega

theorem head_leftmost (c : Color) (l : CTree ℕ) (a : ℕ) (r : CTree ℕ) (fs : Ctx ℕ) :
    (CTree.node c l a r).inorder.head? = some (leftmost c l a r fs).2.2.1 := by
  induction l generalizing c a r fs with
  | leaf => rfl
  | node c' l' b r' ihl _ =>
    rw [CTree.inorder_node,List.head?_append,ihl c' b r' (⟨false,c,a,r⟩::fs)]
    rfl

/-- The minimum is the first node in order. -/
theorem rbtreeMin_head (h : Holds t fs (.node c l a r)) (hfuel : depth (.node c l a r) ≤ fuel) :
    ∃ m, rbtreeMin fuel t a = .ok m ∧ (CTree.node c l a r).inorder.head? = some m :=
  ⟨_,rbtreeMin_eq h hfuel,head_leftmost c l a r fs⟩

/-- The climb ends at the first node in order after the subtree. -/
theorem rbtreeClimb_eq (h : Holds t fs T) (hd : Distinct fs T) (hT : T ≠ .leaf) (ha : ptr t.sentinel T = some a)
    (hfuel : fs.length < fuel) : rbtreeClimb fuel t a (up fs) = .ok (after fs).head? := by
  induction fs generalizing T a fuel with
  | nil =>
    obtain ⟨fuel,rfl⟩ : ∃ k, fuel = k + 1 := ⟨fuel - 1,(Nat.sub_add_cancel hfuel).symm⟩
    rfl
  | cons f fs ih =>
    obtain ⟨fuel,rfl⟩ : ∃ k, fuel = k + 1 := ⟨fuel - 1,by omega⟩
    have hside := h.side_eq
    have hother := h.other_eq
    rw [up,rbtreeClimb]
    cases hright : f.right with
    | false =>
      rw [hright] at hside
      have hleft : t.left f.label = some a := hside.trans ha
      rw [if_pos hleft.symm]
      simp [after,hright]
    | true =>
      rw [hright] at hother
      have hleft : t.left f.label = ptr t.sentinel f.other := hother
      have hmem : a ∈ T.inorder := ptr_mem hT ha
      have hne : ptr t.sentinel f.other ≠ some a := by
        refine ptr_ne (h.2.ne_sentinel a hmem) fun hmem' => ?_
        simp only [Distinct,labels,List.nodup_append'] at hd
        exact hd.2.2 hmem (List.mem_cons_of_mem _ (List.mem_append_left _ hmem'))
      rw [if_neg (by rw [hleft]; exact hne.symm),h.label_parent,
        ih (holds_cons.mp h) (distinct_cons.mp hd) (by unfold Frame.fill; split <;> simp) ptr_fill (by simpa using hfuel)]
      simp [after,hright]

/-- The next node in order. -/
theorem rbtreeNext_eq (h : Holds t fs (.node c l a r)) (hd : Distinct fs (.node c l a r))
    (hfuel : r.inorder.length + fs.length < fuel) : rbtreeNext fuel t a = .ok (r.inorder ++ after fs).head? := by
  have hright : Holds t (⟨true,c,a,l⟩::fs) r := holds_cons.mpr h
  rw [rbtreeNext,h.right_eq]
  cases r with
  | leaf =>
    have hparent : t.parent a = up fs := h.parent_eq (by simp) rfl
    rw [ptr,if_pos rfl,hparent,rbtreeClimb_eq h hd (by simp) rfl (by simpa using hfuel)]
    rfl
  | node c' l' b r' =>
    have hb : b ≠ t.sentinel := hright.node_ne
    have hdepth : depth (.node c' l' b r') ≤ fuel := (depth_le _).trans (by omega)
    obtain ⟨m,hrun,hhead⟩ := rbtreeMin_head hright hdepth
    rw [if_neg (by simpa [ptr] using hb),List.head?_append,hhead]
    simp only [ptr,deref,orFault,bind,Except.bind,hrun,pure,Except.pure]
    rfl

/-! ### The whole traversal -/

/-- From a node the next one in order is reached, with fuel for all nodes. -/
theorem rbtreeNext_split (h : Holds t [] T) (hd : T.inorder.Nodup) {xs ys : List ℕ} (hsplit : T.inorder = xs ++ a::ys)
    (hfuel : T.inorder.length < fuel) : rbtreeNext fuel t a = .ok ys.head? := by
  obtain ⟨fs,c,l,r,rfl⟩ := exists_plug (show a ∈ T.inorder by simp [hsplit])
  have hholds : Holds t fs (.node c l a r) := holds_plug.mpr h
  have hdistinct : Distinct fs (.node c l a r) := distinct_iff.mpr hd
  have hlength := (inorder_plug_perm fs (.node c l a r)).length_eq
  rw [CTree.inorder_node,List.length_append,List.length_append,List.length_cons] at hlength
  have hfs := length_le_labels fs
  have horder := inorder_plug fs (.node c l a r)
  rw [hsplit,CTree.inorder_node,List.append_assoc,List.append_assoc,List.cons_append,← List.append_assoc] at horder
  -- a node stands in the order once
  have hafter : ys = r.inorder ++ after fs := by
    rw [hsplit] at hd
    obtain ⟨-,hrest,hapart⟩ := List.nodup_append'.mp hd
    refine ((List.append_cons_inj_of_notMem ?_ (List.nodup_cons.mp hrest).1).mp horder).2.2
    exact fun hmem => hapart hmem List.mem_cons_self
  rw [hafter]
  exact rbtreeNext_eq hholds hdistinct (by omega)

/-- From a node on the rest of the nodes is visited. -/
theorem visit_eq (h : Holds t [] T) (hd : T.inorder.Nodup) (hfuel : T.inorder.length < fuel) {xs ys : List ℕ}
    (hsplit : T.inorder = xs ++ ys) {k : ℕ} (hk : ys.length < k) : visit fuel t k ys.head? = .ok ys := by
  induction ys generalizing xs k with
  | nil =>
    obtain ⟨k,rfl⟩ : ∃ n, k = n + 1 := ⟨k - 1,(Nat.sub_add_cancel hk).symm⟩
    rfl
  | cons a ys ih =>
    obtain ⟨k,rfl⟩ : ∃ n, k = n + 1 := ⟨k - 1,by omega⟩
    have hrest := ih (by simpa using hsplit : T.inorder = xs ++ [a] ++ ys) (Nat.lt_of_succ_lt_succ hk)
    rw [List.head?_cons,visit,rbtreeNext_split h hd hsplit hfuel]
    simp only [bind,Except.bind,hrest,pure,Except.pure]

/-- The loop of `ngx_event_no_timers_left` stops at the first event that is not cancelable. -/
theorem noTimersLoop_eq (cancelable : ℕ → Bool) (h : Holds t [] T) (hd : T.inorder.Nodup)
    (hfuel : T.inorder.length < fuel) {xs ys : List ℕ} (hsplit : T.inorder = xs ++ ys) {k : ℕ} (hk : ys.length < k) :
    noTimersLoop cancelable fuel t k ys.head? = .ok (ys.all cancelable) := by
  induction ys generalizing xs k with
  | nil =>
    obtain ⟨k,rfl⟩ : ∃ n, k = n + 1 := ⟨k - 1,(Nat.sub_add_cancel hk).symm⟩
    rfl
  | cons a ys ih =>
    obtain ⟨k,rfl⟩ : ∃ n, k = n + 1 := ⟨k - 1,by omega⟩
    have hrest := ih (by simpa using hsplit : T.inorder = xs ++ [a] ++ ys) (Nat.lt_of_succ_lt_succ hk)
    rw [List.head?_cons,noTimersLoop,rbtreeNext_split h hd hsplit hfuel]
    cases hcancelable : cancelable a with
    | false => simp [hcancelable]
    | true => simpa [hcancelable,bind,Except.bind] using hrest

/-- The minimum of a whole tree. -/
theorem rbtreeMin_root (h : Holds t [] T) (hT : T ≠ .leaf) (hfuel : T.inorder.length < fuel) :
    ∃ root m, t.root = some root ∧ root ≠ t.sentinel ∧ rbtreeMin fuel t root = .ok m ∧ T.inorder.head? = some m := by
  cases T with
  | leaf => exact absurd rfl hT
  | node c l a r =>
    obtain ⟨m,hrun,hhead⟩ := rbtreeMin_head h ((depth_le _).trans hfuel.le)
    exact ⟨a,m,h.1,h.node_ne,hrun,hhead⟩

/-- `ngx_event_no_timers_left` looks at all timers. -/
theorem noTimersLeft_eq (cancelable : ℕ → Bool) (h : Holds t [] T) (hd : T.inorder.Nodup)
    (hfuel : T.inorder.length < fuel) : noTimersLeft cancelable fuel t = .ok (T.inorder.all cancelable) := by
  unfold noTimersLeft
  by_cases hT : T = .leaf
  · subst hT
    exact if_pos h.1
  · obtain ⟨root,m,hroot,hne,hrun,hhead⟩ := rbtreeMin_root h hT hfuel
    have hloop := noTimersLoop_eq cancelable h hd hfuel (List.nil_append T.inorder).symm hfuel
    rw [hhead] at hloop
    rw [hroot,if_neg (by simpa using hne)]
    simp only [deref,orFault,bind,Except.bind,hrun,hloop]

/-- The traversal visits every node once and in order, and the timers are looked at until one is not
cancelable. -/
theorem traversal_inorder (h : Holds t [] T) (hd : T.inorder.Nodup) : ∃ k, ∀ fuel, k ≤ fuel →
    (T ≠ .leaf → ∃ root m, t.root = some root ∧ rbtreeMin fuel t root = .ok m ∧
      visit fuel t fuel (some m) = .ok T.inorder ∧ ∀ a ∈ T.inorder, ∃ next, rbtreeNext fuel t a = .ok next) ∧
    ∀ cancelable : ℕ → Bool, ∃ left, noTimersLeft cancelable fuel t = .ok left ∧
      (left = true ↔ ∀ a ∈ T.inorder, cancelable a = true) := by
  refine ⟨T.inorder.length + 1,fun fuel hfuel => ⟨fun hT => ?_,fun cancelable => ?_⟩⟩
  · obtain ⟨root,m,hroot,-,hrun,hhead⟩ := rbtreeMin_root h hT hfuel
    have hvisit := visit_eq h hd hfuel (List.nil_append T.inorder).symm hfuel
    rw [hhead] at hvisit
    refine ⟨root,m,hroot,hrun,hvisit,fun a ha => ?_⟩
    obtain ⟨xs,ys,hsplit⟩ := List.append_of_mem ha
    exact ⟨_,rbtreeNext_split h hd hsplit hfuel⟩
  · exact ⟨_,noTimersLeft_eq cancelable h hd hfuel,List.all_eq_true⟩

/-- Three nodes, the root 2 with the children 1 and 3. -/
def threeNodes : RbtreeMem where
  key _ := 0
  left x := if x = 2 then some 1 else some 0
  right x := if x = 2 then some 3 else some 0
  parent x := if x = 2 then none else some 2
  color _ := .black
  root := some 2
  sentinel := 0

/-- A timer that is not cancelable is left. -/
theorem traversal_inorder_three : ∃ fuel, ∃ left, noTimersLeft (fun x => x != 3) fuel threeNodes = .ok left ∧
    left = false := by
  have hholds : Holds threeNodes [] (.node .black (.node .black .leaf 1 .leaf) 2 (.node .black .leaf 3 .leaf)) := by
    simp [Holds,RepCtx,Rep,ptr,up,threeNodes]
  obtain ⟨k,hk⟩ := traversal_inorder hholds (by simp)
  obtain ⟨left,hrun,hleft⟩ := (hk k le_rfl).2 fun x => x != 3
  refine ⟨k,left,hrun,Bool.eq_false_iff.mpr fun htrue => ?_⟩
  exact absurd (hleft.mp htrue 3 (by simp)) (by decide)

end InsideNginx.Rbtree
