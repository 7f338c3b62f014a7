import InsideNginx.General.WrappedClock
import InsideNginx.Rbtree.Insert

/-! The insertion of timers, whose keys wrap, is the ordinary insertion on the times that they
stand for. -/
namespace InsideNginx.Rbtree
open ColorTree WrappedClock

/-- The loop of `ngx_rbtree_insert_timer_value` and the stores after it. -/
def rbtreeInsertTimerValue : ℕ → RbtreeMem → ℕ → ℕ → Except Fault RbtreeMem
  | 0,_,_,_ => .error .noReturn
  | fuel+1,t,temp,node =>
    let less := decide ((t.key node - t.key temp).toInt < 0)
    let p := if less then t.left temp else t.right temp
    if p = some t.sentinel then
      let t := if less then t.setLeft temp (some node) else t.setRight temp (some node)
      let t := t.setParent node (some temp)
      let t := t.setLeft node (some t.sentinel)
      let t := t.setRight node (some t.sentinel)
      .ok (t.setColor node .red)
    else do rbtreeInsertTimerValue fuel t (← deref p) node

/-- The same memory with the time from `b` on for each key. -/
def RbtreeMem.unwrap (b : RbtreeKey) (t : RbtreeMem) : RbtreeMem := { t with key := fun x => t.key x - b }

variable {t : RbtreeMem} {fs : Ctx ℕ} {T l r : CTree ℕ} {a n : ℕ} {c : Color} {b : RbtreeKey} {q : Option ℕ}

theorem unwrap_injective (b : RbtreeKey) : Function.Injective (RbtreeMem.unwrap b) := by
  intro t t' h
  obtain ⟨key,left,right,parent,color,root,sentinel⟩ := t
  obtain ⟨key',left',right',parent',color',root',sentinel'⟩ := t'
  simp only [RbtreeMem.unwrap,RbtreeMem.mk.injEq] at h ⊢
  refine ⟨funext fun x => ?_,h.2⟩
  have hx := congrFun h.1 x
  simpa using hx

theorem holds_unwrap : Holds (t.unwrap b) fs T ↔ Holds t fs T :=
  ⟨fun h => h.congr rfl rfl fun _ _ => ⟨rfl,rfl,rfl,rfl⟩,fun h => h.congr rfl rfl fun _ _ => ⟨rfl,rfl,rfl,rfl⟩⟩

theorem linked_unwrap : linked (t.unwrap b) fs n = (linked t fs n).unwrap b := by
  cases fs with
  | nil => rfl
  | cons f fs =>
    obtain ⟨right,c,a,other⟩ := f
    cases right <;> rfl

/-- The signed comparison is the comparison of the times. -/
theorem timer_less (hn : Within b (t.key n)) (ha : Within b (t.key a)) :
    decide ((t.key n - t.key a).toInt < 0) = goesLeft (t.unwrap b) n a := by
  unfold goesLeft
  rw [decide_eq_decide,toInt_sub_neg_iff hn ha,BitVec.lt_def]
  rfl

/-- Step by step the loop does what the ordinary one does on the times. -/
theorem rbtreeInsertTimerValue_eq (fuel : ℕ) (h : Holds t fs (.node c l a r)) (hn : Within b (t.key n))
    (hwithin : ∀ x ∈ (CTree.node c l a r).inorder, Within b (t.key x)) :
    (rbtreeInsertTimerValue fuel t a n).map (RbtreeMem.unwrap b) = rbtreeInsertValue fuel (t.unwrap b) a n := by
  induction fuel generalizing c l a r fs with
  | zero => rfl
  | succ fuel ih =>
    have hleft : Holds t (⟨false,c,a,r⟩::fs) l := holds_cons.mpr h
    have hright : Holds t (⟨true,c,a,l⟩::fs) r := holds_cons.mpr h
    have hless : decide ((t.key n - t.key a).toInt < 0) = decide ((t.unwrap b).key n < (t.unwrap b).key a) :=
      timer_less hn (hwithin a (by simp))
    have hchild : ∀ {u : CTree ℕ} {f : Frame ℕ} (_ : Holds t (f::fs) u) (_ : u ≠ .leaf)
        (_ : ∀ x ∈ u.inorder, x ∈ (CTree.node c l a r).inorder),
        (do rbtreeInsertTimerValue fuel t (← deref (ptr t.sentinel u)) n).map (RbtreeMem.unwrap b) =
          (do rbtreeInsertValue fuel (t.unwrap b) (← deref (ptr t.sentinel u)) n) ∧
        ptr t.sentinel u ≠ some t.sentinel := by
      intro u f hu hne hsub
      cases u with
      | leaf => cases hne rfl
      | node c' l' x r' => exact ⟨ih hu fun y hy => hwithin y (hsub y hy),by simpa [ptr] using hu.2.1⟩
    unfold rbtreeInsertTimerValue rbtreeInsertValue
    rw [hless]
    cases decide ((t.unwrap b).key n < (t.unwrap b).key a) with
    | true =>
      have hpointer : (t.unwrap b).left a = ptr t.sentinel l := h.left_eq
      simp only [if_true,h.left_eq,hpointer]
      by_cases hleaf : l = .leaf
      · subst hleaf
        rw [ptr,if_pos rfl,if_pos (show some t.sentinel = some (t.unwrap b).sentinel from rfl)]
        rfl
      · obtain ⟨hrun,hne⟩ := hchild hleft hleaf fun x hx => by simp [hx]
        rw [if_neg hne,if_neg (show ptr t.sentinel l ≠ some (t.unwrap b).sentinel from hne)]
        exact hrun
    | false =>
      have hpointer : (t.unwrap b).right a = ptr t.sentinel r := h.right_eq
      simp only [Bool.false_eq_true,if_false,h.right_eq,hpointer]
      by_cases hleaf : r = .leaf
      · subst hleaf
        rw [ptr,if_pos rfl,if_pos (show some t.sentinel = some (t.unwrap b).sentinel from rfl)]
        rfl
      · obtain ⟨hrun,hne⟩ := hchild hright hleaf fun x hx => by simp [hx]
        rw [if_neg hne,if_neg (show ptr t.sentinel r ≠ some (t.unwrap b).sentinel from hne)]
        exact hrun

/-- The timers are in the order of their times. -/
def TimeSorted (t : RbtreeMem) (b : RbtreeKey) (xs : List ℕ) : Prop :=
  (xs.map fun x => since b (t.key x)).Pairwise (· ≤ ·)

/-- The place of a new timer: behind all that are not later. -/
theorem timerPlace (hsorted : TimeSorted t b T.inorder) :
    ∃ xs ys, T.inorder = xs ++ ys ∧
      (plug (descend (goesLeft (t.unwrap b) n) T []) (.node .red .leaf n .leaf)).inorder = xs ++ n::ys ∧
      (∀ x ∈ xs, since b (t.key x) ≤ since b (t.key n)) ∧ ∀ y ∈ ys, since b (t.key n) < since b (t.key y) := by
  have hless : ∀ x, goesLeft (t.unwrap b) n x = true ↔ since b (t.key n) < since b (t.key x) := fun x =>
    decide_eq_true_iff.trans BitVec.lt_def
  have hmono : T.inorder.Pairwise fun x y => goesLeft (t.unwrap b) n x = true → goesLeft (t.unwrap b) n y = true := by
    refine (List.pairwise_map.mp hsorted).imp fun hxy hx => ?_
    rw [hless] at hx ⊢
    omega
  obtain ⟨xs,ys,hxy,hbefore,hafter,hxs,hys⟩ := descend_split (goesLeft (t.unwrap b) n) T [] hmono
  refine ⟨xs,ys,hxy,?_,fun x hx => ?_,fun y hy => (hless y).mp (hys y hy)⟩
  · rw [inorder_plug,hbefore,hafter]
    simp [before,after]
  · have hnot := hxs x hx
    rw [← Bool.not_eq_true,hless] at hnot
    omega

/-- The insertion of a timer is the ordinary one on the times from `b` on, and leaves it behind all that are
not later. -/
theorem timer_insert_unwrapped (h : Holds t [] T) (hd : T.inorder.Nodup) (hT : T ≠ .leaf) (hn : n ∉ T.inorder)
    (hs : n ≠ t.sentinel) (hwithin : ∀ x ∈ n::T.inorder, Within b (t.key x)) (hsorted : TimeSorted t b T.inorder) :
    ∃ root, t.root = some root ∧ ∃ t' T', Returns (fun fuel => rbtreeInsertTimerValue fuel t root n) t' ∧
      Returns (fun fuel => rbtreeInsertValue fuel (t.unwrap b) root n) (t'.unwrap b) ∧
      Holds t' [] T' ∧ t'.key = t.key ∧ TimeSorted t b T'.inorder ∧ ∃ xs ys, T.inorder = xs ++ ys ∧
        T'.inorder = xs ++ n::ys ∧ (∀ x ∈ xs, since b (t.key x) ≤ since b (t.key n)) ∧
        ∀ y ∈ ys, since b (t.key n) < since b (t.key y) := by
  obtain ⟨hnwithin,hall⟩ := List.forall_mem_cons.mp hwithin
  obtain ⟨xs,ys,hxy,hplace,hxs,hys⟩ := timerPlace (n := n) hsorted
  cases T with
  | leaf => cases hT rfl
  | node c l a r =>
    have hunwrapped : ∀ fuel, depth (.node c l a r) ≤ fuel → rbtreeInsertValue fuel (t.unwrap b) a n =
        .ok ((linked t (descend (goesLeft (t.unwrap b) n) (.node c l a r) []) n).unwrap b) := by
      intro fuel hfuel
      rw [rbtreeInsertValue_eq (holds_unwrap.mpr h) hfuel,linked_unwrap]
    refine ⟨a,h.1,linked t (descend (goesLeft (t.unwrap b) n) (.node c l a r) []) n,
      plug (descend (goesLeft (t.unwrap b) n) (.node c l a r) []) (.node .red .leaf n .leaf),
      ⟨depth (.node c l a r),fun fuel hfuel => ?_⟩,⟨depth (.node c l a r),hunwrapped⟩,?_,by simp [linked],?_,
      xs,ys,hxy,hplace,hxs,hys⟩
    · have hmap := rbtreeInsertTimerValue_eq fuel h hnwithin hall
      rw [hunwrapped fuel hfuel] at hmap
      cases hrun : rbtreeInsertTimerValue fuel t a n with
      | error e =>
        rw [hrun] at hmap
        cases hmap
      | ok t' =>
        rw [hrun] at hmap
        exact hrun.trans (congrArg _ (unwrap_injective b (Except.ok.inj hmap)))
    · refine holds_plug.mp (linked_spec (holds_plug.mpr ?_) ?_ hs)
      · rw [plug_descend]
        exact h
      · rw [distinct_iff,hplace]
        rw [hxy] at hn hd
        exact List.nodup_middle.mpr (List.nodup_cons.mpr ⟨hn,hd⟩)
    · rw [hplace]
      unfold TimeSorted at hsorted ⊢
      rw [hxy,List.map_append,List.pairwise_append] at hsorted
      rw [List.map_append,List.map_cons,List.pairwise_append,List.pairwise_cons]
      simp only [List.mem_map,List.mem_cons,forall_exists_index,and_imp,forall_apply_eq_imp_iff₂,forall_eq_or_imp] at hsorted ⊢
      exact ⟨hsorted.1,⟨fun y hy => (hys y hy).le,hsorted.2.1⟩,fun x hx => ⟨hxs x hx,fun y hy => hsorted.2.2 x hx y hy⟩⟩

/-- One timer shortly before the keys wrap, and a new one shortly after. -/
def wrapping : RbtreeMem where
  key x := if x = 3 then 18446744073709551000 else 500
  left _ := some 0
  right _ := some 0
  parent _ := none
  color _ := .black
  root := some 3
  sentinel := 0

theorem timer_insert_unwrapped_wrapping : ∃ t', Returns (fun fuel => rbtreeInsertTimerValue fuel wrapping 3 7) t' ∧
    Returns (fun fuel => rbtreeInsertValue fuel (wrapping.unwrap 18446744073709551000) 3 7)
      (t'.unwrap 18446744073709551000) := by
  have hholds : Holds wrapping [] (.node .black .leaf 3 .leaf) := by
    simp [Holds,RepCtx,Rep,ptr,up,wrapping]
  have hwithin : ∀ x ∈ 7::(CTree.node .black .leaf 3 .leaf).inorder, Within 18446744073709551000 (wrapping.key x) := by
    decide
  obtain ⟨root,hroot,t',-,htimer,hvalue,-⟩ := timer_insert_unwrapped hholds (by simp) (by simp) (by simp) (by decide)
    hwithin (by simp [TimeSorted])
  obtain rfl : 3 = root := Option.some.inj hroot
  exact ⟨t',htimer,hvalue⟩

end InsideNginx.Rbtree
