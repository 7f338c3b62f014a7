import InsideNginx.Rbtree.DeleteFixup

/-! The right-hand branches of the delete fixup that rotate: each of them ends with a node that
has not got its parent link. -/
namespace InsideNginx.Rbtree
open ColorTree CTree

variable {t t' : RbtreeMem} {fs : Ctx ℕ} {X T l r : CTree ℕ} {a d p w x y : ℕ} {c : Color} {s : Bool}

/-- The stores of colours do not touch the links. -/
structure SameLinks (t t' : RbtreeMem) : Prop where
  left : t'.left = t.left
  right : t'.right = t.right
  parent : t'.parent = t.parent
  root : t'.root = t.root
  sentinel : t'.sentinel = t.sentinel

theorem SameLinks.refl (t : RbtreeMem) : SameLinks t t := ⟨rfl,rfl,rfl,rfl,rfl⟩

theorem SameLinks.setColor (h : SameLinks t t') : SameLinks t (t'.setColor a c) := ⟨h.1,h.2,h.3,h.4,h.5⟩

theorem SameLinks.holds {u : RbtreeMem} (h : SameLinks t u) (hT : Holds t fs T) :
    Holds u (fs.map (Frame.recolor u.color)) (T.recolor u.color) := hT.recolor h.1 h.2 h.3 h.4 h.5

theorem SameLinks.stale {u : RbtreeMem} (h : SameLinks t u) (hs : Stale t fs a) : Stale u fs a := by
  refine ⟨?_,by rw [h.sentinel]; exact hs.2.1,by rw [h.parent]; exact hs.2.2⟩
  cases fs with
  | nil => exact h.root.trans hs.1
  | cons f fs =>
    rw [← hs.1,hole,hole,RbtreeMem.side,RbtreeMem.side,h.left,h.right]

/-- A right rotation of a node that is stored with any colours leaves the raised node stale. -/
theorem SameLinks.rightRotate_stale {u : RbtreeMem} {m : CTree ℕ} (h : SameLinks t u)
    {e : Color} (hT : Holds t fs (.node c (.node e l w m) p r)) (hd : Distinct fs (.node c (.node e l w m) p r))
    (hrun : rightRotate u p = .ok t') : Stale t' fs w :=
  (stale_recolor u.color).mp (Rbtree.rightRotate_stale (h.holds hT) ((distinct_recolor u.color).mpr hd) hrun)

/-- Case 4 on the right is a right rotation of the parent, after some stores of colours. -/
theorem outerRedRight_ok (hrun : outerRedRight t x w = .ok (t',y)) :
    ∃ u p, t.parent x = some p ∧ SameLinks t u ∧ rightRotate u p = .ok t' ∧ t'.root = some y := by
  obtain ⟨p,hp,hrun⟩ := bind_ok hrun
  obtain ⟨a,ha,hrun⟩ := bind_ok hrun
  obtain ⟨t₁,hrot,hrun⟩ := bind_ok hrun
  obtain ⟨z,hz,hrun⟩ := bind_ok hrun
  obtain ⟨rfl,rfl⟩ := Prod.mk.inj (Except.ok.inj hrun)
  exact ⟨_,p,deref_ok hp,(SameLinks.refl t).setColor.setColor.setColor,hrot,deref_ok hz⟩

/-- Case 3 on the right is a left rotation of the sibling, if it runs. -/
theorem innerRedRight_ok (hrun : innerRedRight t x w = .ok (t',y)) : t' = t ∧ y = w ∨
    ∃ a u, t.left w = some a ∧ t.color a = .black ∧ SameLinks t u ∧ leftRotate u w = .ok t' := by
  obtain ⟨a,ha,hrun⟩ := bind_ok hrun
  split at hrun
  · rename_i hblack
    obtain ⟨b,hb,hrun⟩ := bind_ok hrun
    obtain ⟨t₁,hrot,hrun⟩ := bind_ok hrun
    obtain ⟨p,hp,hrun⟩ := bind_ok hrun
    obtain ⟨q,hq,hrun⟩ := bind_ok hrun
    obtain ⟨rfl,rfl⟩ := Prod.mk.inj (Except.ok.inj hrun)
    exact .inr ⟨a,_,deref_ok ha,hblack,(SameLinks.refl t).setColor.setColor,hrot⟩
  · obtain ⟨rfl,rfl⟩ := Prod.mk.inj (Except.ok.inj hrun)
    exact .inl ⟨rfl,rfl⟩

/-- Cases 2 to 4 on the right. -/
theorem blackSiblingRight_ok (hrun : blackSiblingRight t x w = .ok (t',y)) :
    (bothBlack t w = .ok true ∧ t' = t.setColor w .red ∧ t.parent x = some y) ∨
    (bothBlack t w = .ok false ∧ ∃ u z, innerRedRight t x w = .ok (u,z) ∧ outerRedRight u x z = .ok (t',y)) := by
  obtain ⟨b,hb,hrun⟩ := bind_ok hrun
  cases b with
  | true =>
    obtain ⟨p,hp,hrun⟩ := bind_ok hrun
    obtain ⟨rfl,rfl⟩ := Prod.mk.inj (Except.ok.inj hrun)
    exact .inl ⟨hb,rfl,deref_ok hp⟩
  | false =>
    obtain ⟨⟨u,z⟩,hinner,hrun⟩ := bind_ok hrun
    exact .inr ⟨hb,u,z,hinner,hrun⟩

theorem deleteFixup_exit_ok {fuel : ℕ} (hrun : deleteFixup fuel t x = .ok t') (h : t.root = some x ∨ t.color x = .red)
    (hs : Stale t fs y) : Stale t' fs y := by
  cases fuel with
  | zero => cases hrun
  | succ fuel =>
    rw [deleteFixup_exit h] at hrun
    rw [← Except.ok.inj hrun]
    exact hs.setColor

/-- The parent link of what is in the hole, the sentinel's own for a leaf. -/
theorem hole_parent {f : Frame ℕ} (h : Holds t (f::fs) X) (hx : ptr t.sentinel X = some x)
    (hleaf : X = .leaf → t.parent t.sentinel = some f.label) : t.parent x = some f.label := by
  by_cases hX : X = .leaf
  · subst hX
    obtain rfl : t.sentinel = x := Option.some.inj hx
    exact hleaf rfl
  · exact h.parent_eq hX hx

/-- Right-hand cases 3 and 4. -/
theorem blackSiblingRight_stale (h : At t (⟨true,c,p,.node .black l w r⟩::fs) X x)
    (hred : ¬ (l.color = .black ∧ r.color = .black)) (hrun : blackSiblingRight t x w = .ok (t',y)) :
    (∃ z, Stale t' fs z) ∧ t'.root = some y := by
  have hflip := holds_flip.mp h.holds
  obtain ⟨hboth,-⟩ | ⟨-,u,z,hinner,houter⟩ := blackSiblingRight_ok hrun
  · rw [bothBlack_eq hflip h.black,decide_eq_false hred] at hboth
    cases hboth
  obtain ⟨v,p',hp',hsame,hrot,hroot⟩ := outerRedRight_ok houter
  refine ⟨?_,hroot⟩
  obtain ⟨rfl,rfl⟩ | ⟨a,u₀,ha,hblack,hsame₀,hleft⟩ := innerRedRight_ok hinner
  · obtain rfl : p = p' := Option.some.inj (h.parent.symm.trans hp')
    exact ⟨z,hsame.rightRotate_stale (holds_cons.mp h.holds) (distinct_cons.mp h.distinct) hrot⟩
  · have hleft_w : Holds t (⟨false,.black,w,r⟩::Frame.flip ⟨true,c,p,.node .black l w r⟩ X::fs) l := holds_cons.mpr hflip
    have hlc : l.color = .black := (hleft_w.color_eq h.black (hleft_w.side_eq.symm.trans ha)).symm.trans hblack
    cases r with
    | leaf => exact (hred ⟨hlc,rfl⟩).elim
    | node c' m z' q =>
      have hrec := hsame₀.holds hflip
      have hd := (distinct_recolor u₀.color).mpr (distinct_flip.mp h.distinct)
      obtain ⟨u₁,hrun₁,hholds₁,hkept⟩ := leftRotate_spec hrec hd
      obtain rfl : u = u₁ := Except.ok.inj (hleft.symm.trans hrun₁)
      have hback := holds_flip.mp hholds₁
      have hparent : u.parent x = some p := by
        refine hole_parent hback ?_ fun hX => ?_
        · rw [hkept.sentinel,hsame₀.sentinel]
          exact (ptr_recolor _).trans h.node
        · have hXl : X = .leaf := by cases X <;> [rfl;cases hX]
          subst hXl
          have hpar := h.parent
          rw [← Option.some.inj h.node] at hpar
          rw [hkept.sentinel,hkept.scratch,hsame₀.sentinel,hsame₀.parent]
          exact hpar
      obtain rfl : p = p' := Option.some.inj (hparent.symm.trans hp')
      have hd₁ : Distinct (fs.map (Frame.recolor u₀.color)) (.node (u₀.color p) (.node (u₀.color z') (.node (u₀.color w) (l.recolor u₀.color) w
          (m.recolor u₀.color)) z' (q.recolor u₀.color)) p (X.recolor u₀.color)) := by
        have := distinct_cons.mp h.distinct
        simpa [Distinct,Frame.fill] using this
      have hstale := hsame.rightRotate_stale (holds_cons.mp hback) hd₁ hrot
      exact ⟨z',(stale_recolor u₀.color).mp hstale⟩

/-- The pointers after the rotation of case 1 on the right: `w` is above `p`, and its own parent
link is wrong. -/
structure Turned (t : RbtreeMem) (fs : Ctx ℕ) (X l r : CTree ℕ) (p v w x : ℕ) : Prop where
  stale : Stale t fs w
  black : t.color t.sentinel = .black
  red : t.color p = .red
  left_p : t.left p = some v
  parent_p : t.parent p = some w
  parent_v : t.parent v = some p
  left_v : t.left v = ptr t.sentinel l
  right_v : t.right v = ptr t.sentinel r
  inner : ∀ c m d q, r = .node c m d q → t.left d = ptr t.sentinel m
  colors : ∀ a T, T = l ∨ T = r → ptr t.sentinel T = some a → t.color a = T.color
  parent_x : t.parent x = some p
  node : ptr t.sentinel X = some x
  nodup : (w::p::v::(l.inorder ++ r.inorder ++ X.inorder ++ labels fs)).Nodup
  real : ∀ a ∈ w::p::v::(l.inorder ++ r.inorder ++ X.inorder ++ labels fs), a ≠ t.sentinel

/-- Case 1 on the right. -/
theorem redSiblingRight_turned {v : ℕ} (h : At t (⟨true,c,p,.node .red l w (.node .black T v r)⟩::fs) X x)
    (hrun : redSiblingRight t x p w = .ok (t',y)) : y = v ∧ Turned t' fs X T r p v w x := by
  have hflip := holds_flip.mp h.holds
  have hd := distinct_cons.mp h.distinct
  have htree := holds_cons.mp h.holds
  have hv : Holds t _ (.node .black T v r) := holds_cons (f := ⟨true,.red,w,l⟩).mpr hflip
  have hT : Holds t _ T := holds_cons (f := ⟨false,.black,v,r⟩).mpr hv
  have hr : Holds t _ r := holds_cons (f := ⟨true,.black,v,T⟩).mpr hv
  simp only [redSiblingRight,hflip.node_color,if_true] at hrun
  obtain ⟨t₁,hrot,hrun⟩ := bind_ok hrun
  obtain ⟨p',hp',hrun⟩ := bind_ok hrun
  obtain ⟨y',hy',hrun⟩ := bind_ok hrun
  obtain ⟨rfl,rfl⟩ := Prod.mk.inj (Except.ok.inj hrun)
  have hsame : SameLinks t ((t.setColor w .black).setColor p .red) := (SameLinks.refl t).setColor.setColor
  have hstale := hsame.rightRotate_stale htree hd hrot
  obtain ⟨t₂,hrot₂,hH,-,hkept⟩ := rightRotate_spec (hsame.holds htree) ((distinct_recolor _).mpr hd)
  obtain rfl : t₁ = t₂ := Except.ok.inj (hrot.symm.trans hrot₂)
  have hs : t₁.sentinel = t.sentinel := hkept.sentinel
  have hHp : Holds _ _ (.node _ (.node _ _ v _) p _) := holds_cons (f := ⟨true,_,w,_⟩).mpr hH
  have hHv : Holds _ _ (.node _ _ v _) := holds_cons (f := ⟨false,_,p,_⟩).mpr hHp
  have hHx := holds_cons (f := ⟨true,_,p,_⟩).mpr hHp
  have hHr := holds_cons (f := ⟨true,_,v,_⟩).mpr hHv
  simp only [Distinct,Frame.fill,if_true,inorder_node] at hd
  have hnd : (w::p::v::(T.inorder ++ r.inorder ++ X.inorder ++ labels fs)).Nodup := by
    simp only [List.nodup_cons,List.mem_cons,List.mem_append,List.nodup_append] at hd ⊢
    grind
  have hreal : ∀ a ∈ w::p::v::(T.inorder ++ r.inorder ++ X.inorder ++ labels fs), a ≠ t.sentinel := by
    intro a ha
    simp only [List.mem_cons,List.mem_append] at ha
    rcases ha with rfl | rfl | rfl | ((ha | ha) | ha) | ha
    · exact hflip.node_ne
    · exact h.holds.1.1
    · exact hv.node_ne
    · exact hT.2.ne_sentinel a ha
    · exact hr.2.ne_sentinel a ha
    · exact h.holds.2.ne_sentinel a ha
    · exact htree.1.ne_sentinel a ha
  have hne : w ≠ p ∧ w ≠ v ∧ p ≠ v ∧ w ∉ X.inorder := by
    simp only [List.nodup_cons,List.mem_cons,List.mem_append] at hnd
    grind
  have hx : ptr t₁.sentinel X = some x := by rw [hs]; exact h.node
  have hxw : x ≠ w := by
    rintro rfl
    exact ptr_ne (hreal x (by simp)) hne.2.2.2 h.node
  have hleft_p : t₁.left p = some v := hHp.left_eq
  have hparent_x : t₁.parent x = some p := by
    have hpar := hole_parent hHx (x := x) ((ptr_recolor _).trans hx) fun hX => ?_
    · simpa [hxw] using hpar
    · have hXl : X = .leaf := by cases X <;> [rfl;cases hX]
      subst hXl
      have hpar := h.parent
      rw [← Option.some.inj h.node] at hpar
      have hws : t.sentinel ≠ w := (hreal w (by simp)).symm
      rw [RbtreeMem.setParent_sentinel,hs,RbtreeMem.setParent_parent,Function.update_of_ne hws]
      exact hkept.scratch.trans hpar
  obtain rfl : p = p' := Option.some.inj (hparent_x.symm.trans (deref_ok hp'))
  refine ⟨Option.some.inj ((deref_ok hy').symm.trans hleft_p),hstale,?_,?_,hleft_p,?_,?_,?_,?_,?_,?_,hparent_x,hx,hnd,?_⟩
  · rw [hs,hkept.color]
    have hsp : t.sentinel ≠ p := (hreal p (by simp)).symm
    have hsw : t.sentinel ≠ w := (hreal w (by simp)).symm
    simpa [hsp,hsw] using h.black
  · rw [hkept.color]
    simp
  · have := hHp.parent_eq node_ne_leaf rfl
    simpa [hne.1.symm,up] using this
  · have := hHv.parent_eq node_ne_leaf rfl
    simpa [hne.2.1.symm,up] using this
  · exact hHv.left_eq.trans (ptr_recolor _)
  · exact hHv.right_eq.trans (ptr_recolor _)
  · rintro c m d q rfl
    exact hHr.left_eq.trans (ptr_recolor _)
  · intro a U hU ha
    rw [hs] at ha
    have hcolor : t.color a = U.color := by
      rcases hU with rfl | rfl
      · exact hT.color_eq h.black ha
      · exact hr.color_eq h.black ha
    have haw : a ≠ w ∧ a ≠ p := by
      by_cases hleaf : U = .leaf
      · rw [hleaf] at ha
        obtain rfl := Option.some.inj ha
        exact ⟨(hreal w (by simp)).symm,(hreal p (by simp)).symm⟩
      · have haU := ptr_mem hleaf ha
        simp only [List.nodup_cons,List.mem_cons,List.mem_append] at hnd
        rcases hU with rfl | rfl <;> grind
    rw [hkept.color]
    simpa [haw.1,haw.2] using hcolor
  · rwa [hs]

theorem turned_distinct {v : ℕ} {ls ms qs xs zs : List ℕ}
    (h : (w::p::v::(ls ++ (ms ++ d::qs) ++ xs ++ zs)).Nodup) :
    (w ≠ p ∧ w ≠ v ∧ w ≠ d ∧ p ≠ v ∧ p ≠ d) ∧ v ∉ xs ∧ d ∉ xs ∧ p ∉ ms ∧ ∀ b ∈ ms, b ∉ xs := by
  simp only [List.nodup_cons,List.mem_cons,List.mem_append,List.nodup_append] at h
  grind

/-- The rest of the right-hand branch cannot mend the link. -/
theorem Turned.stale_of_blackSiblingRight {v : ℕ} (h : Turned t fs X l r p v w x)
    (hrun : blackSiblingRight t x v = .ok (t',y)) : Stale t' fs w ∧ (t'.root = some y ∨ t'.color y = .red) := by
  have hupp : ∀ a ∈ w::p::v::(l.inorder ++ r.inorder ++ X.inorder), up fs ≠ some a := by
    intro a ha hup
    cases fs with
    | nil => cases hup
    | cons f fs =>
      obtain rfl : f.label = a := Option.some.inj hup
      have := h.nodup
      simp only [labels] at this
      grind
  have hnd := h.nodup
  obtain ⟨-,rfl,hy⟩ | ⟨hboth,u,z,hinner,houter⟩ := blackSiblingRight_ok hrun
  · obtain rfl : p = y := Option.some.inj (h.parent_x.symm.trans hy)
    have hpv : p ≠ v := by grind
    exact ⟨h.stale.setColor,.inr (by simpa [hpv] using h.red)⟩
  obtain ⟨u',p',hp',hsame,hrot,hroot⟩ := outerRedRight_ok houter
  refine ⟨?_,.inl hroot⟩
  obtain ⟨rfl,rfl⟩ | ⟨a,u₀,ha,hblack,hsame₀,hleft⟩ := innerRedRight_ok hinner
  · obtain rfl : p = p' := Option.some.inj (h.parent_x.symm.trans hp')
    refine (hsame.stale h.stale).rightRotate hrot (b := z) (by rw [hsame.left,h.left_p]) (by grind)
      (hupp p (by simp)) (hupp z (by simp)) ?_
    rw [hsame.parent,h.parent_p]
    exact (hupp w (by simp)).symm
  · have hlc : l.color = .black := (h.colors a l (.inl rfl) (h.left_v.symm.trans ha)).symm.trans hblack
    obtain ⟨e,he⟩ : ∃ e, ptr t.sentinel r = some e := by cases r <;> exact ⟨_,rfl⟩
    have hrc : r.color = .red := by
      cases hrc : r.color with
      | red => rfl
      | black =>
        have hea : t.color e = .black := (h.colors e r (.inr rfl) he).trans hrc
        simp [bothBlack,ha,h.right_v,he,hblack,hea,deref,orFault,bind,Except.bind,pure,Except.pure] at hboth
    cases r with
    | leaf => cases hrc
    | node c m d q =>
      have hright : u₀.right v = some d := by rw [hsame₀.right,h.right_v]; rfl
      have hleft_d : u₀.left d = ptr t.sentinel m := by rw [hsame₀.left,h.inner c m d q rfl]
      simp only [inorder_node] at hnd hupp
      have hreal := h.real
      simp only [inorder_node] at hreal
      obtain ⟨⟨hwp,hwv,hwd,hpv,hpd⟩,hvX,hdX,hpm,hmX⟩ := turned_distinct hnd
      have hxne : ∀ b, b ≠ t.sentinel → b ∉ X.inorder → x ≠ b := by
        rintro b hb hbX rfl
        exact ptr_ne hb hbX h.node
      have hstale := (hsame₀.stale h.stale).leftRotate hleft hright hwv hwd (hupp v (by simp))
        (hupp d (by simp)) (by rw [hsame₀.parent,h.parent_v]; exact (hupp p (by simp)).symm)
      obtain ⟨hleft_p,hparent_p⟩ := leftRotate_frame hleft hright hpv hpd
      obtain ⟨-,hparent_x⟩ := leftRotate_frame hleft hright (y := x) (hxne v (hreal v (by simp)) hvX)
        (hxne d (hreal d (by simp)) hdX)
      rw [hsame₀.sentinel,hleft_d] at hparent_p hparent_x
      have hpp : u.parent p = some w := by
        rw [hparent_p (.inr (ptr_ne (hreal p (by simp)) hpm)),hsame₀.parent,h.parent_p]
      have hpx : u.parent x = some p := by
        rw [hparent_x ?_,hsame₀.parent,h.parent_x]
        cases m with
        | leaf => exact .inl rfl
        | node c' l' b r' =>
          have hbx := hxne b (hreal b (by simp)) (hmX b (by simp))
          exact .inr (by simpa [ptr] using hbx.symm)
      obtain rfl : p = p' := Option.some.inj (hpx.symm.trans hp')
      have hpar : u'.parent p ≠ up fs := by
        rw [hsame.parent,hpp]
        exact (hupp w (by simp)).symm
      obtain hv | hd : u'.left p = some v ∨ u'.left p = some d := by
        rw [hsame.left]
        rwa [hsame₀.left,h.left_p] at hleft_p
      · exact (hsame.stale hstale).rightRotate hrot hv hwp (hupp p (by simp)) (hupp v (by simp)) hpar
      · exact (hsame.stale hstale).rightRotate hrot hd hwp (hupp p (by simp)) (hupp d (by simp)) hpar

/-- A run of the loop that has to rotate in a right-hand branch ends with a node that has not got
its parent link. -/
theorem deleteFixup_stale (fs : Ctx ℕ) : ∀ {t t' : RbtreeMem} {X : CTree ℕ} {x k fuel : ℕ}, At t fs X x → Short X k →
    CtxBalanced fs (k+1) → ¬ LeftHanded X.color fs → deleteFixup fuel t x = .ok t' →
    ∃ gs y, Stale t' gs y ∧ labels gs ⊆ labels fs := by
  induction fs with
  | nil =>
    intro t t' X x k fuel h hshort hfs hbad hrun
    cases hX : X.color <;> exact (hbad (by rw [hX]; trivial)).elim
  | cons f fs ih =>
    intro t t' X x k fuel h hshort hfs hbad hrun
    cases hX : X.color with
    | red => exact (hbad (by rw [hX]; trivial)).elim
    | black =>
      rw [Short,hX] at hshort
      rw [hX] at hbad
      obtain ⟨s,c,p,W⟩ := f
      obtain ⟨hW,hc,hrest⟩ := hfs
      cases fuel with
      | zero => cases hrun
      | succ fuel =>
        rw [deleteFixup_step h hX] at hrun
        have hup : labels fs ⊆ labels (⟨s,c,p,W⟩::fs) := fun z hz => by simp [labels,hz]
        cases W with
        | leaf => cases balanced_leaf.mp hW
        | node cw l w r =>
          cases cw with
          | red =>
            obtain rfl : s = true := by
              cases s with
              | true => rfl
              | false => exact (hbad (.inr ⟨by simp [CTree.color],rfl⟩)).elim
            obtain ⟨-,hrc,-,hr⟩ := balanced_red.mp hW
            cases r with
            | leaf => cases balanced_leaf.mp hr
            | node cr T v r =>
              obtain rfl : cr = .black := hrc
              rw [deleteRebalance_right h rfl node_ne_leaf] at hrun
              obtain ⟨⟨t₂,y⟩,hbody,hend⟩ := bind_ok hrun
              obtain ⟨⟨t₁,v'⟩,hfirst,hsecond⟩ := bind_ok hbody
              obtain ⟨rfl,hturned⟩ := redSiblingRight_turned h hfirst
              obtain ⟨hstale,hexit⟩ := hturned.stale_of_blackSiblingRight hsecond
              exact ⟨fs,w,deleteFixup_exit_ok hend hexit hstale,hup⟩
          | black =>
            obtain ⟨hl,hr⟩ := balanced_black.mp hW
            rw [deleteRebalance_black h] at hrun
            by_cases hboth : l.color = .black ∧ r.color = .black
            · have hbad : ¬ LeftHanded c fs := fun hgood => hbad (.inl ⟨rfl,hboth,hgood⟩)
              obtain ⟨k',hk,hshort'⟩ := short_raise (s := s) (c := c) (p := p) (w := w) (T := .node .black l w r) hshort
                ⟨hl,hboth.1⟩ ⟨hr,hboth.2⟩
              rw [hk] at hrest
              rw [blackSibling_raise h hboth.1 hboth.2] at hrun
              obtain ⟨gs,y,hstale,hsub⟩ := ih h.raise hshort' hrest (by rwa [Frame.color_fill]) hrun
              exact ⟨gs,y,hstale,fun z hz => hup (hsub hz)⟩
            · obtain rfl : s = true := by
                cases s with
                | true => rfl
                | false => exact (hbad (.inr ⟨fun h => hboth h.2,rfl⟩)).elim
              obtain ⟨⟨t₂,y⟩,hbody,hend⟩ := bind_ok hrun
              obtain ⟨⟨z,hstale⟩,hroot⟩ := blackSiblingRight_stale h hboth hbody
              exact ⟨fs,z,deleteFixup_exit_ok hend (.inl hroot) hstale,hup⟩

end InsideNginx.Rbtree
