import InsideNginx.Rbtree.Represent

/-! The two rotations. On a stored tree a rotation exchanges two nodes above a hole; the right
rotation leaves the parent link of the node that it raises as it was. -/
namespace InsideNginx.Rbtree
open ColorTree

variable {t t' : RbtreeMem} {fs : Ctx ℕ} {T l m r : CTree ℕ} {a b x y : ℕ} {c d : Color} {p q : Option ℕ} {s : Bool}

/-- What a rotation or another change of links leaves alone. -/
structure Kept (t t' : RbtreeMem) : Prop where
  key : t'.key = t.key
  color : t'.color = t.color
  sentinel : t'.sentinel = t.sentinel
  scratch : t'.parent t.sentinel = t.parent t.sentinel

/-! ### Parts of a rotation -/

/-- The subtree that a rotation moves gets a new parent, unless it is empty. -/
def adopted (t : RbtreeMem) (m : CTree ℕ) (a : ℕ) : RbtreeMem :=
  match m with
  | .leaf => t
  | .node _ _ x _ => t.setParent x (some a)

theorem adopt_eq (h : ∀ x ∈ m.inorder, x ≠ t.sentinel) :
    adopt t (ptr t.sentinel m) a = .ok (adopted t m a) := by
  cases m with
  | leaf => simp [adopt,ptr,adopted]
  | node c l x r =>
    have hx : x ≠ t.sentinel := h x (by simp)
    simp [adopt,ptr,adopted,hx,deref,orFault,bind,Except.bind,pure,Except.pure]

@[simp] theorem adopted_sentinel : (adopted t m a).sentinel = t.sentinel := by cases m <;> rfl
@[simp] theorem adopted_root : (adopted t m a).root = t.root := by cases m <;> rfl
@[simp] theorem adopted_left : (adopted t m a).left = t.left := by cases m <;> rfl
@[simp] theorem adopted_right : (adopted t m a).right = t.right := by cases m <;> rfl
@[simp] theorem adopted_color : (adopted t m a).color = t.color := by cases m <;> rfl
@[simp] theorem adopted_key : (adopted t m a).key = t.key := by cases m <;> rfl
@[simp] theorem adopted_side : (adopted t m a).side s x = t.side s x := by cases m <;> rfl

theorem adopted_parent_of_ne (h : ptr t.sentinel m ≠ some x) : (adopted t m a).parent x = t.parent x := by
  cases m with
  | leaf => rfl
  | node c l y r =>
    have hxy : x ≠ y := fun he => h (by simp [ptr,he])
    simp [adopted,hxy]

theorem adopted_parent_of_eq (hx : x ∈ m.inorder) (h : ptr t.sentinel m = some x) :
    (adopted t m a).parent x = some a := by
  cases m with
  | leaf => simp at hx
  | node c l y r =>
    obtain rfl : y = x := by simpa [ptr] using h
    simp [adopted]

/-- The part of a rotation that works above the node puts the new root into the hole. -/
theorem replaceChild_eq (h : RepCtx t (some a) fs) (hparent : t.parent a = up fs) (ha : a ∉ labels fs)
    (hs : a ≠ t.sentinel) : replaceChild t a b = .ok (setHole t fs (some b)) := by
  cases fs with
  | nil => simp [replaceChild,setHole,show t.root = some a from h]
  | cons f fs =>
    obtain ⟨x,hx,hroot⟩ := h.root_mem
    have hax : a ≠ x := fun he => ha (he ▸ hx)
    obtain ⟨-,-,-,hp,ho,-,-⟩ := h
    have hpa : t.parent a = some f.label := hparent
    cases hr : f.right with
    | true =>
      rw [hr] at ho
      have hne : some a ≠ t.left f.label := by
        rw [show t.left f.label = ptr t.sentinel f.other from ho]
        exact Ne.symm (ptr_ne hs fun hao => ha (by simp [labels,hao]))
      simp [replaceChild,hroot,hax,hpa,deref,orFault,bind,Except.bind,pure,Except.pure,hne,setHole,hr,
        RbtreeMem.setSide]
    | false =>
      rw [hr] at hp
      have hl : t.left f.label = some a := hp
      simp [replaceChild,hroot,hax,hpa,deref,orFault,bind,Except.bind,pure,Except.pure,hl,setHole,hr,
        RbtreeMem.setSide]

/-! ### A rotation on a stored tree -/

/-- The links that a rotation changes below the hole of `fs`: `b` is raised above `a`, and the
subtree `m` between them moves. -/
def lowered (t : RbtreeMem) (s : Bool) (m : CTree ℕ) (a : ℕ) : RbtreeMem :=
  adopted (t.setSide s a (ptr t.sentinel m)) m a

/-- The memory after a rotation that sets all parent links. -/
def rotated (t : RbtreeMem) (s : Bool) (fs : Ctx ℕ) (m : CTree ℕ) (a b : ℕ) : RbtreeMem :=
  ((setHole ((lowered t s m a).setParent b (up fs)) fs (some b)).setSide (!s) b (some a)).setParent a (some b)

theorem lowered_same (hxs : x ≠ t.sentinel) (hxa : x ≠ a) (hxm : x ∉ m.inorder) :
    Same t (lowered t s m a) x := by
  refine .of_side (fun s' => ?_) ?_ (by simp [lowered])
  · simp [lowered,side_setSide_of_ne hxa]
  · rw [lowered,adopted_parent_of_ne (by simpa using ptr_ne hxs hxm),setSide_parent]

theorem lowered_parent_self (hs : a ≠ t.sentinel) (ham : a ∉ m.inorder) :
    (lowered t s m a).parent a = t.parent a := by
  rw [lowered,adopted_parent_of_ne (by simpa using ptr_ne hs ham),setSide_parent]

@[simp] theorem rotated_sentinel : (rotated t s fs m a b).sentinel = t.sentinel := by simp [rotated,lowered]
@[simp] theorem rotated_color : (rotated t s fs m a b).color = t.color := by simp [rotated,lowered]
@[simp] theorem rotated_key : (rotated t s fs m a b).key = t.key := by simp [rotated,lowered]

theorem rotated_same (hxs : x ≠ t.sentinel) (hxa : x ≠ a) (hxb : x ≠ b) (hxm : x ∉ m.inorder)
    (hxfs : x ∉ labels fs) : Same t (rotated t s fs m a b) x := by
  have hlow := lowered_same (s := s) hxs hxa hxm
  refine .of_side (fun s' => ?_) ?_ (by simp)
  · rw [← hlow.side]
    simp [rotated,side_setSide_of_ne hxb,setHole_side hxfs]
  · rw [← hlow.parent]
    simp [rotated,hxa,hxb]

theorem rotated_above (h : RepCtx t (some a) fs) (hd : (a::b::(m.inorder ++ labels fs)).Nodup) :
    RepCtx (rotated t s fs m a b) (some b) fs := by
  have hlow : ∀ x ∈ labels fs, Same t ((lowered t s m a).setParent b (up fs)) x := by
    intro x hx
    obtain ⟨sl,sr,sp,sc⟩ := lowered_same (s := s) (h.ne_sentinel x hx) (show x ≠ a by grind)
      (show x ∉ m.inorder by grind)
    have hxb : x ≠ b := by grind
    exact ⟨sl,sr,by simpa [hxb] using sp,sc⟩
  have hset := (h.congr (by simp [lowered]) (by simp [lowered]) hlow).setHole (q := some b) (by grind)
  refine hset.congr (by simp [rotated]) (by simp [rotated]) fun x hx => ?_
  have hxa : x ≠ a := by grind
  have hxb : x ≠ b := by grind
  exact .of_side (fun s' => by simp [rotated,side_setSide_of_ne hxb]) (by simp [rotated,hxa]) (by simp [rotated])

theorem rotated_between (h : Rep t (some b) m)
    (hd : (a::b::(m.inorder ++ labels fs)).Nodup) : Rep (rotated t s fs m a b) (some a) m := by
  refine h.reparent (by simp) (by grind) (fun x hx hxm => ?_) fun x hxm hx => ?_
  · have hxa : x ≠ a := by grind
    have hxb : x ≠ b := by grind
    have hside : ∀ s', (rotated t s fs m a b).side s' x = t.side s' x := by
      intro s'
      simp [rotated,lowered,side_setSide_of_ne hxb,side_setSide_of_ne hxa,setHole_side (show x ∉ labels fs by grind)]
    refine ⟨hside false,hside true,by simp,?_⟩
    simpa [rotated,lowered,hxa,hxb] using adopted_parent_of_eq hxm (by simpa using hx)
  · have hxa : x ≠ a := by grind
    have hxb : x ≠ b := by grind
    refine .of_side (fun s' => ?_) ?_ (by simp)
    · simp [rotated,lowered,side_setSide_of_ne hxb,side_setSide_of_ne hxa,setHole_side (show x ∉ labels fs by grind)]
    · simp only [rotated,lowered,RbtreeMem.setParent_parent,Function.update_of_ne hxa,setSide_parent,setHole_parent,
        Function.update_of_ne hxb]
      rw [adopted_parent_of_ne (by simpa using hx),setSide_parent]

/-- The two nodes above the hole change places. -/
theorem rotate_spec (h : Holds t (⟨!s,d,b,r⟩::⟨s,c,a,l⟩::fs) m) (hd : Distinct (⟨!s,d,b,r⟩::⟨s,c,a,l⟩::fs) m) :
    Holds (rotated t s fs m a b) (⟨s,c,a,l⟩::⟨!s,d,b,r⟩::fs) m ∧ Kept t (rotated t s fs m a b) := by
  obtain ⟨⟨hb,hcb,hpb,hsb,hnb,hr,ha,hca,hpa,hsa,hna,hl,hctx⟩,hm⟩ := h
  simp only [Distinct,labels] at hd
  have hab : a ≠ b := by grind
  have hafs : a ∉ labels fs := by grind
  have hbfs : b ∉ labels fs := by grind
  have hnd : (a::b::(m.inorder ++ labels fs)).Nodup := by grind
  have hsame : ∀ x, x ∈ l.inorder ∨ x ∈ r.inorder → x ≠ t.sentinel → Same t (rotated t s fs m a b) x :=
    fun x hx hxs => rotated_same hxs (by grind) (by grind) (by grind) (by grind)
  have hma : ∀ x, x = a ∨ x = b → ptr t.sentinel m ≠ some x := by
    rintro x (rfl | rfl)
    · exact ptr_ne ha (by grind)
    · exact ptr_ne hb (by grind)
  refine ⟨⟨?_,rotated_between hm hnd⟩,by simp,by simp,by simp,?_⟩
  · refine ⟨by simpa using ha,by simpa using hca,by simp [rotated,up],?_,?_,?_,by simpa using hb,by simpa using hcb,?_,?_,?_,?_,?_⟩
    · simp [rotated,lowered,setHole_side hafs]
    · simpa [rotated,lowered,side_setSide_of_ne hab,setHole_side hafs] using hna
    · exact hl.congr (by simp) fun x hx => hsame x (.inl hx) (hl.ne_sentinel x hx)
    · simp [rotated,hab.symm]
    · simp [rotated]
    · have hnb' : t.side s b = ptr t.sentinel r := by simpa using hnb
      simpa [rotated,lowered,side_setSide_of_ne hab.symm,setHole_side hbfs] using hnb'
    · exact hr.congr (by simp) fun x hx => hsame x (.inr hx) (hr.ne_sentinel x hx)
    · exact rotated_above hctx hnd
  · have hsm : ptr t.sentinel m ≠ some t.sentinel ∨ m = .leaf := by
      cases m with
      | leaf => exact .inr rfl
      | node c l y r => exact .inl (by simpa [ptr] using hm.1)
    rcases hsm with hsm | rfl
    · simp only [rotated,lowered,RbtreeMem.setParent_parent,Function.update_of_ne ha.symm,setSide_parent,setHole_parent,
        Function.update_of_ne hb.symm]
      rw [adopted_parent_of_ne (by simpa using hsm),setSide_parent]
    · simp [rotated,lowered,adopted,ha.symm,hb.symm]

/-! ### The two functions -/

/-- The left rotation sets all parent links. -/
theorem leftRotate_eq (h : Holds t (⟨false,d,b,r⟩::⟨true,c,a,l⟩::fs) m)
    (hd : Distinct (⟨false,d,b,r⟩::⟨true,c,a,l⟩::fs) m) : leftRotate t a = .ok (rotated t true fs m a b) := by
  obtain ⟨⟨hb,-,-,hsb,-,-,ha,-,hpa,hsa,-,-,hctx⟩,hm⟩ := h
  simp only [Distinct,labels] at hd
  have hab : a ≠ b := by grind
  have hra : t.right a = some b := hsa
  have hlb : t.left b = ptr t.sentinel m := hsb
  have ham : a ∉ m.inorder := by grind
  have hadopt : adopt (t.setRight a (ptr t.sentinel m)) (ptr t.sentinel m) a = .ok (lowered t true m a) :=
    adopt_eq (t := t.setRight a (ptr t.sentinel m)) hm.ne_sentinel
  have hpar : (lowered t true m a).parent a = up fs := (lowered_parent_self ha ham).trans hpa
  have hctx' : RepCtx ((lowered t true m a).setParent b (up fs)) (some a) fs := by
    refine hctx.congr (by simp [lowered]) (by simp [lowered]) fun x hx => ?_
    obtain ⟨sl,sr,sp,sc⟩ := lowered_same (s := true) (m := m) (hctx.ne_sentinel x hx) (show x ≠ a by grind) (by grind)
    have hxb : x ≠ b := by grind
    exact ⟨sl,sr,by simpa [hxb] using sp,sc⟩
  have hreplace := replaceChild_eq (b := b) hctx' (by simpa [hab] using hpar) (by grind) (by simpa [lowered] using ha)
  simp only [leftRotate,hra,deref,orFault,bind,Except.bind,RbtreeMem.setRight_left,hlb,hadopt,hpar,hreplace]
  rfl

/-- The right rotation does what `rotated` does, but it keeps the parent link of the raised node. -/
theorem rightRotate_eq (h : Holds t (⟨true,d,b,r⟩::⟨false,c,a,l⟩::fs) m)
    (hd : Distinct (⟨true,d,b,r⟩::⟨false,c,a,l⟩::fs) m) :
    ∃ t', rightRotate t a = .ok t' ∧ t'.setParent b (up fs) = rotated t false fs m a b ∧
      t'.parent b = some a ∧ Kept t t' := by
  have hkept := (rotate_spec (s := false) h hd).2
  obtain ⟨⟨hb,-,hpb,hsb,-,-,ha,-,hpa,hsa,-,-,hctx⟩,hm⟩ := h
  simp only [Distinct,labels] at hd
  have hab : a ≠ b := by grind
  have hla : t.left a = some b := hsa
  have hrb : t.right b = ptr t.sentinel m := hsb
  have ham : a ∉ m.inorder := by grind
  have hbm : b ∉ m.inorder := by grind
  have hadopt : adopt (t.setLeft a (ptr t.sentinel m)) (ptr t.sentinel m) a = .ok (lowered t false m a) :=
    adopt_eq (t := t.setLeft a (ptr t.sentinel m)) hm.ne_sentinel
  have hpar : (lowered t false m a).parent a = up fs := (lowered_parent_self ha ham).trans hpa
  have hctx' : RepCtx (lowered t false m a) (some a) fs :=
    hctx.congr (by simp [lowered]) (by simp [lowered]) fun x hx =>
      lowered_same (hctx.ne_sentinel x hx) (show x ≠ a by grind) (by grind)
  have hreplace := replaceChild_eq (b := b) hctx' hpar (by grind) (by simpa [lowered] using ha)
  refine ⟨((setHole (lowered t false m a) fs (some b)).setRight b (some a)).setParent a (some b),?_,?_,?_,
    by simp [lowered],by simp [lowered],by simp [lowered],?_⟩
  · simp only [rightRotate,hla,deref,orFault,bind,Except.bind,RbtreeMem.setLeft_right,hrb,hadopt,hreplace]
    rfl
  · have hswap : ∀ p q : Option ℕ, ∀ u : RbtreeMem,
        (u.setParent a p).setParent b q = (u.setParent b q).setParent a p := by
      intro p q u
      simp only [RbtreeMem.setParent,RbtreeMem.mk.injEq,true_and,and_true]
      exact Function.update_comm hab p q u.parent
    rw [hswap,rotated,setHole_setParent]
    rfl
  · have hpb' : t.parent b = some a := hpb
    have := (lowered_same (s := false) (t := t) hb hab.symm hbm).parent
    simpa [hab.symm,this] using hpb'
  · have := hkept.scratch
    simpa [rotated,ha.symm,hb.symm] using this

/-- The left rotation of a stored tree. -/
theorem leftRotate_spec (h : Holds t fs (.node c l a (.node d m b r)))
    (hd : Distinct fs (.node c l a (.node d m b r))) :
    ∃ t', leftRotate t a = .ok t' ∧ Holds t' fs (.node d (.node c l a m) b r) ∧ Kept t t' := by
  have h' : Holds t (⟨false,d,b,r⟩::⟨true,c,a,l⟩::fs) m := holds_cons.mpr (holds_cons.mpr h)
  have hd' : Distinct (⟨false,d,b,r⟩::⟨true,c,a,l⟩::fs) m := distinct_cons.mpr (distinct_cons.mpr hd)
  obtain ⟨hrot,hkept⟩ := rotate_spec (s := true) h' hd'
  exact ⟨_,leftRotate_eq h' hd',holds_cons.mp (holds_cons.mp hrot),hkept⟩

/-- The right rotation of a stored tree: with one more store all links would be right. -/
theorem rightRotate_spec (h : Holds t fs (.node c (.node d l b m) a r))
    (hd : Distinct fs (.node c (.node d l b m) a r)) :
    ∃ t', rightRotate t a = .ok t' ∧ Holds (t'.setParent b (up fs)) fs (.node d l b (.node c m a r)) ∧
      t'.parent b = some a ∧ Kept t t' := by
  have h' : Holds t (⟨true,d,b,l⟩::⟨false,c,a,r⟩::fs) m := holds_cons.mpr (holds_cons.mpr h)
  have hd' : Distinct (⟨true,d,b,l⟩::⟨false,c,a,r⟩::fs) m := distinct_cons.mpr (distinct_cons.mpr hd)
  obtain ⟨t',hrun,heq,hparent,hkept⟩ := rightRotate_eq h' hd'
  refine ⟨t',hrun,?_,hparent,hkept⟩
  rw [heq]
  exact holds_cons.mp (holds_cons.mp (rotate_spec (s := false) h' hd').1)

/-- The node that a right rotation raises keeps its old parent, which is now below it. -/
theorem rightRotate_stale (h : Holds t fs (.node c (.node d l b m) a r))
    (hd : Distinct fs (.node c (.node d l b m) a r)) (hrun : rightRotate t a = .ok t') : Stale t' fs b := by
  obtain ⟨t₁,hrun',hholds,hparent,hkept⟩ := rightRotate_spec h hd
  obtain rfl : t' = t₁ := Except.ok.inj (hrun.symm.trans hrun')
  have hhole : hole t' fs = some b := by
    have := hholds.1.hole_eq
    cases fs <;> exact this
  refine ⟨hhole,hholds.2.1,?_⟩
  rw [hparent]
  cases fs with
  | nil => simp [up]
  | cons f fs =>
    have hne : a ≠ f.label := by
      simp only [Distinct,labels,CTree.inorder_node] at hd
      grind
    simpa [up] using hne

/-! ### What cannot mend a link -/

theorem Stale.setColor (h : Stale t fs x) : Stale (t.setColor a c) fs x := by
  cases fs <;> exact h

theorem Stale.setSide (h : Stale t fs x) (ha : up fs ≠ some a) : Stale (t.setSide s a p) fs x := by
  obtain ⟨hhole,hx,hparent⟩ := h
  refine ⟨?_,by simpa using hx,by simpa using hparent⟩
  cases fs with
  | nil => simpa [hole] using hhole
  | cons f fs =>
    have hne : f.label ≠ a := by simpa [up] using ha
    simpa [hole,side_setSide_of_ne hne] using hhole

theorem Stale.setParent (h : Stale t fs x) (hp : x = a → p ≠ up fs) : Stale (t.setParent a p) fs x := by
  obtain ⟨hhole,hx,hparent⟩ := h
  refine ⟨by cases fs <;> exact hhole,hx,?_⟩
  by_cases hxa : x = a
  · simpa [hxa] using hp hxa
  · simpa [hxa] using hparent

theorem Stale.setRoot (h : Stale t fs x) (hroot : t.root ≠ some x) : Stale (t.setRoot p) fs x := by
  cases fs with
  | nil => exact (hroot h.1).elim
  | cons f fs => exact h

theorem deref_ok (h : deref p = .ok a) : p = some a := by
  cases p with
  | none => cases h
  | some b => exact congrArg some (Except.ok.inj h)

/-- A rotation of `a` gives `a` a subtree, perhaps none. -/
theorem adopt_ok (h : adopt t p a = .ok t') : t' = t ∨ ∃ b, t' = t.setParent b (some a) := by
  unfold adopt at h
  split at h
  · exact .inl (Except.ok.inj h).symm
  · obtain ⟨b,-,hb⟩ := bind_ok h
    exact .inr ⟨b,(Except.ok.inj hb).symm⟩

/-- Above the node only the root or one child pointer of its parent changes. -/
theorem replaceChild_ok (h : replaceChild t a b = .ok t') : t.root = some a ∧ t' = t.setRoot (some b) ∨
    ∃ s y, t.parent a = some y ∧ t' = t.setSide s y (some b) := by
  unfold replaceChild at h
  split at h
  · rename_i hroot
    exact .inl ⟨hroot.symm,(Except.ok.inj h).symm⟩
  · obtain ⟨y,hy,h⟩ := bind_ok h
    refine .inr ?_
    split at h
    · exact ⟨false,y,deref_ok hy,(Except.ok.inj h).symm⟩
    · exact ⟨true,y,deref_ok hy,(Except.ok.inj h).symm⟩

theorem Stale.replaceChild (h : Stale t fs x) (hrun : replaceChild t a b = .ok t') (hxa : x ≠ a)
    (hpa : t.parent a ≠ up fs) : Stale t' fs x := by
  obtain ⟨hroot,rfl⟩ | ⟨s,y,hy,rfl⟩ := replaceChild_ok hrun
  · exact h.setRoot (by rw [hroot]; simpa using hxa.symm)
  · exact h.setSide fun hup => hpa (hy.trans hup.symm)

theorem Stale.adopt (h : Stale t fs x) (hrun : adopt t p a = .ok t') (ha : up fs ≠ some a) :
    Stale t' fs x ∧ (t.parent a ≠ up fs → t'.parent a ≠ up fs) := by
  obtain rfl | ⟨b,rfl⟩ := adopt_ok hrun
  · exact ⟨h,id⟩
  · refine ⟨h.setParent fun _ => ha.symm,fun hpa => ?_⟩
    by_cases hab : a = b
    · simpa [hab] using hab ▸ ha.symm
    · simpa [hab] using hpa

/-- A left rotation elsewhere leaves the link as it is. -/
theorem Stale.leftRotate (h : Stale t fs x) (hrun : leftRotate t a = .ok t') (hb : t.right a = some b)
    (hxa : x ≠ a) (hxb : x ≠ b) (ha : up fs ≠ some a) (hbfs : up fs ≠ some b) (hpa : t.parent a ≠ up fs) :
    Stale t' fs x := by
  obtain ⟨d,hd,hrun⟩ := bind_ok hrun
  obtain rfl : b = d := Option.some.inj (hb.symm.trans (deref_ok hd))
  obtain ⟨t₁,hadopt,hrun⟩ := bind_ok hrun
  obtain ⟨t₂,hreplace,hrun⟩ := bind_ok hrun
  obtain rfl := Except.ok.inj hrun
  obtain ⟨h₁,hpa₁⟩ := (h.setSide (s := true) ha).adopt hadopt ha
  have h₂ := h₁.setParent (a := b) (p := t₁.parent a) fun hx => (hxb hx).elim
  have h₃ : Stale t₂ fs x := by
    refine h₂.replaceChild hreplace hxa ?_
    have := hpa₁ hpa
    by_cases hab : a = b
    · simpa [hab] using hab ▸ this
    · simpa [hab] using this
  exact (h₃.setSide (s := false) hbfs).setParent fun hx => (hxa hx).elim

/-- So does a right rotation. -/
theorem Stale.rightRotate (h : Stale t fs x) (hrun : rightRotate t a = .ok t') (hb : t.left a = some b)
    (hxa : x ≠ a) (ha : up fs ≠ some a) (hbfs : up fs ≠ some b) (hpa : t.parent a ≠ up fs) :
    Stale t' fs x := by
  obtain ⟨d,hd,hrun⟩ := bind_ok hrun
  obtain rfl : b = d := Option.some.inj (hb.symm.trans (deref_ok hd))
  obtain ⟨t₁,hadopt,hrun⟩ := bind_ok hrun
  obtain ⟨t₂,hreplace,hrun⟩ := bind_ok hrun
  obtain rfl := Except.ok.inj hrun
  obtain ⟨h₁,hpa₁⟩ := (h.setSide (s := false) ha).adopt hadopt ha
  have h₂ := h₁.replaceChild hreplace hxa (hpa₁ hpa)
  exact (h₂.setSide (s := true) hbfs).setParent fun hx => (hxa hx).elim

/-- A left rotation ends with the node below the one that it raised. -/
theorem leftRotate_ok (hrun : leftRotate t a = .ok t') (hb : t.right a = some b) :
    t'.parent a = some b ∧ t'.color = t.color := by
  obtain ⟨d,hd,hrun⟩ := bind_ok hrun
  obtain rfl : b = d := Option.some.inj (hb.symm.trans (deref_ok hd))
  obtain ⟨t₁,hadopt,hrun⟩ := bind_ok hrun
  obtain ⟨t₂,hreplace,hrun⟩ := bind_ok hrun
  obtain rfl := Except.ok.inj hrun
  refine ⟨by simp,?_⟩
  have hcolor : t₁.color = t.color := by
    obtain rfl | ⟨b,rfl⟩ := adopt_ok hadopt <;> rfl
  obtain ⟨-,rfl⟩ | ⟨s,y,-,rfl⟩ := replaceChild_ok hreplace
  · exact hcolor
  · simpa using hcolor

/-- Away from the two nodes a left rotation changes at most one child, and the parent of the
subtree that moves. -/
theorem leftRotate_frame (hrun : leftRotate t a = .ok t') (hb : t.right a = some b) (hya : y ≠ a) (hyb : y ≠ b) :
    (t'.left y = t.left y ∨ t'.left y = some b) ∧
    (t.left b = some t.sentinel ∨ t.left b ≠ some y → t'.parent y = t.parent y) := by
  obtain ⟨d,hd,hrun⟩ := bind_ok hrun
  obtain rfl : b = d := Option.some.inj (hb.symm.trans (deref_ok hd))
  obtain ⟨t₁,hadopt,hrun⟩ := bind_ok hrun
  obtain ⟨t₂,hreplace,hrun⟩ := bind_ok hrun
  obtain rfl := Except.ok.inj hrun
  have hleft : t₁.left = t.left := by
    obtain rfl | ⟨e,rfl⟩ := adopt_ok hadopt <;> rfl
  have hpar : t.left b = some t.sentinel ∨ t.left b ≠ some y → t₁.parent y = t.parent y := by
    intro h
    unfold adopt at hadopt
    split at hadopt
    · rw [← Except.ok.inj hadopt]
      rfl
    · rename_i hne
      obtain ⟨e,he,hadopt⟩ := bind_ok hadopt
      obtain rfl := Except.ok.inj hadopt
      have hye : y ≠ e := by
        rintro rfl
        exact h.elim hne fun h => h (deref_ok he)
      simp [hye]
  obtain ⟨-,rfl⟩ | ⟨s,z,-,rfl⟩ := replaceChild_ok hreplace
  · exact ⟨.inl (by simp [hyb,hleft]),fun h => by simp [hya,hyb,hpar h]⟩
  · refine ⟨?_,fun h => by simp [hya,hyb,hpar h]⟩
    cases s with
    | true => exact .inl (by simp [RbtreeMem.setSide,hyb,hleft])
    | false =>
      by_cases hyz : y = z
      · subst hyz
        exact .inr (by simp [RbtreeMem.setSide,hyb])
      · exact .inl (by simp [RbtreeMem.setSide,hyb,hyz,hleft])

end InsideNginx.Rbtree
