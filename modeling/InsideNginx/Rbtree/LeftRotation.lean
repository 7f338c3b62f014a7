import InsideNginx.Rbtree.Rotate

/-! The left rotation of any node of a stored tree: which links it changes, and what it leaves. -/
namespace InsideNginx.Rbtree
open ColorTree

/-- The links after the left rotation of `a` below whose right side `b` was. -/
structure LeftRotated (t : RbtreeMem) (a b : ℕ) (t' : RbtreeMem) : Prop where
  kept : t'.key = t.key ∧ t'.color = t.color ∧ t'.sentinel = t.sentinel
  raised : t'.parent b = t.parent a ∧ t'.left b = some a ∧ t'.right b = t.right b
  lowered : t'.parent a = some b ∧ t'.left a = t.left a ∧ t'.right a = t.left b
  moved : ∀ x, t.left b = some x → x ≠ t.sentinel → t'.parent x = some a
  place : (t.root = some a ∧ t.parent a = none ∧ t'.root = some b) ∨
    (t'.root = t.root ∧ ∃ p s, t.parent a = some p ∧ t.side s p = some a ∧ t'.side s p = some b ∧
      t'.side (!s) p = t.side (!s) p)
  sides : ∀ s x, x ≠ a → x ≠ b → t.parent a ≠ some x → t'.side s x = t.side s x
  parents : ∀ x, x ≠ a → x ≠ b → x = t.sentinel ∨ t.left b ≠ some x → t'.parent x = t.parent x
  scratch : t'.left t.sentinel = t.left t.sentinel ∧ t'.right t.sentinel = t.right t.sentinel ∧
    t'.parent t.sentinel = t.parent t.sentinel

variable {t : RbtreeMem} {fs : Ctx ℕ} {T l m r : CTree ℕ} {a b x : ℕ} {c d : Color} {p : Option ℕ} {s s' : Bool}

theorem setHole_side_of_ne (h : up fs ≠ some x) : (setHole t fs p).side s x = t.side s x := by
  cases fs with
  | nil => rfl
  | cons f fs =>
    have hne : x ≠ f.label := fun he => h (congrArg some he.symm)
    exact side_setSide_of_ne hne

theorem up_ne (h : x ∉ labels fs) : up fs ≠ some x := by
  cases fs with
  | nil => simp [up]
  | cons f fs =>
    rintro ⟨⟩
    exact h (by simp [labels])

/-- The children of a node change only where the rotation stores them. -/
theorem rotated_side_of_ne (hxa : x ≠ a) (hxb : x ≠ b) (hx : up fs ≠ some x) :
    (rotated t s fs m a b).side s' x = t.side s' x := by
  rw [rotated,side_setParent,side_setSide_of_ne hxb,setHole_side_of_ne hx,side_setParent,lowered,adopted_side,
    side_setSide_of_ne hxa]

/-- The raised node keeps one child and gets the lowered one in place of the other. -/
theorem rotated_side_raised (hab : a ≠ b) (hb : up fs ≠ some b) :
    (rotated t s fs m a b).side s b = t.side s b ∧ (rotated t s fs m a b).side (!s) b = some a := by
  constructor
  · rw [rotated,side_setParent,side_not_setSide,setHole_side_of_ne hb,side_setParent,lowered,adopted_side,
      side_setSide_of_ne hab.symm]
  · rw [rotated,side_setParent,side_setSide_self]

/-- The lowered node keeps one child and gets the subtree that moves. -/
theorem rotated_side_lowered (hab : a ≠ b) (ha : up fs ≠ some a) :
    (rotated t s fs m a b).side s a = ptr t.sentinel m ∧ (rotated t s fs m a b).side (!s) a = t.side (!s) a := by
  constructor
  · rw [rotated,side_setParent,side_setSide_of_ne hab,setHole_side_of_ne ha,side_setParent,lowered,adopted_side,
      side_setSide_self]
  · rw [rotated,side_setParent,side_setSide_of_ne hab,setHole_side_of_ne ha,side_setParent,lowered,adopted_side,
      side_setSide_not]

theorem rotated_parent_of_ne (hxa : x ≠ a) (hxb : x ≠ b) :
    (rotated t s fs m a b).parent x = (adopted t m a).parent x := by
  have hm : (adopted (t.setSide s a (ptr t.sentinel m)) m a).parent = (adopted t m a).parent := by
    cases m <;> simp [adopted]
  simp [rotated,lowered,hxa,hxb,hm]

/-- The place of `a` becomes that of `b`. -/
theorem rotated_place (h : RepCtx t (some a) fs) (hparent : t.parent a = up fs) (ha : a ∉ labels fs) (hb : b ∉ labels fs) :
    (t.root = some a ∧ t.parent a = none ∧ (rotated t s fs m a b).root = some b) ∨
    ((rotated t s fs m a b).root = t.root ∧ ∃ p s', t.parent a = some p ∧ t.side s' p = some a ∧
      (rotated t s fs m a b).side s' p = some b ∧ (rotated t s fs m a b).side (!s') p = t.side (!s') p) := by
  cases fs with
  | nil => exact .inl ⟨h,hparent,by simp [rotated,setHole]⟩
  | cons f fs =>
    have hfa : f.label ≠ a := fun he => ha (by simp [labels,he])
    have hfb : f.label ≠ b := fun he => hb (by simp [labels,he])
    refine .inr ⟨by simp [rotated,setHole,lowered],f.label,f.right,hparent,h.2.2.2.1,?_,?_⟩
    · simp [rotated,setHole,side_setSide_of_ne hfb]
    · simp [rotated,setHole,lowered,side_setSide_of_ne hfb,side_setSide_of_ne hfa]

theorem rotated_leftRotated (h : Holds t (⟨false,d,b,r⟩::⟨true,c,a,l⟩::fs) m)
    (hd : Distinct (⟨false,d,b,r⟩::⟨true,c,a,l⟩::fs) m) : LeftRotated t a b (rotated t true fs m a b) := by
  obtain ⟨⟨hb,-,-,hsb,-,-,ha,-,hpa,hsa,-,-,hctx⟩,hm⟩ := h
  simp only [Distinct,labels] at hd
  have hab : a ≠ b := by grind
  have hafs : a ∉ labels fs := by grind
  have hbfs : b ∉ labels fs := by grind
  have hlb : t.left b = ptr t.sentinel m := hsb
  have hup : t.parent a = up fs := hpa
  obtain ⟨hright,hleft⟩ := rotated_side_raised (t := t) (s := true) (m := m) hab (up_ne hbfs)
  obtain ⟨hright',hleft'⟩ := rotated_side_lowered (t := t) (s := true) (m := m) hab (up_ne hafs)
  have hmoved : ∀ x, ptr t.sentinel m = some x → x ≠ t.sentinel → x ∈ m.inorder := by
    intro x hx hxs
    by_contra hxm
    exact ptr_ne hxs hxm hx
  have hparents : ∀ x, x ≠ a → x ≠ b → x = t.sentinel ∨ t.left b ≠ some x →
      (rotated t true fs m a b).parent x = t.parent x := by
    intro x hxa hxb hx
    rw [rotated_parent_of_ne hxa hxb]
    cases m with
    | leaf => rfl
    | node e l' y r' =>
      have hy : y ≠ t.sentinel := hm.1
      refine adopted_parent_of_ne ?_
      rcases hx with rfl | hx
      · simpa [ptr] using hy
      · exact hlb ▸ hx
  have hscratch : ∀ s', (rotated t true fs m a b).side s' t.sentinel = t.side s' t.sentinel := fun s' =>
    rotated_side_of_ne (Ne.symm ha) (Ne.symm hb) (up_ne fun hx => hctx.ne_sentinel _ hx rfl)
  refine ⟨⟨by simp,by simp,by simp⟩,⟨by simp [rotated,hab.symm,hup],hleft,hright⟩,
    ⟨by simp [rotated],hleft',hright'.trans hlb.symm⟩,?_,rotated_place hctx hpa hafs hbfs,
    fun s' x hxa hxb hx => rotated_side_of_ne hxa hxb (hup ▸ hx),hparents,
    hscratch false,hscratch true,hparents _ (Ne.symm ha) (Ne.symm hb) (.inl rfl)⟩
  intro x hx hxs
  rw [hlb] at hx
  have hxm := hmoved x hx hxs
  rw [rotated_parent_of_ne (by grind) (by grind)]
  exact adopted_parent_of_eq hxm hx

/-- The left rotation raises the right child of a node into its place, and changes no link of any node but
these two, the one whose child the node was, and the one that moves between them. -/
theorem leftRotate_effect (h : Holds t [] T) (hd : T.inorder.Nodup) (ha : a ∈ T.inorder) (hb : t.right a = some b)
    (hbs : b ≠ t.sentinel) : ∃ t' T', leftRotate t a = .ok t' ∧ Holds t' [] T' ∧ T'.inorder = T.inorder ∧
      LeftRotated t a b t' := by
  obtain ⟨fs,c,l,r,rfl⟩ := exists_plug ha
  have h := holds_plug.mpr h
  have hd := distinct_iff.mpr hd
  have hr : ptr t.sentinel r = some b := h.2.2.2.2.2.1.symm.trans hb
  cases r with
  | leaf => exact absurd (Option.some.inj hr).symm hbs
  | node d m e r =>
    obtain rfl : e = b := Option.some.inj hr
    have h' : Holds t (⟨false,d,e,r⟩::⟨true,c,a,l⟩::fs) m := holds_cons.mpr (holds_cons.mpr h)
    have hd' : Distinct (⟨false,d,e,r⟩::⟨true,c,a,l⟩::fs) m := distinct_cons.mpr (distinct_cons.mpr hd)
    obtain ⟨hrot,-⟩ := rotate_spec (s := true) h' hd'
    refine ⟨_,_,leftRotate_eq h' hd',holds_plug.mp (holds_cons.mp (holds_cons.mp hrot)),?_,rotated_leftRotated h' hd'⟩
    simp only [inorder_plug]
    simp [Frame.fill]

/-- Below the root 1 on the right the node 2, with 4 on its right and 3 between them. -/
def bentPath : RbtreeMem where
  key _ := 0
  left x := if x = 4 then some 3 else some 0
  right x := if x = 1 then some 2 else if x = 2 then some 4 else some 0
  parent x := if x = 2 then some 1 else if x = 4 then some 2 else if x = 3 then some 4 else none
  color _ := .black
  root := some 1
  sentinel := 0

/-- The inner rotation at 2, which moves 3. -/
theorem leftRotate_effect_bent : ∃ t' T', leftRotate bentPath 2 = .ok t' ∧ Holds t' [] T' ∧
    T'.inorder = [1,2,3,4] ∧ LeftRotated bentPath 2 4 t' := by
  have hholds : Holds bentPath [] (.node .black .leaf 1 (.node .black .leaf 2
      (.node .black (.node .black .leaf 3 .leaf) 4 .leaf))) := by
    simp [Holds,RepCtx,Rep,ptr,up,bentPath]
  exact leftRotate_effect hholds (by simp) (by simp) rfl (by decide)

end InsideNginx.Rbtree
