import InsideNginx.Rbtree.Insert

/-! The loop that mends the tree after a black node has been taken out: the subtree in the hole
is one black node short. -/
namespace InsideNginx.Rbtree
open ColorTree CTree

variable {t t' : RbtreeMem} {fs : Ctx ℕ} {X T l r : CTree ℕ} {a p w x y : ℕ} {c d : Color} {s : Bool}

/-- `x` is in the hole, the sentinel for a leaf, and its parent link is right in both cases. -/
structure At (t : RbtreeMem) (fs : Ctx ℕ) (X : CTree ℕ) (x : ℕ) : Prop where
  holds : Holds t fs X
  distinct : Distinct fs X
  black : t.color t.sentinel = .black
  node : ptr t.sentinel X = some x
  parent : t.parent x = up fs

/-- In a hole for the black height `k + 1` the tree has one less, or it is red and gets it when it
is painted. -/
def Short (X : CTree ℕ) (k : ℕ) : Prop :=
  match X.color with
  | .red => (X.paint .black).Balanced (k+1)
  | .black => X.Balanced k

/-! ### Exit -/

theorem deleteFixup_exit {fuel : ℕ} (h : t.root = some x ∨ t.color x = .red) :
    deleteFixup (fuel+1) t x = .ok (t.setColor x .black) := by
  rw [deleteFixup,if_neg]
  rintro ⟨hroot,hblack⟩
  rcases h with h | h
  · exact hroot h.symm
  · rw [hblack] at h
    cases h

/-- The tree that the loop leaves. -/
structure Mended (t t' : RbtreeMem) (T T' : CTree ℕ) : Prop where
  holds : Holds t' [] T'
  balanced : ∃ k, T'.Balanced k
  root_black : T'.color = .black
  inorder : T'.inorder = T.inorder
  settled : Settled t t'

theorem settled_black (h : t.color t.sentinel = .black) : Settled t (t.setColor a .black) := by
  refine ⟨rfl,rfl,?_⟩
  by_cases hs : t.sentinel = a <;> simp [hs,← h]

theorem mended_root {k : ℕ} (h : Holds t fs X) (hd : Distinct fs X) (hs : t.color t.sentinel = .black)
    (hX : X.Balanced k) (hfs : CtxBalanced fs k) (htop : X.color = .red → fs = [] ∨ topBlack fs)
    (hx : t.root = some x) :
    Mended t (t.setColor x .black) (plug fs X) ((plug fs X).paint .black) := by
  have hwhole := holds_plug.mp h
  refine ⟨hwhole.setColor (distinct_nil.mpr (distinct_iff.mp hd)) (hwhole.1.symm.trans hx),balanced_paint_plug hX hfs htop,
    ?_,by simp,settled_black hs⟩
  cases plug fs X <;> rfl

/-- A red node that the loop ends at takes the missing black. -/
theorem mended_red {k : ℕ} (h : At t fs X x) (hX : (X.paint .black).Balanced k) (hfs : CtxBalanced fs k) :
    Mended t (t.setColor x .black) (plug fs X) (plug fs (X.paint .black)) := by
  obtain ⟨hbal,hroot⟩ := (balanced_plug_iff fs (X.paint .black)).mpr ⟨k,hX,hfs,by cases X <;> simp [paint,color]⟩
  exact ⟨holds_plug.mp (h.holds.setColor h.distinct h.node),hbal,hroot,by simp [inorder_plug],settled_black h.black⟩

/-! ### The sibling -/

/-- Where the loop finds `x`, its parent and the sibling. -/
theorem At.side_eq {f : Frame ℕ} (h : At t (f::fs) X x) : t.side f.right f.label = some x := h.holds.side_eq.trans h.node

theorem At.sibling_ne {f : Frame ℕ} (h : At t (f::fs) X x) (hw : ptr t.sentinel f.other = some w) (hleaf : f.other ≠ .leaf) :
    w ≠ x := by
  have hwo := ptr_mem hleaf hw
  have hws : w ≠ t.sentinel := (holds_flip.mp h.holds).2.ne_sentinel w hwo
  rintro rfl
  refine ptr_ne hws (fun hX => ?_) h.node
  have hd := h.distinct
  simp only [Distinct,labels] at hd
  grind

theorem deleteRebalance_left (h : At t (⟨false,c,p,T⟩::fs) X x) (hw : ptr t.sentinel T = some w) :
    deleteRebalance t x = redSiblingLeft t x p w >>= fun v => blackSiblingLeft v.1 x v.2 := by
  have hp : t.parent x = some p := h.parent
  have hl : t.left p = some x := h.side_eq
  have hr : t.right p = some w := h.holds.other_eq.trans hw
  simp only [deleteRebalance,hp,hl,hr,deref,orFault,bind,Except.bind,if_true]

theorem deleteRebalance_right (h : At t (⟨true,c,p,T⟩::fs) X x) (hw : ptr t.sentinel T = some w) (hleaf : T ≠ .leaf) :
    deleteRebalance t x = redSiblingRight t x p w >>= fun v => blackSiblingRight v.1 x v.2 := by
  have hp : t.parent x = some p := h.parent
  have hl : t.left p = some w := h.holds.other_eq.trans hw
  have hne : w ≠ x := h.sibling_ne hw hleaf
  simp only [deleteRebalance,hp,hl,deref,orFault,bind,Except.bind,Option.some.injEq,hne.symm,if_false]

theorem bothBlack_eq (h : Holds t fs (.node c l w r)) (hs : t.color t.sentinel = .black) :
    bothBlack t w = .ok (decide (l.color = .black ∧ r.color = .black)) := by
  obtain ⟨a,ha⟩ : ∃ a, ptr t.sentinel l = some a := by cases l <;> exact ⟨_,rfl⟩
  obtain ⟨b,hb⟩ : ∃ b, ptr t.sentinel r = some b := by cases r <;> exact ⟨_,rfl⟩
  have hl : Holds t (⟨false,c,w,r⟩::fs) l := holds_cons.mpr h
  have hr : Holds t (⟨true,c,w,l⟩::fs) r := holds_cons.mpr h
  have hla : t.left w = some a := hl.side_eq.trans ha
  have hrb : t.right w = some b := hr.side_eq.trans hb
  simp only [bothBlack,hla,hrb,deref,orFault,bind,Except.bind,hl.color_eq hs ha,hr.color_eq hs hb,pure,Except.pure]
  by_cases hlc : l.color = .black <;> simp [hlc]

/-- Case 2: the sibling becomes red, and its parent is short instead. -/
theorem At.raise (h : At t (⟨s,c,p,.node .black l w r⟩::fs) X x) :
    At (t.setColor w .red) fs (Frame.fill ⟨s,c,p,.node .red l w r⟩ X) p := by
  have hflip := holds_flip.mp h.holds
  have hdflip := distinct_flip.mp h.distinct
  have hw : w ≠ t.sentinel := hflip.node_ne
  have hred := holds_flip.mp (hflip.setColor (c := .red) (a := w) hdflip rfl)
  have hd : Distinct (⟨s,c,p,.node .red l w r⟩::fs) X := by
    have := h.distinct
    simpa [Distinct,labels] using this
  have hholds : Holds (t.setColor w .red) (⟨s,c,p,.node .red l w r⟩::fs) X := by
    simpa [Frame.flip,paint] using hred
  refine ⟨holds_cons.mp hholds,distinct_cons.mp hd,?_,ptr_fill,h.holds.label_parent⟩
  simpa [hw.symm] using h.black

/-! ### The left-hand branch -/

/-- A change elsewhere that keeps the node above the hole. -/
theorem At.move {f g : Frame ℕ} {gs : Ctx ℕ} (h : At t (f::fs) X x) (hholds : Holds t' (g::gs) X)
    (hd : Distinct (g::gs) X) (hlabel : g.label = f.label) (hset : Settled t t')
    (hscratch : t'.parent t.sentinel = t.parent t.sentinel) : At t' (g::gs) X x := by
  refine ⟨hholds,hd,by rw [hset.sentinel,hset.sentinel_color,h.black],by rw [hset.sentinel]; exact h.node,?_⟩
  by_cases hX : X = .leaf
  · subst hX
    obtain rfl : t.sentinel = x := Option.some.inj h.node
    rw [hscratch,h.parent,up,up,hlabel]
  · exact hholds.parent_eq hX (by rw [hset.sentinel]; exact h.node)

theorem Holds.root_some (h : Holds t fs (.node c l a r)) : ∃ y, t.root = some y := by
  cases fs with
  | nil => exact ⟨a,h.1⟩
  | cons f fs =>
    obtain ⟨y,-,hy⟩ := h.1.root_mem
    exact ⟨y,hy⟩

/-- Case 1: the red sibling is rotated above the parent, and the next sibling is black. -/
theorem redSiblingLeft_spec (h : At t (⟨false,c,p,.node .red l w r⟩::fs) X x) (hl : ptr t.sentinel l = some y) :
    ∃ t', redSiblingLeft t x p w = .ok (t',y) ∧ At t' (⟨false,.red,p,l⟩::⟨false,.black,w,r⟩::fs) X x ∧
      Settled t t' := by
  have hflip := holds_flip.mp h.holds
  have hblack := hflip.setColor (c := .black) (a := w) (distinct_flip.mp h.distinct) rfl
  have hholds₁ : Holds (t.setColor w .black) (⟨false,c,p,.node .black l w r⟩::fs) X := holds_flip.mpr hblack
  have hd₁ : Distinct (⟨false,c,p,.node .black l w r⟩::fs) X := by simpa [Distinct,labels] using h.distinct
  have hred := (holds_cons.mp hholds₁).setColor (c := .red) (distinct_cons.mp hd₁) ptr_fill
  have hd₂ : Distinct fs (.node .red X p (.node .black l w r)) := by
    simpa [Distinct,Frame.fill] using distinct_cons.mp hd₁
  obtain ⟨t',hrot,hholds',hkept⟩ := leftRotate_spec hred hd₂
  have hset : Settled t t' :=
    ((settled_setColor hflip.node_ne).trans (settled_setColor h.holds.1.1)).trans hkept.settled
  have hholds' : Holds t' (⟨false,.red,p,l⟩::⟨false,.black,w,r⟩::fs) X := holds_cons.mpr (holds_cons.mpr hholds')
  have hd' : Distinct (⟨false,.red,p,l⟩::⟨false,.black,w,r⟩::fs) X := by
    refine distinct_cons.mpr (distinct_cons.mpr ?_)
    simpa [Distinct,Frame.fill] using hd₂
  have hat := h.move hholds' hd' rfl hset hkept.scratch
  refine ⟨t',?_,hat,hset⟩
  have hparent : t'.parent x = some p := hat.parent
  have hright : t'.right p = some y := by
    have := hholds'.other_eq
    rw [hset.sentinel] at this
    exact this.trans hl
  simp only [redSiblingLeft,hflip.node_color,if_true,hrot,bind,Except.bind,hparent,hright,deref,orFault,pure,Except.pure]

/-- Case 4: the sibling takes the place and the colour of the parent. -/
theorem outerRedLeft_spec (h : At t (⟨false,c,p,.node .black l w r⟩::fs) X x) (hr : ptr t.sentinel r = some y) :
    ∃ t' z, outerRedLeft t x w = .ok (t',z) ∧ t'.root = some z ∧
      Holds t' fs (.node c (.node .black X p l) w (r.paint .black)) ∧ (r ≠ .leaf → Settled t t') := by
  have hflip := holds_flip.mp h.holds
  have hcolor := hflip.setColor (c := c) (a := w) (distinct_flip.mp h.distinct) rfl
  have hholds₁ : Holds (t.setColor w c) (⟨false,c,p,.node c l w r⟩::fs) X := holds_flip.mpr hcolor
  have hd₁ : Distinct (⟨false,c,p,.node c l w r⟩::fs) X := by simpa [Distinct,labels] using h.distinct
  have hblack := (holds_cons.mp hholds₁).setColor (c := .black) (distinct_cons.mp hd₁) ptr_fill
  have hholds₂ : Holds ((t.setColor w c).setColor p .black) (⟨true,c,w,l⟩::⟨true,.black,p,X⟩::fs) r :=
    holds_cons.mpr (holds_cons.mpr hblack)
  have hd₂ : Distinct (⟨true,c,w,l⟩::⟨true,.black,p,X⟩::fs) r := by
    refine distinct_cons.mpr (distinct_cons.mpr ?_)
    simpa [Distinct,Frame.fill] using distinct_cons.mp hd₁
  have houter := holds_cons.mp (holds_cons.mp (hholds₂.setColor (c := .black) hd₂ hr))
  have hd₃ : Distinct fs (.node .black X p (.node c l w (r.paint .black))) := by
    simpa [Distinct,Frame.fill] using distinct_cons.mp (distinct_cons.mp hd₂)
  obtain ⟨t',hrot,hholds',hkept⟩ := leftRotate_spec houter hd₃
  obtain ⟨z,hz⟩ := hholds'.root_some
  have hparent : t.parent x = some p := h.parent
  have hright : t.right w = some y := hholds₂.side_eq.trans hr
  refine ⟨t',z,?_,hz,hholds',fun hleaf => ?_⟩
  · simp only [outerRedLeft,hparent,deref,orFault,bind,Except.bind,RbtreeMem.setColor_right,hright,
      show t.color p = c from h.holds.label_color,hrot,hz]
    rfl
  · have hy : y ≠ t.sentinel := hholds₂.2.ne_sentinel y (ptr_mem hleaf hr)
    exact (((settled_setColor hflip.node_ne).trans (settled_setColor h.holds.1.1)).trans (settled_setColor hy)).trans
      hkept.settled

/-- Case 3 without the parent link of the raised node. -/
theorem innerRedLeft_spec {z : ℕ} {m q : CTree ℕ} (h : At t (⟨false,c,p,.node .black (.node .red m z q) w r⟩::fs) X x)
    (hr : r.color = .black) : ∃ t', innerRedLeft t x w = .ok (t',z) ∧
      At (t'.setParent z (some p)) (⟨false,c,p,.node .black m z (.node .red q w r)⟩::fs) X x ∧
      t'.parent z = some w ∧ Settled t t' := by
  have hflip := holds_flip.mp h.holds
  have hinner : Holds t (⟨false,.black,w,r⟩::Frame.flip ⟨false,c,p,.node .black (.node .red m z q) w r⟩ X::fs)
      (.node .red m z q) := holds_cons.mpr hflip
  have hdinner : Distinct (⟨false,.black,w,r⟩::Frame.flip ⟨false,c,p,.node .black (.node .red m z q) w r⟩ X::fs)
      (.node .red m z q) := distinct_cons.mpr (distinct_flip.mp h.distinct)
  have hblack := holds_cons.mp (hinner.setColor (c := .black) (a := z) hdinner rfl)
  have hd₁ : Distinct (Frame.flip ⟨false,c,p,.node .black (.node .red m z q) w r⟩ X::fs)
      (.node .black (.node .black m z q) w r) := by
    simpa [Distinct,Frame.fill] using distinct_cons.mp hdinner
  have hred := hblack.setColor (c := .red) (a := w) hd₁ rfl
  obtain ⟨t',hrot,hholds',hparent,hkept⟩ := rightRotate_spec hred (by simpa [Distinct] using hd₁)
  have hset : Settled t t' :=
    ((settled_setColor hinner.node_ne).trans (settled_setColor hflip.node_ne)).trans hkept.settled
  have hback : Holds (t'.setParent z (some p)) (⟨false,c,p,.node .black m z (.node .red q w r)⟩::fs) X :=
    holds_flip.mpr hholds'
  have hd' : Distinct (⟨false,c,p,.node .black m z (.node .red q w r)⟩::fs) X := by
    simpa [Distinct,labels] using h.distinct
  have hzs : t.sentinel ≠ z := Ne.symm hinner.node_ne
  have hat := h.move hback hd' rfl (hset.trans ⟨rfl,rfl,rfl⟩) (by simpa [hzs] using hkept.scratch)
  refine ⟨t',?_,hat,hparent,hset⟩
  obtain ⟨b,hb⟩ : ∃ b, ptr t.sentinel r = some b := by cases r <;> exact ⟨_,rfl⟩
  have hrw : t.right w = some b := hflip.right_eq.trans hb
  have hlw : t.left w = some z := hflip.left_eq
  have hcolor : t.color b = .black :=
    ((holds_cons (f := ⟨true,.black,w,.node .red m z q⟩).mpr hflip).color_eq h.black hb).trans hr
  have hxz : x ≠ z := by
    rintro rfl
    refine ptr_ne hzs.symm (fun hX => ?_) h.node
    have hd := h.distinct
    simp only [Distinct,labels,inorder_node] at hd
    grind
  have hpx : t'.parent x = some p := by simpa [hxz,up] using hat.parent
  have hrp : t'.right p = some z := hback.other_eq
  simp only [innerRedLeft,hrw,hlw,hcolor,hrot,hpx,hrp,deref,orFault,bind,Except.bind,if_true,pure,Except.pure]

/-- A parent link that is stored again may be anything before. -/
theorem setParent_overwrite (t : RbtreeMem) (b y : ℕ) (q r v : Option ℕ) :
    ((t.setParent y q).setParent b r).setParent y v = (t.setParent b r).setParent y v := by
  simp only [RbtreeMem.setParent,RbtreeMem.mk.injEq,true_and,and_true]
  funext i
  by_cases hy : i = y <;> by_cases hb : i = b <;> simp [hy,hb,Function.update_apply]

theorem adopt_overwrite {β : Type} (u : RbtreeMem) (e q : Option ℕ) (hya : y ≠ a) (k : RbtreeMem → Except Fault β) :
    (adopt (u.setParent y q) e a >>= fun v => k (v.setParent y (v.parent a))) =
      adopt u e a >>= fun v => k (v.setParent y (v.parent a)) := by
  unfold adopt
  simp only [RbtreeMem.setParent_sentinel]
  split
  · have := setParent_overwrite u y y q q (u.parent a)
    simp only [bind,Except.bind,RbtreeMem.setParent_parent,Function.update_of_ne hya.symm]
    congr 1
    simp [RbtreeMem.setParent]
  · cases e with
    | none => rfl
    | some b =>
      simp only [deref,orFault,bind,Except.bind,pure,Except.pure]
      rw [setParent_overwrite]
      congr 2
      by_cases hab : a = b <;> simp [hab,hya.symm]

theorem leftRotate_setParent (hb : t.right a = some y) (hya : y ≠ a) (q : Option ℕ) :
    leftRotate (t.setParent y q) a = leftRotate t a := by
  simp only [leftRotate,RbtreeMem.setParent_right,hb]
  exact adopt_overwrite (t.setRight a (t.left y)) (t.left y) q hya fun u => do
    let v ← replaceChild u a y
    return (v.setLeft y (some a)).setParent a (some y)

/-- Case 4 does not need the link that case 3 has not set. -/
theorem outerRedLeft_setParent (hp : t.parent x = some p) (hright : t.right p = some y) (hyx : y ≠ x) (hyp : y ≠ p)
    (q : Option ℕ) : outerRedLeft (t.setParent y q) x y = outerRedLeft t x y := by
  have hpar : (t.setParent y q).parent x = some p := by simpa [hyx.symm] using hp
  simp only [outerRedLeft,hpar,hp]
  cases hr : t.right y with
  | none => simp [deref,orFault,bind,Except.bind,hr]
  | some e =>
    have hrot := leftRotate_setParent (t := ((t.setColor y (t.color p)).setColor p .black).setColor e .black) (a := p)
      hright hyp q
    simp only [deref,orFault,bind,Except.bind,RbtreeMem.setColor_right,RbtreeMem.setParent_right,hr]
    exact congrArg (fun v => v >>= fun t => deref t.root >>= fun z => pure (t,z)) hrot
/-! ### Runs without a right-hand rotation -/

/-- Both children are black. -/
def ChildrenBlack : CTree ℕ → Prop
  | .leaf => True
  | .node _ l _ r => l.color = .black ∧ r.color = .black

/-- Going up from a short tree, the loop comes to a left-hand branch before it has to rotate. -/
def LeftHanded : Color → Ctx ℕ → Prop
  | .black,f::fs => (f.other.color = .black ∧ ChildrenBlack f.other ∧ LeftHanded f.color fs) ∨
    (¬ (f.other.color = .black ∧ ChildrenBlack f.other) ∧ f.right = false)
  | _,_ => True

theorem Mended.trans {T₁ : CTree ℕ} {t₁ : RbtreeMem} (hset : Settled t t₁) (hin : X.inorder = T₁.inorder)
    (h : Mended t₁ t' X T) : Mended t t' T₁ T :=
  ⟨h.holds,h.balanced,h.root_black,h.inorder.trans hin,hset.trans h.settled⟩

/-- The black heights after case 4. -/
theorem outerRed_balanced {k : ℕ} (hX : X.Balanced k) (hl : l.Balanced k) (hr : r.Balanced (k+1))
    (hc : r.color = .black) :
    (CTree.node c (.node .black X p l) w r).Balanced (Frame.height ⟨s,c,x,T⟩ (k+1)) := by
  cases c with
  | red => exact balanced_red.mpr ⟨rfl,hc,balanced_black.mpr ⟨hX,hl⟩,hr⟩
  | black => exact balanced_black.mpr ⟨balanced_black.mpr ⟨hX,hl⟩,hr⟩

/-- Cases 3 and 4 together. -/
theorem blackSiblingLeft_spec {k : ℕ} (h : At t (⟨false,c,p,.node .black l w r⟩::fs) X x) (hX : X.Balanced k)
    (hl : l.Balanced k) (hr : r.Balanced k) (hred : ¬ (l.color = .black ∧ r.color = .black)) :
    ∃ t' y Z, blackSiblingLeft t x w = .ok (t',y) ∧ t'.root = some y ∧ Holds t' fs Z ∧ Z.color = c ∧
      Z.Balanced (Frame.height ⟨false,c,p,.node .black l w r⟩ (k+1)) ∧
      Z.inorder = (Frame.fill ⟨false,c,p,.node .black l w r⟩ X).inorder ∧ Settled t t' := by
  have hboth : bothBlack t w = .ok false := by
    rw [bothBlack_eq (holds_flip.mp h.holds) h.black,decide_eq_false hred]
  simp only [blackSiblingLeft,hboth,bind,Except.bind,Bool.false_eq_true,if_false]
  obtain ⟨b,hb⟩ : ∃ b, ptr t.sentinel r = some b := by cases r <;> exact ⟨_,rfl⟩
  have hr' : Holds t (⟨true,.black,w,l⟩::Frame.flip ⟨false,c,p,.node .black l w r⟩ X::fs) r :=
    holds_cons.mpr (holds_flip.mp h.holds)
  have hrw : t.right w = some b := hr'.side_eq.trans hb
  have hbr : t.color b = r.color := hr'.color_eq h.black hb
  cases hrc : r.color with
  | red =>
    have hleaf : r ≠ .leaf := by rintro rfl; cases hrc
    have hinner : innerRedLeft t x w = .ok (t,w) := by
      simp [innerRedLeft,hrw,deref,orFault,bind,Except.bind,hbr,hrc,pure,Except.pure]
    obtain ⟨t',y,hrun,hroot,hholds,hset⟩ := outerRedLeft_spec h hb
    refine ⟨t',y,_,by rw [hinner]; exact hrun,hroot,hholds,rfl,
      outerRed_balanced hX hl (hr.paint_black hrc) ?_,by simp [Frame.fill],hset hleaf⟩
    cases r <;> rfl
  | black =>
    have hlc : l.color = .red := by
      cases hlc : l.color with
      | red => rfl
      | black => exact (hred ⟨hlc,hrc⟩).elim
    cases l with
    | leaf => cases hlc
    | node c' m z q =>
      obtain rfl : c' = .red := hlc
      obtain ⟨hmc,hqc,hm,hq⟩ := balanced_red.mp hl
      obtain ⟨t₁,hinner,hat,hz,hset₁⟩ := innerRedLeft_spec h hrc
      obtain ⟨t',y,hrun,hroot,hholds,hset⟩ := outerRedLeft_spec hat rfl
      have hzp : z ≠ p ∧ z ≠ x := by
        have hd := h.distinct
        refine ⟨by simp only [Distinct,labels,inorder_node] at hd; grind,?_⟩
        rintro rfl
        exact hat.sibling_ne rfl node_ne_leaf rfl
      have hpx : t₁.parent x = some p := by simpa [hzp.2.symm,up] using hat.parent
      have hpz : t₁.right p = some z := hat.holds.other_eq
      have hlink : Settled t₁ (t₁.setParent z (some p)) := ⟨rfl,rfl,rfl⟩
      refine ⟨t',y,_,?_,hroot,hholds,rfl,outerRed_balanced hX hm ?_ rfl,by simp [Frame.fill,paint],
        hset₁.trans (hlink.trans (hset node_ne_leaf))⟩
      · rw [hinner]
        exact (outerRedLeft_setParent hpx hpz hzp.2 hzp.1 (some p)).symm.trans hrun
      · exact balanced_black.mpr ⟨hq,hr⟩

theorem blackSibling_raise (h : At t (⟨s,c,p,.node .black l w r⟩::fs) X x) (hl : l.color = .black) (hr : r.color = .black) :
    (if s then blackSiblingRight t x w else blackSiblingLeft t x w) = .ok (t.setColor w .red,p) := by
  have hboth : bothBlack t w = .ok true := by
    rw [bothBlack_eq (holds_flip.mp h.holds) h.black,decide_eq_true ⟨hl,hr⟩]
  have hp : t.parent x = some p := h.parent
  cases s <;>
    simp [blackSiblingLeft,blackSiblingRight,hboth,hp,deref,orFault,bind,Except.bind,pure,Except.pure]

/-- After case 2 the tree above is short, or red and made right by its colour. -/
theorem short_raise {k : ℕ} (hX : X.Balanced k) (hl : l.Balanced k ∧ l.color = .black)
    (hr : r.Balanced k ∧ r.color = .black) :
    ∃ k', Frame.height ⟨s,c,p,T⟩ (k+1) = k'+1 ∧ Short (Frame.fill ⟨s,c,p,.node .red l w r⟩ X) k' := by
  have hw : (CTree.node .red l w r).Balanced k := balanced_red.mpr ⟨hl.2,hr.2,hl.1,hr.1⟩
  cases c with
  | red =>
    refine ⟨k,rfl,?_⟩
    rw [Short,Frame.color_fill,Frame.paint_fill]
    exact (Frame.balanced_fill_black rfl).mpr ⟨hX,hw⟩
  | black =>
    refine ⟨k+1,rfl,?_⟩
    rw [Short,Frame.color_fill]
    exact (Frame.balanced_fill_black rfl).mpr ⟨hX,hw⟩

/-- At the end of case 4 the loop stops at the root. -/
theorem mended_of_root (fuel : ℕ) {k : ℕ} {Z : CTree ℕ} (hs : t.color t.sentinel = .black) (hset : Settled t t')
    (hd : Distinct fs T) (hin : Z.inorder = T.inorder) (hroot : t'.root = some y) (hholds : Holds t' fs Z)
    (hbal : Z.Balanced k) (hfs : CtxBalanced fs k) (htop : Z.color = .red → topBlack fs) :
    deleteFixup (fuel+1) t' y = .ok (t'.setColor y .black) ∧
    Mended t (t'.setColor y .black) (plug fs T) ((plug fs Z).paint .black) := by
  refine ⟨deleteFixup_exit (.inl hroot),?_⟩
  have hmended := mended_root hholds (by simpa [Distinct,hin] using hd)
    (by rw [hset.sentinel,hset.sentinel_color,hs]) hbal hfs (fun hc => .inr (htop hc)) hroot
  exact hmended.trans hset (by rw [inorder_plug,inorder_plug,hin])

/-- The body of the loop runs for a black node below another one. -/
theorem deleteFixup_step {fuel : ℕ} {f : Frame ℕ} (h : At t (f::fs) X x) (hX : X.color = .black) :
    deleteFixup (fuel+1) t x = deleteRebalance t x >>= fun v => deleteFixup fuel v.1 v.2 := by
  have hblack : t.color x = .black := (h.holds.color_eq h.black h.node).trans hX
  have hroot : some x ≠ t.root := by
    obtain ⟨y,hy,hroot⟩ := h.holds.1.root_mem
    rw [hroot]
    rintro ⟨⟩
    refine ptr_ne (h.holds.1.ne_sentinel x hy) (fun hX => ?_) h.node
    have hd := h.distinct
    simp only [Distinct] at hd
    grind
  rw [deleteFixup,if_pos ⟨hroot,hblack⟩]

/-- A black sibling needs no first case. -/
theorem deleteRebalance_black (h : At t (⟨s,c,p,.node .black l w r⟩::fs) X x) :
    deleteRebalance t x = if s then blackSiblingRight t x w else blackSiblingLeft t x w := by
  have hcolor : t.color w = .black := (holds_flip.mp h.holds).node_color
  cases s with
  | false =>
    rw [deleteRebalance_left h rfl]
    simp [redSiblingLeft,hcolor,bind,Except.bind,pure,Except.pure]
  | true =>
    rw [deleteRebalance_right h rfl node_ne_leaf]
    simp [redSiblingRight,hcolor,bind,Except.bind,pure,Except.pure]

theorem deleteFixup_red (h : At t fs X x) {k : ℕ} (hX : X.color = .red) (hshort : (X.paint .black).Balanced k)
    (hfs : CtxBalanced fs k) :
    (∀ fuel, deleteFixup (fuel+1) t x = .ok (t.setColor x .black)) ∧
    Mended t (t.setColor x .black) (plug fs X) (plug fs (X.paint .black)) :=
  ⟨fun _ => deleteFixup_exit (.inr ((h.holds.color_eq h.black h.node).trans hX)),mended_red h hshort hfs⟩

/-- Case 1 on the left, and what follows it. -/
theorem deleteFixup_redSibling {k : ℕ} (h : At t (⟨false,c,p,.node .red l w r⟩::fs) X x) (hX : X.color = .black)
    (hbal : X.Balanced k) (hfs : CtxBalanced (⟨false,c,p,.node .red l w r⟩::fs) (k+1)) :
    ∃ t' T', (∀ fuel, 1 < fuel → deleteFixup fuel t x = .ok t') ∧
      Mended t t' (plug (⟨false,c,p,.node .red l w r⟩::fs) X) T' := by
  obtain ⟨hw,hc,hrest⟩ := hfs
  obtain rfl : c = .black := by
    cases c with
    | red => cases (hc rfl).1
    | black => rfl
  obtain ⟨hlc,hrc,hl,hr⟩ := balanced_red.mp hw
  cases l with
  | leaf => cases balanced_leaf.mp hl
  | node cl l₂ v r₂ =>
    obtain rfl : cl = .black := hlc
    obtain ⟨hl₂,hr₂⟩ := balanced_black.mp hl
    obtain ⟨t₁,hrun,hat,hset⟩ := redSiblingLeft_spec h rfl
    have hctx : CtxBalanced (⟨false,.black,w,r⟩::fs) (k+1) := ⟨hr,by simp,hrest⟩
    have hplug : (plug (⟨false,.red,p,.node .black l₂ v r₂⟩::⟨false,.black,w,r⟩::fs) X).inorder =
        (plug (⟨false,.black,p,.node .red (.node .black l₂ v r₂) w r⟩::fs) X).inorder := by
      simp [inorder_plug,Frame.fill]
    have hstep : ∀ fuel, deleteFixup (fuel+1) t x =
        blackSiblingLeft t₁ x v >>= fun z => deleteFixup fuel z.1 z.2 := by
      intro fuel
      rw [deleteFixup_step h hX,deleteRebalance_left h rfl,hrun]
      rfl
    by_cases hboth : l₂.color = .black ∧ r₂.color = .black
    · have hraise : blackSiblingLeft t₁ x v = .ok (t₁.setColor v .red,p) := blackSibling_raise hat hboth.1 hboth.2
      obtain ⟨_,hk,hshort⟩ := short_raise (s := false) (c := .red) (p := p) (w := v) (T := .leaf) hbal ⟨hl₂,hboth.1⟩
        ⟨hr₂,hboth.2⟩
      obtain rfl := Nat.succ.inj hk
      obtain ⟨hend,hmended⟩ := deleteFixup_red hat.raise (by simp) (by rwa [Short,Frame.color_fill] at hshort) hctx
      have hvs : v ≠ t₁.sentinel := (holds_flip.mp hat.holds).node_ne
      refine ⟨_,_,fun fuel hfuel => ?_,hmended.trans (hset.trans (settled_setColor hvs)) ?_⟩
      · obtain ⟨fuel,rfl⟩ : ∃ j, fuel = j + 2 := ⟨fuel-2,by omega⟩
        rw [hstep,hraise]
        exact hend fuel
      · rw [← hplug]
        simp [inorder_plug,Frame.fill]
    · obtain ⟨t₂,y,Z,hrun₂,hroot,hholds,hZc,hZ,hin,hset₂⟩ := blackSiblingLeft_spec hat hbal hl₂ hr₂ hboth
      have hall := fun fuel => mended_of_root fuel hat.black hset₂ (distinct_cons.mp hat.distinct) hin hroot
        hholds hZ hctx fun _ => rfl
      refine ⟨_,_,fun fuel hfuel => ?_,(hall 0).2.trans hset hplug⟩
      obtain ⟨fuel,rfl⟩ : ∃ j, fuel = j + 2 := ⟨fuel-2,by omega⟩
      rw [hstep,hrun₂]
      exact (hall fuel).1

theorem deleteFixup_good (fs : Ctx ℕ) : ∀ {t : RbtreeMem} {X : CTree ℕ} {x k : ℕ}, At t fs X x → Short X k →
    CtxBalanced fs (k+1) → LeftHanded X.color fs →
    ∃ t' T', (∀ fuel, fs.length < fuel → deleteFixup fuel t x = .ok t') ∧ Mended t t' (plug fs X) T' := by
  induction fs with
  | nil =>
    intro t X x k h hshort hfs hgood
    have hroot : t.root = some x := h.holds.1.trans h.node
    have hend : ∀ fuel, 0 < fuel → deleteFixup fuel t x = .ok (t.setColor x .black) := by
      intro fuel hfuel
      obtain ⟨fuel,rfl⟩ := Nat.exists_eq_succ_of_ne_zero (Nat.ne_of_gt hfuel)
      exact deleteFixup_exit (.inl hroot)
    cases hX : X.color with
    | red =>
      rw [Short,hX] at hshort
      exact ⟨_,_,hend,mended_red h hshort hfs⟩
    | black =>
      rw [Short,hX] at hshort
      exact ⟨_,_,hend,mended_root h.holds h.distinct h.black hshort trivial (fun _ => .inl rfl) hroot⟩
  | cons f fs ih =>
    intro t X x k h hshort hfs hgood
    cases hX : X.color with
    | red =>
      rw [Short,hX] at hshort
      obtain ⟨hend,hmended⟩ := deleteFixup_red h hX hshort hfs
      refine ⟨_,_,fun fuel hfuel => ?_,hmended⟩
      obtain ⟨fuel,rfl⟩ := Nat.exists_eq_succ_of_ne_zero (Nat.ne_of_gt (Nat.zero_lt_of_lt hfuel))
      exact hend fuel
    | black =>
      rw [Short,hX] at hshort
      rw [hX] at hgood
      obtain ⟨s,c,p,W⟩ := f
      obtain ⟨hW,hc,hrest⟩ := hfs
      cases W with
      | leaf => cases balanced_leaf.mp hW
      | node cw l w r =>
        cases cw with
        | red =>
          obtain ⟨hblack,-⟩ | ⟨-,rfl⟩ := hgood
          · cases hblack
          · obtain ⟨t',T',hrun,hmended⟩ := deleteFixup_redSibling h hX hshort ⟨hW,hc,hrest⟩
            exact ⟨t',T',fun fuel hfuel => hrun fuel (by simp at hfuel; omega),hmended⟩
        | black =>
          obtain ⟨hl,hr⟩ := balanced_black.mp hW
          have hstep : ∀ fuel, deleteFixup (fuel+1) t x =
              (if s then blackSiblingRight t x w else blackSiblingLeft t x w) >>= fun z =>
                deleteFixup fuel z.1 z.2 := by
            intro fuel
            rw [deleteFixup_step h hX,deleteRebalance_black h]
          by_cases hboth : l.color = .black ∧ r.color = .black
          · have hgood : LeftHanded c fs := by
              obtain ⟨-,-,hgood⟩ | ⟨hne,-⟩ := hgood
              · exact hgood
              · exact (hne ⟨rfl,hboth⟩).elim
            obtain ⟨k',hk,hshort'⟩ := short_raise (s := s) (c := c) (p := p) (w := w) (T := .node .black l w r) hshort
              ⟨hl,hboth.1⟩ ⟨hr,hboth.2⟩
            rw [hk] at hrest
            obtain ⟨t',T',hrun,hmended⟩ := ih h.raise hshort' hrest (by rw [Frame.color_fill]; exact hgood)
            have hws : w ≠ t.sentinel := (holds_flip.mp h.holds).node_ne
            refine ⟨t',T',fun fuel hfuel => ?_,hmended.trans (settled_setColor hws) ?_⟩
            · obtain ⟨fuel,rfl⟩ := Nat.exists_eq_succ_of_ne_zero (Nat.ne_of_gt (Nat.zero_lt_of_lt hfuel))
              rw [hstep,blackSibling_raise h hboth.1 hboth.2]
              exact hrun fuel (by simp at hfuel; omega)
            · simp [inorder_plug,Frame.inorder_fill]
          · have hs : s = false := by
              obtain ⟨-,hch,-⟩ | ⟨-,hs⟩ := hgood
              · exact (hboth hch).elim
              · exact hs
            subst hs
            obtain ⟨t₂,y,Z,hrun₂,hroot,hholds,hZc,hZ,hin,hset₂⟩ := blackSiblingLeft_spec h hshort hl hr hboth
            have hall := fun fuel => mended_of_root fuel h.black hset₂ (distinct_cons.mp h.distinct) hin hroot
              hholds hZ hrest fun hred => (hc (hZc.symm.trans hred)).2
            refine ⟨_,_,fun fuel hfuel => ?_,(hall 0).2⟩
            obtain ⟨fuel,rfl⟩ : ∃ j, fuel = j + 2 := ⟨fuel-2,by simp at hfuel; omega⟩
            rw [hstep]
            simp only [Bool.false_eq_true,if_false,hrun₂,bind,Except.bind]
            exact (hall fuel).1

end InsideNginx.Rbtree
