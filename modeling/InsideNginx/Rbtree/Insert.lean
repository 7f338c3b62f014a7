import InsideNginx.Rbtree.Rotate

/-! Insertion: the new node is put at its place in the order, and the loop that re-balances the
tree restores it exactly when it needs no right rotation. -/
namespace InsideNginx.Rbtree
open ColorTree CTree

variable {t t' : RbtreeMem} {fs : Ctx ℕ} {T l m r : CTree ℕ} {a b n x y : ℕ} {c d : Color} {p q : Option ℕ} {s : Bool}

/-- The memory holds the red-black tree `T`. -/
structure IsRbtree (t : RbtreeMem) (T : CTree ℕ) : Prop where
  holds : Holds t [] T
  nodup : T.inorder.Nodup
  sorted : (T.inorder.map t.key).Pairwise (· ≤ ·)
  balanced : ∃ n, T.Balanced n
  root_black : T.color = .black
  sentinel_black : t.color t.sentinel = .black

/-- With enough fuel the run ends with `x`. -/
def Returns (run : ℕ → Except Fault RbtreeMem) (x : RbtreeMem) : Prop := ∃ k, ∀ fuel, k ≤ fuel → run fuel = .ok x

/-! ### The place of the new node -/

/-- The stores after the loop of `ngx_rbtree_insert_value`, with the hole of `fs` for `*p`. -/
def linked (t : RbtreeMem) (fs : Ctx ℕ) (n : ℕ) : RbtreeMem :=
  ((((setHole t fs (some n)).setParent n (up fs)).setLeft n (some t.sentinel)).setRight n
    (some t.sentinel)).setColor n .red

theorem linked_spec (h : Holds t fs .leaf) (hd : Distinct fs (.node .red .leaf n .leaf)) (hn : n ≠ t.sentinel) :
    Holds (linked t fs n) fs (.node .red .leaf n .leaf) := by
  simp only [Distinct,CTree.inorder_node,CTree.inorder_leaf,List.nil_append] at hd
  have hset : RepCtx (setHole t fs (some n)) (some n) fs := h.1.setHole (by grind)
  refine ⟨hset.congr (by simp [linked]) (by simp [linked]) fun x hx => ?_,by simpa [linked] using hn,by simp [linked],
    by simp [linked],by simp [linked,ptr],by simp [linked,ptr],trivial,trivial⟩
  have hxn : x ≠ n := by grind
  exact ⟨by simp [linked,hxn],by simp [linked,hxn],by simp [linked,hxn],by simp [linked,hxn]⟩

/-- The side of `n` at each node: below smaller and equal keys it goes to the right. -/
def goesLeft (t : RbtreeMem) (n : ℕ) (x : ℕ) : Bool := decide (t.key n < t.key x)

def depth : CTree ℕ → ℕ
  | .leaf => 0
  | .node _ l _ r => max (depth l) (depth r) + 1

/-- The loop goes to the place of the new node. -/
theorem rbtreeInsertValue_eq {fuel : ℕ} (h : Holds t fs (.node c l a r)) (hfuel : depth (.node c l a r) ≤ fuel) :
    rbtreeInsertValue fuel t a n = .ok (linked t (descend (goesLeft t n) (.node c l a r) fs) n) := by
  induction fuel generalizing c l a r fs with
  | zero => simp [depth] at hfuel
  | succ fuel ih =>
    have hchild : ∀ {u : CTree ℕ} {f : Frame ℕ} (_ : depth u ≤ fuel) (_ : Holds t (f::fs) u) (_ : u ≠ .leaf),
        (do rbtreeInsertValue fuel t (← deref (ptr t.sentinel u)) n) =
          .ok (linked t (descend (goesLeft t n) u (f::fs)) n) ∧ ptr t.sentinel u ≠ some t.sentinel := by
      intro u f hu hrep hne
      cases u with
      | leaf => cases hne rfl
      | node c' l' b r' => exact ⟨ih hrep hu,by simpa [ptr] using hrep.2.1⟩
    have hl : Holds t (⟨false,c,a,r⟩::fs) l := holds_cons.mpr h
    have hr : Holds t (⟨true,c,a,l⟩::fs) r := holds_cons.mpr h
    have hleft : t.left a = ptr t.sentinel l := hl.1.hole_eq
    have hright : t.right a = ptr t.sentinel r := hr.1.hole_eq
    simp only [depth,Nat.add_le_add_iff_right,max_le_iff] at hfuel
    unfold rbtreeInsertValue descend
    cases hless : goesLeft t n a with
    | true =>
      rw [goesLeft] at hless
      simp only [hless,if_true,hleft]
      by_cases hleaf : l = .leaf
      · subst hleaf
        simp only [ptr,if_true]
        rfl
      · obtain ⟨hrun,hne⟩ := hchild hfuel.1 hl hleaf
        rw [if_neg hne]
        exact hrun
    | false =>
      rw [goesLeft] at hless
      simp only [hless,Bool.false_eq_true,if_false,hright]
      by_cases hleaf : r = .leaf
      · subst hleaf
        simp only [ptr,if_true]
        rfl
      · obtain ⟨hrun,hne⟩ := hchild hfuel.2 hr hleaf
        rw [if_neg hne]
        exact hrun

/-! ### Steps of the loop -/

/-- Going up from a red node in the hole, the loop needs no right rotation. -/
def NoRightRotation : Ctx ℕ → Prop
  | f::g::fs => f.color = .black ∨
    if g.other.color = .red then NoRightRotation fs else f.right = true ∧ g.right = true
  | _ => True

theorem insertFixup_root {fuel : ℕ} (h : t.root = some n) : insertFixup (fuel+1) t n = .ok t := by
  rw [insertFixup,if_pos h.symm]

theorem insertFixup_black {fuel : ℕ} (hp : t.parent n = some a) (hc : t.color a = .black) :
    insertFixup (fuel+1) t n = .ok t := by
  rw [insertFixup]
  split
  · rfl
  · simp [hp,hc,deref,orFault,bind,Except.bind,pure,Except.pure]

/-- A red node below a red one is not the root, and the body of the loop runs. -/
theorem insertFixup_red {fuel : ℕ} {f : Frame ℕ} (h : Holds t (f::fs) T) (hd : Distinct (f::fs) T)
    (hf : f.color = .red) (hT : T ≠ .leaf) (hn : ptr t.sentinel T = some n) :
    insertFixup (fuel+1) t n = (do
      let (t,x) ← insertRebalance t n
      insertFixup fuel t x) := by
  have hpar : t.parent n = some f.label := h.parent_eq hT hn
  rw [insertFixup,if_neg (h.ne_root hd (ptr_mem hT hn))]
  simp [hpar,h.label_color,hf,deref,orFault,bind,Except.bind]

/-- The branch that the body takes. -/
theorem insertRebalance_eq {f g : Frame ℕ} {u : ℕ} (h : Holds t (f::g::fs) T) (hd : Distinct (f::g::fs) T)
    (hs : t.color t.sentinel = .black) (hT : T ≠ .leaf) (hn : ptr t.sentinel T = some n)
    (hu : ptr t.sentinel g.other = some u) :
    insertRebalance t n =
      if g.other.color = .red then .ok (raiseRed t f.label u g.label,g.label)
      else if g.right then insertRotateLeft t f.label n
      else insertRotateRight t f.label n := by
  have hg : Holds t (g::fs) (f.fill T) := holds_cons.mp h
  have hpar : t.parent n = some f.label := h.parent_eq hT hn
  have hgrand : t.parent f.label = some g.label := h.label_parent
  have hside : t.side g.right g.label = some f.label := hg.side_eq.trans ptr_fill
  have hother : t.side (!g.right) g.label = some u := hg.other_eq.trans hu
  have hcolor : t.color u = g.other.color := (holds_flip.mp hg).color_eq hs hu
  have hne : u ≠ f.label := by
    rintro rfl
    by_cases hleaf : g.other = .leaf
    · rw [hleaf] at hu
      exact h.1.1 (Option.some.inj hu).symm
    · have := ptr_mem hleaf hu
      simp only [Distinct,labels] at hd
      grind
  unfold insertRebalance
  cases hr : g.right with
  | false =>
    rw [hr] at hside hother
    have hl : t.left g.label = some f.label := hside
    have hr : t.right g.label = some u := hother
    simp only [hpar,hgrand,hl,hr,hcolor,deref,orFault,bind,Except.bind,pure,Except.pure,if_true,Bool.false_eq_true,if_false]
  | true =>
    rw [hr] at hside hother
    have hl : t.left g.label = some u := hother
    simp only [hpar,hgrand,hl,hcolor,deref,orFault,bind,Except.bind,pure,Except.pure,if_true,Option.some.injEq,hne.symm,
      if_false]

/-- What each step leaves as it was. -/
structure Settled (t t' : RbtreeMem) : Prop where
  key : t'.key = t.key
  sentinel : t'.sentinel = t.sentinel
  sentinel_color : t'.color t.sentinel = t.color t.sentinel

theorem Settled.refl (t : RbtreeMem) : Settled t t := ⟨rfl,rfl,rfl⟩

theorem Settled.trans {t t₁ t₂ : RbtreeMem} (h : Settled t t₁) (h' : Settled t₁ t₂) : Settled t t₂ :=
  ⟨h'.key.trans h.key,h'.sentinel.trans h.sentinel,by rw [← h.sentinel_color,← h.sentinel,h'.sentinel_color]⟩

theorem Kept.settled (h : Kept t t') : Settled t t' := ⟨h.key,h.sentinel,by rw [h.color]⟩

theorem settled_setColor (h : a ≠ t.sentinel) : Settled t (t.setColor a c) :=
  ⟨rfl,rfl,by simp [h.symm]⟩

/-- With a red uncle the red node moves two levels up. -/
def raised (f g : Frame ℕ) (T : CTree ℕ) : CTree ℕ :=
  Frame.fill ⟨g.right,.red,g.label,g.other.paint .black⟩ ((f.paint .black).fill T)

theorem inorder_raised (f g : Frame ℕ) (T : CTree ℕ) : (raised f g T).inorder = (g.fill (f.fill T)).inorder := by
  simp [raised,Frame.inorder_fill,Frame.paint]

theorem raiseRed_spec {f g : Frame ℕ} {u : ℕ} (h : Holds t (f::g::fs) T) (hd : Distinct (f::g::fs) T)
    (hu : ptr t.sentinel g.other = some u) (hleaf : g.other ≠ .leaf) :
    Holds (raiseRed t f.label u g.label) fs (raised f g T) ∧ Settled t (raiseRed t f.label u g.label) := by
  have hf : Holds t (g::fs) (f.fill T) := holds_cons.mp h
  have hdf : Distinct (g::fs) (f.fill T) := distinct_cons.mp hd
  have hparent := hf.setColor (c := .black) hdf ptr_fill
  rw [Frame.paint_fill] at hparent
  have hdp : Distinct (g::fs) ((f.paint .black).fill T) := by
    simpa [Distinct,← Frame.paint_fill] using hdf
  have huncle := (holds_flip.mp hparent).setColor (c := .black) (distinct_flip.mp hdp) hu
  have hdu : Distinct (g.flip ((f.paint .black).fill T)::fs) (g.other.paint .black) := by
    simpa [Distinct] using distinct_flip.mp hdp
  have hgrand := (holds_cons.mp huncle).setColor (c := .red) (distinct_cons.mp hdu) ptr_fill
  refine ⟨?_,?_⟩
  · rw [Frame.paint_fill] at hgrand
    rw [raised,← Frame.fill_flip]
    exact hgrand
  · refine (settled_setColor h.1.1).trans ((settled_setColor ?_).trans (settled_setColor hf.1.1))
    exact (holds_flip.mp hf).2.ne_sentinel u (ptr_mem hleaf hu)

/-- With a black uncle the parent becomes black and the grandparent red, before the grandparent
is rotated. -/
theorem lowerRed_spec {f g : Frame ℕ} (h : Holds t (f::g::fs) T) (hd : Distinct (f::g::fs) T) (hT : T ≠ .leaf)
    (hn : ptr t.sentinel T = some n) : ∃ t', lowerRed t n = .ok (t',g.label) ∧
      Holds t' fs ((g.paint .red).fill ((f.paint .black).fill T)) ∧ Settled t t' := by
  have hf : Holds t (g::fs) (f.fill T) := holds_cons.mp h
  have hdf : Distinct (g::fs) (f.fill T) := distinct_cons.mp hd
  have hpar : t.parent n = some f.label := h.parent_eq hT hn
  have hgrand : t.parent f.label = some g.label := h.label_parent
  have hblack := hf.setColor (c := .black) hdf ptr_fill
  rw [Frame.paint_fill] at hblack
  have hdb : Distinct (g::fs) ((f.paint .black).fill T) := by
    simpa [Distinct,← Frame.paint_fill] using hdf
  have hred := (holds_cons.mp hblack).setColor (c := .red) (distinct_cons.mp hdb) ptr_fill
  rw [Frame.paint_fill] at hred
  refine ⟨_,?_,hred,(settled_setColor h.1.1).trans (settled_setColor hf.1.1)⟩
  simp only [lowerRed,hpar,deref,orFault,bind,Except.bind,RbtreeMem.setColor_parent,hgrand]
  rfl

/-! ### Runs without a right rotation -/

/-- What the loop has made of the tree `T`: another one with the same nodes in the same order,
balanced but for the colour of its root. -/
structure Fixed (t t' : RbtreeMem) (T T' : CTree ℕ) : Prop where
  holds : Holds t' [] T'
  balanced : ∃ k, (T'.paint .black).Balanced k
  inorder : T'.inorder = T.inorder
  settled : Settled t t'

/-- The loop ends at the root or below a black node. -/
theorem fixed_of_holds {k : ℕ} (h : Holds t' fs T) (hbal : T.Balanced k) (hfs : CtxBalanced fs k)
    (hend : fs = [] ∨ topBlack fs) (hset : Settled t t') : Fixed t t' (plug fs T) (plug fs T) :=
  ⟨holds_plug.mp h,balanced_paint_plug hbal hfs fun _ => hend,rfl,hset⟩

/-- The black uncle of a right child of a right child: one left rotation. -/
theorem insertRotateLeft_spec {u o : CTree ℕ} {g : ℕ} (h : Holds t (⟨true,c,a,o⟩::⟨true,d,g,u⟩::fs) T)
    (hd : Distinct (⟨true,c,a,o⟩::⟨true,d,g,u⟩::fs) T) (hT : T ≠ .leaf) (hn : ptr t.sentinel T = some n) :
    ∃ t', insertRotateLeft t a n = .ok (t',n) ∧ Holds t' (⟨true,.black,a,.node .red u g o⟩::fs) T ∧ Settled t t' := by
  obtain ⟨t₁,hlower : lowerRed t n = .ok (t₁,g),hholds,hset⟩ := lowerRed_spec h hd hT hn
  have hd₁ : Distinct fs (.node .red u g (.node .black o a T)) := by
    have := distinct_cons.mp (distinct_cons.mp hd)
    simpa [Distinct,Frame.fill] using this
  obtain ⟨t₂,hrot,hholds₂,hkept⟩ := leftRotate_spec (a := g) hholds hd₁
  have hne : some n ≠ t.left a := by
    rw [show t.left a = ptr t.sentinel o from h.other_eq]
    refine Ne.symm (ptr_ne (h.2.ne_sentinel n (ptr_mem hT hn)) fun hno => ?_)
    have := ptr_mem hT hn
    simp only [Distinct,labels] at hd
    grind
  refine ⟨t₂,?_,holds_cons.mpr hholds₂,hset.trans hkept.settled⟩
  simp only [insertRotateLeft,if_neg hne,hlower,bind,Except.bind,hrot,pure,Except.pure]

theorem insertFixup_good : ∀ (fs : Ctx ℕ) {t : RbtreeMem} {T : CTree ℕ} {n k : ℕ}, Holds t fs T → Distinct fs T →
    t.color t.sentinel = .black → T.color = .red → ptr t.sentinel T = some n → T.Balanced k → CtxBalanced fs k →
    NoRightRotation fs → ∃ t' T', (∀ fuel, fs.length < fuel → insertFixup fuel t n = .ok t') ∧
      Fixed t t' (plug fs T) T'
  | [],t,T,n,k => by
    intro h hd hs hT hn hbal hfs hgood
    refine ⟨t,T,fun fuel hfuel => ?_,fixed_of_holds h hbal hfs (.inl rfl) (.refl t)⟩
    obtain ⟨fuel,rfl⟩ := Nat.exists_eq_succ_of_ne_zero (Nat.ne_of_gt hfuel)
    exact insertFixup_root (h.1.trans hn)
  | [f],t,T,n,k => by
    intro h hd hs hT hn hbal hfs hgood
    have hleaf : T ≠ .leaf := by rintro rfl; cases hT
    have hblack : f.color = .black := by
      cases hf : f.color with
      | red => exact (hfs.2.1 hf).2.elim
      | black => rfl
    refine ⟨t,_,fun fuel hfuel => ?_,fixed_of_holds h hbal hfs (.inr hblack) (.refl t)⟩
    obtain ⟨fuel,rfl⟩ := Nat.exists_eq_succ_of_ne_zero (Nat.ne_of_gt (Nat.zero_lt_of_lt hfuel))
    exact insertFixup_black (h.parent_eq hleaf hn) (h.label_color.trans hblack)
  | f::g::fs,t,T,n,k => by
    intro h hd hs hT hn hbal hfs hgood
    have hleaf : T ≠ .leaf := by rintro rfl; cases hT
    have hpar : t.parent n = some f.label := h.parent_eq hleaf hn
    cases hf : f.color with
    | black =>
      refine ⟨t,_,fun fuel hfuel => ?_,fixed_of_holds h hbal hfs (.inr hf) (.refl t)⟩
      obtain ⟨fuel,rfl⟩ := Nat.exists_eq_succ_of_ne_zero (Nat.ne_of_gt (Nat.zero_lt_of_lt hfuel))
      exact insertFixup_black hpar (h.label_color.trans hf)
    | red =>
      obtain ⟨hfo,hftop,hgo,hgtop,hrest⟩ := hfs
      obtain ⟨hfoc,hg : g.color = .black⟩ := hftop hf
      simp only [Frame.height,hf,hg] at hgo hrest
      simp only [NoRightRotation,hf,reduceCtorEq,false_or] at hgood
      obtain ⟨u,hu⟩ : ∃ u, ptr t.sentinel g.other = some u := by cases g.other <;> exact ⟨_,rfl⟩
      have hbody := insertRebalance_eq h hd hs hleaf hn hu
      cases hgc : g.other.color with
      | red =>
        rw [if_pos hgc] at hbody hgood
        have hul : g.other ≠ .leaf := by intro he; rw [he] at hgc; cases hgc
        obtain ⟨hraise,hset⟩ := raiseRed_spec h hd hu hul
        have hdr : Distinct fs (raised f g T) := by
          simpa [Distinct,inorder_raised] using distinct_cons.mp (distinct_cons.mp hd)
        have hbalr : (raised f g T).Balanced (k+1) := by
          refine (Frame.balanced_fill_red rfl).mpr ⟨⟨by simp,?_⟩,?_,hgo.paint_black hgc⟩
          · exact (Frame.balanced_fill_black rfl).mpr ⟨hbal,hfo⟩
          · cases hother : g.other <;> rfl
        obtain ⟨t',T',hrun,hfixed⟩ := insertFixup_good fs (n := g.label) hraise hdr (by rw [hset.sentinel,hset.sentinel_color,hs])
          (by simp [raised]) (by simp [raised]) hbalr hrest hgood
        refine ⟨t',T',fun fuel hfuel => ?_,hfixed.holds,hfixed.balanced,?_,hset.trans hfixed.settled⟩
        · obtain ⟨fuel,rfl⟩ := Nat.exists_eq_succ_of_ne_zero (Nat.ne_of_gt (Nat.zero_lt_of_lt hfuel))
          rw [insertFixup_red h hd hf hleaf hn,hbody]
          exact hrun fuel (by simp at hfuel; omega)
        · rw [hfixed.inorder,plug_cons,plug_cons,inorder_plug,inorder_plug,inorder_raised]
      | black =>
        rw [if_neg (by rw [hgc]; decide)] at hbody hgood
        obtain ⟨right,c,a,o⟩ := f
        obtain ⟨right',d,b,u⟩ := g
        obtain ⟨rfl,rfl⟩ : right = true ∧ right' = true := hgood
        obtain ⟨t',hrot,hholds,hset⟩ := insertRotateLeft_spec h hd hleaf hn
        have hctx : CtxBalanced (⟨true,.black,a,.node .red u b o⟩::fs) k :=
          ⟨balanced_red.mpr ⟨hgc,hfoc,hgo,hfo⟩,by simp,hrest⟩
        have hfixed := fixed_of_holds hholds hbal hctx (.inr rfl) hset
        refine ⟨t',_,fun fuel hfuel => ?_,hfixed.holds,hfixed.balanced,?_,hset⟩
        · obtain ⟨fuel,rfl⟩ := Nat.exists_eq_succ_of_ne_zero (Nat.ne_of_gt (Nat.zero_lt_of_lt hfuel))
          rw [insertFixup_red h hd hf hleaf hn,hbody]
          simp only [if_true,hrot,bind,Except.bind]
          obtain ⟨fuel,rfl⟩ := Nat.exists_eq_succ_of_ne_zero (show fuel ≠ 0 by simp at hfuel; omega)
          refine insertFixup_black (hholds.parent_eq hleaf ?_) hholds.label_color
          rw [hset.sentinel]
          exact hn
        · simp [inorder_plug,Frame.fill]

/-! ### Runs with a right rotation -/

/-- The outer right rotation leaves the raised node without its parent link, and the loop below it
at its end. -/
theorem outerRight_stale {u o : CTree ℕ} {g : ℕ} (h : Holds t fs (.node .red (.node .black T a o) g u))
    (hd : Distinct fs (.node .red (.node .black T a o) g u)) (hT : T ≠ .leaf) (hx : ptr t.sentinel T = some x)
    (hrun : rightRotate t g = .ok t') : Stale t' fs a ∧ t'.parent x = some a ∧ t'.color a = .black := by
  obtain ⟨t₁,hrun',hholds,-,hkept⟩ := rightRotate_spec h hd
  obtain rfl : t' = t₁ := Except.ok.inj (hrun.symm.trans hrun')
  refine ⟨rightRotate_stale h hd hrun,?_,hholds.2.2.1⟩
  have hbelow : Holds (t'.setParent a (up fs)) (⟨false,.black,a,.node .red o g u⟩::fs) T := holds_cons.mpr hholds
  have hxa : x ≠ a := by
    have := ptr_mem hT hx
    simp only [Distinct,inorder_node] at hd
    grind
  have hpar := hbelow.parent_eq hT (a := x) (by simpa [hkept.sentinel] using hx)
  simpa [hxa,up] using hpar

theorem insertRotateRight_stale {u o : CTree ℕ} {g : ℕ}
    (h : Holds t (⟨s,c,a,o⟩::⟨false,d,g,u⟩::fs) (.node .red l n r))
    (hd : Distinct (⟨s,c,a,o⟩::⟨false,d,g,u⟩::fs) (.node .red l n r)) (hrun : insertRotateRight t a n = .ok (t',x)) :
    ∃ y b, Stale t' fs y ∧ t'.parent x = some b ∧ t'.color b = .black := by
  have hside := h.side_eq
  unfold insertRotateRight at hrun
  cases s with
  | true =>
    rw [if_pos (show some n = t.right a from hside.symm)] at hrun
    obtain ⟨t₁,hinner,hholds,-⟩ := leftRotate_spec (holds_cons.mp h) (distinct_cons.mp hd)
    have hholds : Holds t₁ (⟨false,.red,n,r⟩::⟨false,d,g,u⟩::fs) (.node c o a l) := holds_cons.mpr hholds
    have hd₁ : Distinct (⟨false,.red,n,r⟩::⟨false,d,g,u⟩::fs) (.node c o a l) := by
      have := distinct_cons.mp hd
      exact distinct_cons.mpr (by simpa [Distinct,Frame.fill] using this)
    obtain ⟨t₂,hlower,hholds₂,-⟩ := lowerRed_spec hholds hd₁ node_ne_leaf rfl
    have hd₂ : Distinct fs (.node .red (.node .black (.node c o a l) n r) g u) := by
      simpa [Distinct,Frame.fill] using distinct_cons.mp (distinct_cons.mp hd₁)
    obtain ⟨v,hv,hrun⟩ := bind_ok hrun
    obtain rfl : t₁ = v := Except.ok.inj (hinner.symm.trans hv)
    obtain ⟨w,hw,hrun⟩ := bind_ok hrun
    obtain rfl : (t₂,g) = w := Except.ok.inj (hlower.symm.trans hw)
    obtain ⟨t₃,houter,hrun⟩ := bind_ok hrun
    obtain ⟨rfl,rfl⟩ := Prod.mk.inj (Except.ok.inj hrun)
    exact ⟨n,n,outerRight_stale hholds₂ hd₂ node_ne_leaf rfl houter⟩
  | false =>
    have hne : some n ≠ t.right a := by
      rw [show t.right a = ptr t.sentinel o from h.other_eq]
      refine Ne.symm (ptr_ne h.2.1 fun hno => ?_)
      simp only [Distinct,labels,inorder_node] at hd
      grind
    rw [if_neg hne] at hrun
    obtain ⟨t₂,hlower,hholds₂,-⟩ := lowerRed_spec h hd node_ne_leaf rfl
    have hd₂ : Distinct fs (.node .red (.node .black (.node .red l n r) a o) g u) := by
      simpa [Distinct,Frame.fill] using distinct_cons.mp (distinct_cons.mp hd)
    obtain ⟨w,hw,hrun⟩ := bind_ok hrun
    obtain rfl : (t₂,g) = w := Except.ok.inj (hlower.symm.trans hw)
    obtain ⟨t₃,houter,hrun⟩ := bind_ok hrun
    obtain ⟨rfl,rfl⟩ := Prod.mk.inj (Except.ok.inj hrun)
    exact ⟨a,a,outerRight_stale hholds₂ hd₂ node_ne_leaf rfl houter⟩

/-- After the inner right rotation the loop does not find the grandparent any more. -/
theorem insertRotateLeft_stale {u o : CTree ℕ} {g : ℕ} {f : Frame ℕ} (hf : f = ⟨true,d,g,u⟩)
    (h : Holds t (⟨false,c,a,o⟩::f::fs) (.node .red l n r)) (hd : Distinct (⟨false,c,a,o⟩::f::fs) (.node .red l n r))
    (hs : t.color t.sentinel = .black) (ho : o.color = .black) (hrun : insertRotateLeft t a n = .ok (t',x)) :
    ∃ b, Stale t' (f::fs) n ∧ t'.parent x = some b ∧ t'.color b = .black := by
  unfold insertRotateLeft at hrun
  rw [if_pos (show some n = t.left a from h.side_eq.symm)] at hrun
  obtain ⟨t₁,hinner,hrun⟩ := bind_ok hrun
  obtain ⟨⟨t₂,g'⟩,hlower,hrun⟩ := bind_ok hrun
  obtain ⟨t₃,houter,hrun⟩ := bind_ok hrun
  obtain ⟨rfl,rfl⟩ := Prod.mk.inj (Except.ok.inj hrun)
  have htree := holds_cons.mp h
  have hdtree := distinct_cons.mp hd
  have hstale := rightRotate_stale htree hdtree hinner
  obtain ⟨v,hv,hholds,hparent,hkept⟩ := rightRotate_spec htree hdtree
  obtain rfl : t₁ = v := Except.ok.inj (hinner.symm.trans hv)
  obtain ⟨e,he⟩ : ∃ e, ptr t.sentinel o = some e := by cases o <;> exact ⟨_,rfl⟩
  simp only [hf,Distinct,labels,inorder_node] at hd
  have han : a ≠ n := by grind
  have heo : e = t.sentinel ∨ e ∈ o.inorder := by
    by_cases hleaf : o = .leaf
    · rw [hleaf] at he
      exact .inl (Option.some.inj he).symm
    · exact .inr (ptr_mem hleaf he)
  have hne : n ≠ e ∧ a ≠ e ∧ g ≠ e := by
    rcases heo with rfl | heo
    · exact ⟨h.2.1,h.1.1,by simpa [hf] using htree.1.1⟩
    · grind
  have hag : g ≠ a ∧ g ≠ n := by grind
  have hparent_a : t₁.parent a = some n := by simpa [han] using hholds.2.2.2.2.2.2.2.2.2.1
  have hright_a : t₁.right a = some e := by
    have := hholds.2.2.2.2.2.2.2.2.2.2.2.1
    rw [RbtreeMem.setParent_right,RbtreeMem.setParent_sentinel,hkept.sentinel] at this
    exact this.trans he
  obtain ⟨rfl,rfl⟩ : t₂ = (t₁.setColor n .black).setColor a .red ∧ g' = a := by
    simp only [lowerRed,hparent_a,deref,orFault,bind,Except.bind,RbtreeMem.setColor_parent,hparent,pure,Except.pure,
      Except.ok.injEq,Prod.mk.injEq] at hlower
    exact ⟨hlower.1.symm,hlower.2.symm⟩
  have hupf : up (f::fs) = some g := by rw [hf]; rfl
  obtain ⟨hpar,hcolor⟩ := leftRotate_ok houter hright_a
  refine ⟨e,?_,hpar,?_⟩
  · refine (hstale.setColor.setColor).leftRotate houter hright_a han.symm hne.1 ?_ ?_ ?_
    · simpa [hupf] using hag.1
    · simpa [hupf] using hne.2.2
    · simpa [hupf,hparent_a] using hag.2.symm
  · have hce : t.color e = o.color := (holds_flip.mp h).color_eq hs he
    simp [hcolor,hne.1.symm,hne.2.1.symm,hkept.color,hce,ho]

theorem eq_node_of_red (hT : T.color = .red) (hn : ptr y T = some n) : ∃ l r, T = .node .red l n r := by
  cases T with
  | leaf => cases hT
  | node c l x r =>
    obtain rfl : c = .red := hT
    obtain rfl : x = n := Option.some.inj hn
    exact ⟨l,r,rfl⟩

/-- A run with a right rotation ends with a node that has not got its parent link. -/
theorem insertFixup_stale : ∀ (fs : Ctx ℕ) {t t' : RbtreeMem} {T : CTree ℕ} {n k fuel : ℕ}, Holds t fs T →
    Distinct fs T → t.color t.sentinel = .black → T.color = .red → ptr t.sentinel T = some n → CtxBalanced fs k →
    ¬ NoRightRotation fs → insertFixup fuel t n = .ok t' → ∃ gs y, Stale t' gs y ∧ labels gs ⊆ labels fs
  | [],_,_,_,_,_,_ => fun _ _ _ _ _ _ hbad _ => (hbad trivial).elim
  | [_],_,_,_,_,_,_ => fun _ _ _ _ _ _ hbad _ => (hbad trivial).elim
  | f::g::fs,t,t',T,n,k,fuel => by
    intro h hd hs hT hn hfs hbad hrun
    have hleaf : T ≠ .leaf := by rintro rfl; cases hT
    simp only [NoRightRotation,not_or] at hbad
    obtain ⟨hfblack,hbad⟩ := hbad
    have hf : f.color = .red := by
      cases hf : f.color with
      | red => rfl
      | black => exact (hfblack hf).elim
    obtain ⟨-,hftop,-,-,hrest⟩ := hfs
    obtain ⟨u,hu⟩ : ∃ u, ptr t.sentinel g.other = some u := by cases g.other <;> exact ⟨_,rfl⟩
    have hbody := insertRebalance_eq h hd hs hleaf hn hu
    cases fuel with
    | zero => cases hrun
    | succ fuel =>
      rw [insertFixup_red h hd hf hleaf hn,hbody] at hrun
      by_cases hgc : g.other.color = .red
      · rw [if_pos hgc] at hrun hbad
        have hul : g.other ≠ .leaf := by intro he; rw [he] at hgc; cases hgc
        obtain ⟨hraise,hset⟩ := raiseRed_spec h hd hu hul
        have hdr : Distinct fs (raised f g T) := by
          simpa [Distinct,inorder_raised] using distinct_cons.mp (distinct_cons.mp hd)
        obtain ⟨gs,y,hstale,hsub⟩ := insertFixup_stale fs (n := g.label) hraise hdr
          (by rw [hset.sentinel,hset.sentinel_color,hs]) (by simp [raised]) (by simp [raised]) hrest hbad hrun
        exact ⟨gs,y,hstale,fun z hz => by simp [labels,hsub hz]⟩
      · rw [if_neg hgc] at hrun hbad
        obtain ⟨⟨t₁,x⟩,hrot,hend : insertFixup fuel t₁ x = .ok t'⟩ := bind_ok hrun
        obtain ⟨right,c,a,o⟩ := f
        obtain ⟨right',d,b,v⟩ := g
        obtain ⟨l,r,rfl⟩ := eq_node_of_red hT hn
        cases right' with
        | false =>
          obtain ⟨y,e,hstale,hpar,hblack⟩ := insertRotateRight_stale h hd hrot
          cases fuel with
          | zero => cases hend
          | succ fuel =>
            rw [insertFixup_black hpar hblack] at hend
            obtain rfl := Except.ok.inj hend
            exact ⟨fs,y,hstale,fun z hz => by simp [labels,hz]⟩
        | true =>
          obtain rfl : right = false := by simpa using hbad
          obtain ⟨e,hstale,hpar,hblack⟩ := insertRotateLeft_stale rfl h hd hs (hftop hf).1 hrot
          cases fuel with
          | zero => cases hend
          | succ fuel =>
            rw [insertFixup_black hpar hblack] at hend
            obtain rfl := Except.ok.inj hend
            exact ⟨⟨true,d,b,v⟩::fs,_,hstale,fun z hz => by rw [labels]; simp [hz]⟩

/-! ### The whole insertion -/

/-- `ngx_rbtree_insert` returns, and then the memory holds a red-black tree with the old nodes
and the new one. -/
def InsertsInto (t : RbtreeMem) (T : CTree ℕ) (n : ℕ) : Prop :=
  ∃ t' T', Returns (fun fuel => rbtreeInsert fuel t n) t' ∧ IsRbtree t' T' ∧ T'.inorder.Perm (n::T.inorder) ∧
    t'.key = t.key ∧ t'.sentinel = t.sentinel

/-- The place of the new node in the order. -/
theorem descend_sorted (h : IsRbtree t T) :
    ((plug (descend (goesLeft t n) T []) (.node .red .leaf n .leaf)).inorder.map t.key).Pairwise (· ≤ ·) ∧
    (plug (descend (goesLeft t n) T []) (.node .red .leaf n .leaf)).inorder.Perm (n::T.inorder) := by
  have hsorted := List.pairwise_map.mp h.sorted
  have hmono : T.inorder.Pairwise fun x y => goesLeft t n x = true → goesLeft t n y = true := by
    refine hsorted.imp fun hxy hx => decide_eq_true ?_
    have := of_decide_eq_true hx
    bv_omega
  obtain ⟨xs,ys,hxy,hbefore,hafter,hxs,hys⟩ := descend_split (goesLeft t n) T [] hmono
  rw [inorder_plug,hbefore,hafter,hxy]
  simp only [before,after,List.nil_append,List.append_nil,inorder_node,inorder_leaf]
  refine ⟨?_,by simp⟩
  rw [hxy,List.pairwise_append] at hsorted
  obtain ⟨hpx,hpy,hcross⟩ := hsorted
  have hxn : ∀ x ∈ xs, t.key x ≤ t.key n := fun x hx => BitVec.not_lt.mp (of_decide_eq_false (hxs x hx))
  have hny : ∀ y ∈ ys, t.key n ≤ t.key y := fun y hy => BitVec.le_of_lt (of_decide_eq_true (hys y hy))
  rw [List.append_assoc,List.pairwise_map,List.singleton_append,List.pairwise_append,List.pairwise_cons]
  refine ⟨hpx,⟨hny,hpy⟩,fun x hx y hy => ?_⟩
  rcases List.mem_cons.mp hy with rfl | hy
  · exact hxn x hx
  · exact hcross x hx y hy

theorem goesLeft_plug (h : IsRbtree t T) :
    Holds t (descend (goesLeft t n) T []) .leaf ∧ CtxBalanced (descend (goesLeft t n) T []) 0 := by
  have hplug : plug (descend (goesLeft t n) T []) .leaf = T := plug_descend _ T []
  refine ⟨holds_plug.mpr (hplug.symm ▸ h.holds),?_⟩
  obtain ⟨k,hk,hfs,-⟩ := (balanced_plug_iff (descend (goesLeft t n) T []) .leaf).mp
    (by rw [hplug]; exact ⟨h.balanced,h.root_black⟩)
  obtain rfl := balanced_leaf.mp hk
  exact hfs

/-- The new node is in its place, and the loop that re-balances the tree starts. -/
theorem linked_start (h : IsRbtree t T) (hn : n ∉ T.inorder) (hs : n ≠ t.sentinel) :
    Holds (linked t (descend (goesLeft t n) T []) n) (descend (goesLeft t n) T []) (.node .red .leaf n .leaf) ∧
    Distinct (descend (goesLeft t n) T []) (.node .red .leaf n .leaf) ∧
    Settled t (linked t (descend (goesLeft t n) T []) n) := by
  have hd : Distinct (descend (goesLeft t n) T []) (.node .red .leaf n .leaf) :=
    distinct_iff.mpr ((descend_sorted h).2.nodup_iff.mpr (List.nodup_cons.mpr ⟨hn,h.nodup⟩))
  exact ⟨linked_spec (goesLeft_plug h).1 hd hs,hd,by simp [linked],by simp [linked],by simp [linked,hs.symm]⟩

theorem rbtreeInsert_eq {fuel : ℕ} (h : IsRbtree t T) (hT : T ≠ .leaf) (hfuel : depth T ≤ fuel) :
    rbtreeInsert fuel t n = (do
      let t ← insertFixup fuel (linked t (descend (goesLeft t n) T []) n) n
      return t.setColor (← deref t.root) .black) := by
  cases T with
  | leaf => cases hT rfl
  | node c l a r =>
    have hroot : t.root = some a := h.holds.1
    have ha : a ≠ t.sentinel := h.holds.2.1
    rw [rbtreeInsert,hroot,if_neg (by simpa using ha)]
    simp only [deref,orFault,bind,Except.bind,rbtreeInsertValue_eq h.holds hfuel]

theorem insertsInto_leaf (h : IsRbtree t .leaf) (hs : n ≠ t.sentinel) : InsertsInto t .leaf n := by
  have hroot : t.root = some t.sentinel := h.holds.1
  refine ⟨_,.node .black .leaf n .leaf,⟨0,fun fuel _ => if_pos hroot⟩,?_,.refl _,rfl,rfl⟩
  refine ⟨⟨rfl,?_⟩,by simp,by simp,⟨1,by simp [CTree.Balanced]⟩,rfl,by simpa [hs.symm] using h.sentinel_black⟩
  simp [Rep,hs,up,ptr]

/-- Without a right rotation the insertion is right. -/
theorem insertsInto_of_noRightRotation (h : IsRbtree t T) (hn : n ∉ T.inorder) (hs : n ≠ t.sentinel)
    (hgood : NoRightRotation (descend (goesLeft t n) T [])) : InsertsInto t T n := by
  by_cases hT : T = .leaf
  · subst hT
    exact insertsInto_leaf h hs
  · obtain ⟨hholds,hd,hset⟩ := linked_start h hn hs
    obtain ⟨hsorted,hperm⟩ := descend_sorted (n := n) h
    obtain ⟨t₁,T',hrun,hfixed⟩ := insertFixup_good _ hholds hd
      (by rw [hset.sentinel,hset.sentinel_color,h.sentinel_black]) rfl rfl (k := 0) (by simp [CTree.color])
      (goesLeft_plug h).2 hgood
    rw [← hfixed.inorder] at hsorted hperm
    have hset := hset.trans hfixed.settled
    have hnodup : T'.inorder.Nodup := hperm.nodup_iff.mpr (List.nodup_cons.mpr ⟨hn,h.nodup⟩)
    obtain ⟨a,ha⟩ : ∃ a, ptr t₁.sentinel T' = some a := by cases T' <;> exact ⟨_,rfl⟩
    have hleaf : T' ≠ .leaf := by
      rintro rfl
      simpa using hperm.length_eq
    have hne : a ≠ t₁.sentinel := hfixed.holds.2.ne_sentinel a (ptr_mem hleaf ha)
    refine ⟨t₁.setColor a .black,T'.paint .black,⟨depth T + (descend (goesLeft t n) T []).length + 1,fun fuel hfuel => ?_⟩,
      ⟨hfixed.holds.setColor (distinct_nil.mpr hnodup) ha,?_,?_,hfixed.balanced,?_,?_⟩,?_,hset.key,hset.sentinel⟩
    · have hroot : t₁.root = some a := hfixed.holds.1.trans ha
      change rbtreeInsert fuel t n = _
      rw [rbtreeInsert_eq h hT (by omega),hrun fuel (by omega)]
      simp only [bind,Except.bind,hroot,deref,orFault]
      rfl
    · simpa using hnodup
    · simpa [hset.key] using hsorted
    · cases T' <;> rfl
    · rw [RbtreeMem.setColor_sentinel,RbtreeMem.setColor_color,Function.update_of_ne hne.symm,hset.sentinel,
        hset.sentinel_color,h.sentinel_black]
    · simpa using hperm

/-- With a right rotation it is wrong: the node that the rotation raises has not got its parent. -/
theorem not_insertsInto (h : IsRbtree t T) (hn : n ∉ T.inorder) (hs : n ≠ t.sentinel)
    (hbad : ¬ NoRightRotation (descend (goesLeft t n) T [])) : ¬ InsertsInto t T n := by
  rintro ⟨t',T',⟨k,hrun⟩,htree,hperm,-,-⟩
  have hT : T ≠ .leaf := by
    rintro rfl
    exact hbad trivial
  obtain ⟨hholds,hd,hset⟩ := linked_start h hn hs
  have hrun : rbtreeInsert (max k (depth T)) t n = .ok t' := hrun _ (le_max_left _ _)
  rw [rbtreeInsert_eq h hT (le_max_right _ _)] at hrun
  obtain ⟨t₁,hfix,hrun⟩ := bind_ok hrun
  obtain ⟨a,-,hrun⟩ := bind_ok hrun
  obtain rfl := Except.ok.inj hrun
  obtain ⟨gs,y,hstale,hsub⟩ := insertFixup_stale _ hholds hd
    (by rw [hset.sentinel,hset.sentinel_color,h.sentinel_black]) rfl rfl (goesLeft_plug h).2 hbad hfix
  refine hstale.setColor.not_holds (fun x hx => ?_) htree.holds
  have hmem := (inorder_plug_perm (descend (goesLeft t n) T []) (.node .red .leaf n .leaf)).mem_iff (a := x)
  exact hperm.mem_iff.mpr ((descend_sorted h).2.mem_iff.mp (hmem.mpr (List.mem_append_right _ (hsub hx))))

/-- An insertion into a red-black tree is right exactly when the re-balancing needs no right rotation. -/
theorem insertsInto_iff (h : IsRbtree t T) (hn : n ∉ T.inorder) (hs : n ≠ t.sentinel) :
    InsertsInto t T n ↔ NoRightRotation (descend (goesLeft t n) T []) :=
  ⟨fun hins => by_contra fun hbad => not_insertsInto h hn hs hbad hins,insertsInto_of_noRightRotation h hn hs⟩

/-- Two nodes, the key 3 above the key 2, and a new node with the key 1. -/
def leaning : RbtreeMem where
  key := fun a => BitVec.ofNat 64 a
  left := fun a => if a = 3 then some 2 else some 0
  right := fun _ => some 0
  parent := fun a => if a = 2 then some 3 else none
  color := fun a => if a = 2 then .red else .black
  root := some 3
  sentinel := 0

theorem leaning_isRbtree : IsRbtree leaning (.node .black (.node .red .leaf 2 .leaf) 3 .leaf) := by
  refine ⟨?_,by decide,by decide,⟨1,by simp [CTree.color]⟩,rfl,rfl⟩
  simp [Holds,RepCtx,Rep,ptr,up,leaning]

theorem insertsInto_iff_leaning : ¬ InsertsInto leaning (.node .black (.node .red .leaf 2 .leaf) 3 .leaf) 1 :=
  fun h => by
    have := (insertsInto_iff leaning_isRbtree (by decide) (by decide)).mp h
    simp [descend,goesLeft,leaning,NoRightRotation,CTree.color] at this

/-- The third of three nodes with falling keys breaks the tree. -/
theorem leaning_breaks : ¬ ∀ (t : RbtreeMem) (T : CTree ℕ) (n : ℕ), IsRbtree t T → n ∉ T.inorder → n ≠ t.sentinel →
    InsertsInto t T n := by
  intro hall
  refine not_insertsInto leaning_isRbtree (n := 1) (by decide) (by decide) ?_ (hall _ _ _ leaning_isRbtree (by decide)
    (by decide))
  simp [descend,goesLeft,leaning,NoRightRotation,CTree.color]

end InsideNginx.Rbtree
