import Mathlib

/-! Red-black trees as values: contexts with a hole, the in-order sequence, the black height,
and the place of a new label in a search tree. -/

namespace ColorTree

inductive Color
  | red
  | black
  deriving DecidableEq, Repr

inductive CTree (α : Type*)
  | leaf
  | node (c : Color) (l : CTree α) (a : α) (r : CTree α)
  deriving DecidableEq, Repr

/-- One node above a hole: on which side the hole is, and the subtree on the other side. -/
structure Frame (α : Type*) where
  right : Bool
  color : Color
  label : α
  other : CTree α
  deriving DecidableEq, Repr

/-- A tree with a hole: the nodes above the hole, from the innermost one outwards. -/
abbrev Ctx (α : Type*) := List (Frame α)

variable {α : Type*}

namespace CTree

/-- The colour of the root; a leaf is black. -/
def color : CTree α → Color
  | leaf => .black
  | node c _ _ _ => c

theorem node_ne_leaf {c : Color} {l r : CTree α} {a : α} : node c l a r ≠ leaf := by simp

/-- Colour the root. -/
def paint (c : Color) : CTree α → CTree α
  | leaf => leaf
  | node _ l a r => node c l a r

def inorder : CTree α → List α
  | leaf => []
  | node _ l a r => l.inorder ++ a::r.inorder

@[simp] theorem inorder_leaf : (leaf : CTree α).inorder = [] := rfl

@[simp] theorem inorder_node (c : Color) (l r : CTree α) (a : α) :
    (node c l a r).inorder = l.inorder ++ a::r.inorder := rfl

@[simp] theorem inorder_paint (c : Color) (t : CTree α) : (t.paint c).inorder = t.inorder := by
  cases t <;> rfl

theorem paint_of_color {c : Color} {t : CTree α} (h : t.color = c) : t.paint c = t := by
  cases t with
  | leaf => rfl
  | node c l a r => rw [← h]; rfl

/-- The tree has the black height `n`, and no red node has a red child. -/
def Balanced : CTree α → ℕ → Prop
  | leaf,n => n = 0
  | node .red l _ r,n => l.color = .black ∧ r.color = .black ∧ l.Balanced n ∧ r.Balanced n
  | node .black l _ r,n => ∃ m, n = m + 1 ∧ l.Balanced m ∧ r.Balanced m

@[simp] theorem balanced_leaf {n : ℕ} : (leaf : CTree α).Balanced n ↔ n = 0 := by rw [Balanced]

@[simp] theorem balanced_red {l r : CTree α} {a : α} {n : ℕ} : (node .red l a r).Balanced n ↔
    l.color = .black ∧ r.color = .black ∧ l.Balanced n ∧ r.Balanced n := by rw [Balanced]

@[simp] theorem balanced_black {l r : CTree α} {a : α} {n : ℕ} : (node .black l a r).Balanced (n+1) ↔
    l.Balanced n ∧ r.Balanced n := by simp [Balanced]

/-- A red root painted black adds one to the black height. -/
theorem Balanced.paint_black {t : CTree α} {n : ℕ} (h : t.Balanced n) (hc : t.color = .red) :
    (t.paint .black).Balanced (n+1) := by
  cases t with
  | leaf => cases hc
  | node c l a r =>
    obtain rfl : c = .red := hc
    exact balanced_black.mpr (balanced_red.mp h).2.2

end CTree

open CTree

/-- Put a tree into the hole below a node. -/
def Frame.fill (f : Frame α) (t : CTree α) : CTree α :=
  if f.right then node f.color f.other f.label t else node f.color t f.label f.other

@[simp] theorem Frame.color_fill (f : Frame α) (t : CTree α) : (f.fill t).color = f.color := by
  unfold Frame.fill; split <;> rfl

theorem Frame.inorder_fill (f : Frame α) (t : CTree α) : (f.fill t).inorder =
    if f.right then f.other.inorder ++ f.label::t.inorder else t.inorder ++ f.label::f.other.inorder := by
  unfold Frame.fill; split <;> rfl

/-- Colour the node above the hole. -/
def Frame.paint (c : Color) (f : Frame α) : Frame α := { f with color := c }

@[simp] theorem Frame.color_paint (c : Color) (f : Frame α) : (f.paint c).color = c := rfl

theorem Frame.paint_fill (c : Color) (f : Frame α) (t : CTree α) :
    (f.fill t).paint c = (f.paint c).fill t := by
  unfold Frame.fill Frame.paint; split <;> rfl

/-- The same node with the hole on its other side. -/
def Frame.flip (f : Frame α) (t : CTree α) : Frame α := ⟨!f.right,f.color,f.label,t⟩

theorem Frame.fill_flip (f : Frame α) (t : CTree α) : (f.flip t).fill f.other = f.fill t := by
  obtain ⟨right,c,a,other⟩ := f
  cases right <;> rfl

theorem Frame.balanced_fill_black {f : Frame α} {t : CTree α} {n : ℕ} (hf : f.color = .black) :
    (f.fill t).Balanced (n+1) ↔ t.Balanced n ∧ f.other.Balanced n := by
  obtain ⟨right,c,a,other⟩ := f
  obtain rfl : c = .black := hf
  cases right
  · exact balanced_black
  · exact balanced_black.trans and_comm

theorem Frame.balanced_fill_red {f : Frame α} {t : CTree α} {n : ℕ} (hf : f.color = .red) :
    (f.fill t).Balanced n ↔ (t.color = .black ∧ t.Balanced n) ∧ f.other.color = .black ∧ f.other.Balanced n := by
  obtain ⟨right,c,a,other⟩ := f
  obtain rfl : c = .red := hf
  cases right
  · exact balanced_red.trans ⟨fun ⟨hl,hr,hbl,hbr⟩ => ⟨⟨hl,hbl⟩,hr,hbr⟩,fun ⟨⟨hl,hbl⟩,hr,hbr⟩ => ⟨hl,hr,hbl,hbr⟩⟩
  · exact balanced_red.trans ⟨fun ⟨hl,hr,hbl,hbr⟩ => ⟨⟨hr,hbr⟩,hl,hbl⟩,fun ⟨⟨hr,hbr⟩,hl,hbl⟩ => ⟨hl,hr,hbl,hbr⟩⟩

def plug : Ctx α → CTree α → CTree α
  | [],t => t
  | f::fs,t => plug fs (f.fill t)

@[simp] theorem plug_nil (t : CTree α) : plug [] t = t := rfl

@[simp] theorem plug_cons (f : Frame α) (fs : Ctx α) (t : CTree α) :
    plug (f::fs) t = plug fs (f.fill t) := rfl

theorem plug_append (fs gs : Ctx α) (t : CTree α) : plug (fs ++ gs) t = plug gs (plug fs t) := by
  induction fs generalizing t with
  | nil => rfl
  | cons f fs ih => exact ih (f.fill t)

/-- The labels in order before the hole. -/
def before : Ctx α → List α
  | [] => []
  | f::fs => before fs ++ if f.right then f.other.inorder ++ [f.label] else []

/-- The labels in order after the hole. -/
def after : Ctx α → List α
  | [] => []
  | f::fs => (if f.right then [] else f.label::f.other.inorder) ++ after fs

theorem inorder_plug (fs : Ctx α) (t : CTree α) :
    (plug fs t).inorder = before fs ++ t.inorder ++ after fs := by
  induction fs generalizing t with
  | nil => simp [before,after]
  | cons f fs ih =>
    rw [plug_cons,ih]
    cases hr : f.right <;> simp [before,after,Frame.fill,hr]

/-- The labels above the hole. -/
def labels : Ctx α → List α
  | [] => []
  | f::fs => f.label::(f.other.inorder ++ labels fs)

theorem inorder_fill_perm (f : Frame α) (t : CTree α) :
    (f.fill t).inorder.Perm (t.inorder ++ f.label::f.other.inorder) := by
  unfold Frame.fill
  split
  · simp only [inorder_node]
    exact List.perm_append_comm.trans (by simpa using List.perm_middle.symm)
  · exact .refl _

theorem inorder_plug_perm (fs : Ctx α) (t : CTree α) :
    (plug fs t).inorder.Perm (t.inorder ++ labels fs) := by
  induction fs generalizing t with
  | nil => simp [labels]
  | cons f fs ih =>
    refine (ih (f.fill t)).trans ?_
    simpa [labels] using (inorder_fill_perm f t).append_right (labels fs)

/-- Give each node the colour of its label. -/
def CTree.recolor (f : α → Color) : CTree α → CTree α
  | leaf => leaf
  | node _ l a r => node (f a) (l.recolor f) a (r.recolor f)

@[simp] theorem CTree.inorder_recolor (f : α → Color) (t : CTree α) : (t.recolor f).inorder = t.inorder := by
  induction t with
  | leaf => rfl
  | node c l a r ihl ihr => simp [recolor,ihl,ihr]

def Frame.recolor (f : α → Color) (g : Frame α) : Frame α := ⟨g.right,f g.label,g.label,g.other.recolor f⟩

@[simp] theorem labels_recolor (f : α → Color) (fs : Ctx α) : labels (fs.map (Frame.recolor f)) = labels fs := by
  induction fs with
  | nil => rfl
  | cons g fs ih => simp [labels,Frame.recolor,ih]

/-- The hole is below a black node. -/
def topBlack : Ctx α → Prop
  | [] => False
  | f::_ => f.color = .black

/-- The black height of a node over a hole of the black height `n`. -/
def Frame.height (f : Frame α) (n : ℕ) : ℕ :=
  match f.color with
  | .red => n
  | .black => n + 1

/-- A hole for a tree of the black height `n`. -/
def CtxBalanced : Ctx α → ℕ → Prop
  | [],_ => True
  | f::fs,n => f.other.Balanced n ∧ (f.color = .red → f.other.color = .black ∧ topBlack fs) ∧
    CtxBalanced fs (f.height n)

/-- A tree with a black root is balanced exactly when the parts at any hole are. -/
theorem balanced_plug_iff (fs : Ctx α) (t : CTree α) :
    ((∃ n, (plug fs t).Balanced n) ∧ (plug fs t).color = .black) ↔
      ∃ n, t.Balanced n ∧ CtxBalanced fs n ∧ (t.color = .red → topBlack fs) := by
  induction fs generalizing t with
  | nil =>
    constructor
    · rintro ⟨⟨n,hn⟩,hc⟩
      exact ⟨n,hn,trivial,by rw [plug_nil] at hc; simp [hc]⟩
    · rintro ⟨n,hn,-,hc⟩
      refine ⟨⟨n,hn⟩,?_⟩
      cases hcol : t.color with
      | red => exact (hc hcol).elim
      | black => exact hcol
  | cons f fs ih =>
    rw [plug_cons,ih]
    obtain ⟨right,color,label,other⟩ := f
    cases color with
    | red =>
      constructor
      · rintro ⟨n,hn,hfs,htop⟩
        cases right <;> obtain ⟨hl,hr,hbl,hbr⟩ := balanced_red.mp hn
        · exact ⟨n,hbl,⟨hbr,fun _ => ⟨hr,htop rfl⟩,hfs⟩,by simp [hl]⟩
        · exact ⟨n,hbr,⟨hbl,fun _ => ⟨hl,htop rfl⟩,hfs⟩,by simp [hr]⟩
      · rintro ⟨n,hn,⟨hother,htop,hfs⟩,hc⟩
        obtain ⟨hoc,htop⟩ := htop rfl
        have ht : t.color = .black := by
          cases ht : t.color with
          | red => cases hc ht
          | black => rfl
        refine ⟨n,?_,hfs,fun _ => htop⟩
        cases right
        · exact balanced_red.mpr ⟨ht,hoc,hn,hother⟩
        · exact balanced_red.mpr ⟨hoc,ht,hother,hn⟩
    | black =>
      constructor
      · rintro ⟨n,hn,hfs,-⟩
        cases right <;> obtain ⟨m,rfl,hl,hr⟩ := hn
        · exact ⟨m,hl,⟨hr,by simp,hfs⟩,fun _ => rfl⟩
        · exact ⟨m,hr,⟨hl,by simp,hfs⟩,fun _ => rfl⟩
      · rintro ⟨m,hm,⟨hother,-,hfs⟩,-⟩
        refine ⟨m+1,?_,hfs,by simp⟩
        cases right
        · exact balanced_black.mpr ⟨hm,hother⟩
        · exact balanced_black.mpr ⟨hother,hm⟩

/-- The balance of a context reads no labels. -/
theorem ctxBalanced_relabel {gs fs : Ctx α} {right : Bool} {c : Color} {a b : α} {o : CTree α} {n : ℕ}
    (h : CtxBalanced (gs ++ ⟨right,c,a,o⟩::fs) n) : CtxBalanced (gs ++ ⟨right,c,b,o⟩::fs) n := by
  induction gs generalizing n with
  | nil => exact h
  | cons g gs ih =>
    obtain ⟨ho,hred,hrest⟩ := h
    refine ⟨ho,fun hg => ⟨(hred hg).1,?_⟩,ih hrest⟩
    have htop := (hred hg).2
    cases gs <;> exact htop

/-- Each label is the root of a subtree in some hole. -/
theorem exists_plug {a : α} {t : CTree α} (ha : a ∈ t.inorder) : ∃ fs c l r, t = plug fs (node c l a r) := by
  suffices h : ∀ gs : Ctx α, ∃ fs c l r, plug gs t = plug fs (node c l a r) from h []
  induction t with
  | leaf => simp at ha
  | node c l b r ihl ihr =>
    intro gs
    simp only [inorder_node,List.mem_append,List.mem_cons] at ha
    rcases ha with ha | rfl | ha
    · exact ihl ha (⟨false,c,b,r⟩::gs)
    · exact ⟨gs,c,l,r,rfl⟩
    · exact ihr ha (⟨true,c,b,l⟩::gs)

/-- Below a root that is painted black a red tree may be the whole tree. -/
theorem balanced_paint_plug {fs : Ctx α} {t : CTree α} {n : ℕ} (ht : t.Balanced n) (hfs : CtxBalanced fs n)
    (hred : t.color = .red → fs = [] ∨ topBlack fs) : ∃ k, ((plug fs t).paint .black).Balanced k := by
  by_cases hnil : fs = [] ∧ t.color = .red
  · obtain ⟨rfl,hc⟩ := hnil
    exact ⟨n+1,ht.paint_black hc⟩
  · have hroot : (∃ k, (plug fs t).Balanced k) ∧ (plug fs t).color = .black :=
      (balanced_plug_iff fs t).mpr ⟨n,ht,hfs,fun hc => (hred hc).resolve_left fun he => hnil ⟨he,hc⟩⟩
    obtain ⟨⟨k,hk⟩,hblack⟩ := hroot
    exact ⟨k,by rwa [CTree.paint_of_color hblack]⟩

/-- The way down to the place of a new label: to the left where `p` holds. -/
def descend (p : α → Bool) : CTree α → Ctx α → Ctx α
  | leaf,fs => fs
  | node c l a r,fs =>
    if p a then descend p l (⟨false,c,a,r⟩::fs) else descend p r (⟨true,c,a,l⟩::fs)

theorem plug_descend (p : α → Bool) (t : CTree α) (fs : Ctx α) :
    plug (descend p t fs) leaf = plug fs t := by
  induction t generalizing fs with
  | leaf => rfl
  | node c l a r ihl ihr =>
    unfold descend
    split
    · rw [ihl]; rfl
    · rw [ihr]; rfl

/-- In a search tree the place is between the labels where `p` fails and those where it holds. -/
theorem descend_split (p : α → Bool) (t : CTree α) (fs : Ctx α)
    (hp : t.inorder.Pairwise fun x y => p x = true → p y = true) :
    ∃ xs ys, t.inorder = xs ++ ys ∧ before (descend p t fs) = before fs ++ xs ∧
      after (descend p t fs) = ys ++ after fs ∧ (∀ x ∈ xs, p x = false) ∧ ∀ y ∈ ys, p y = true := by
  induction t generalizing fs with
  | leaf => exact ⟨[],[],rfl,by simp [descend],by simp [descend],by simp,by simp⟩
  | node c l a r ihl ihr =>
    rw [inorder_node,List.pairwise_append,List.pairwise_cons] at hp
    obtain ⟨hl,⟨har,hr⟩,hlr⟩ := hp
    unfold descend
    cases hpa : p a with
    | true =>
      obtain ⟨xs,ys,hxy,hb,ha,hxs,hys⟩ := ihl (⟨false,c,a,r⟩::fs) hl
      refine ⟨xs,ys ++ a::r.inorder,by simp [hxy],by simpa [before] using hb,by simpa [after] using ha,hxs,?_⟩
      intro y hy
      rcases List.mem_append.mp hy with hy | hy
      · exact hys y hy
      · rcases List.mem_cons.mp hy with rfl | hy
        · exact hpa
        · exact har y hy hpa
    | false =>
      obtain ⟨xs,ys,hxy,hb,ha,hxs,hys⟩ := ihr (⟨true,c,a,l⟩::fs) hr
      refine ⟨l.inorder ++ a::xs,ys,by simp [hxy],by simpa [before] using hb,by simpa [after] using ha,?_,hys⟩
      intro x hx
      rcases List.mem_append.mp hx with hx | hx
      · by_contra hne
        have := hlr x hx a List.mem_cons_self (by simpa using hne)
        rw [hpa] at this
        cases this
      · rcases List.mem_cons.mp hx with rfl | hx
        · exact hpa
        · exact hxs x hx

end ColorTree
