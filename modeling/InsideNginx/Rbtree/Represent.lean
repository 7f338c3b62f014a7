import InsideNginx.Rbtree.Tree

/-! Trees in the node memory: what it means that a context with a tree in its hole is stored,
how the hole moves, and what a store elsewhere or into the hole does to it. -/
namespace InsideNginx.Rbtree
open ColorTree

/-- The pointer to a tree; a leaf is the sentinel. -/
def ptr (s : ℕ) : CTree ℕ → Option ℕ
  | .leaf => some s
  | .node _ _ a _ => some a

/-- The parent of what is in the hole. -/
def up : Ctx ℕ → Option ℕ
  | [] => none
  | f::_ => some f.label

/-- The child of `a` on one side. -/
def RbtreeMem.side (t : RbtreeMem) (right : Bool) (a : ℕ) : Option ℕ := if right then t.right a else t.left a

/-- Store the child of `a` on one side. -/
def RbtreeMem.setSide (t : RbtreeMem) (right : Bool) (a : ℕ) (p : Option ℕ) : RbtreeMem :=
  if right then t.setRight a p else t.setLeft a p

section Side
variable {t : RbtreeMem} {a b : ℕ} {p : Option ℕ}

@[simp] theorem setSide_parent {s : Bool} : (t.setSide s a p).parent = t.parent := by cases s <;> rfl
@[simp] theorem setSide_color {s : Bool} : (t.setSide s a p).color = t.color := by cases s <;> rfl
@[simp] theorem setSide_key {s : Bool} : (t.setSide s a p).key = t.key := by cases s <;> rfl
@[simp] theorem setSide_root {s : Bool} : (t.setSide s a p).root = t.root := by cases s <;> rfl
@[simp] theorem setSide_sentinel {s : Bool} : (t.setSide s a p).sentinel = t.sentinel := by cases s <;> rfl

@[simp] theorem side_setSide_self {s : Bool} : (t.setSide s a p).side s a = p := by
  cases s <;> simp [RbtreeMem.setSide,RbtreeMem.side]

@[simp] theorem side_setSide_not {s : Bool} : (t.setSide s a p).side (!s) b = t.side (!s) b := by
  cases s <;> rfl

@[simp] theorem side_not_setSide {s : Bool} : (t.setSide (!s) a p).side s b = t.side s b := by
  cases s <;> rfl

theorem side_setSide_of_ne {s s' : Bool} (h : b ≠ a) : (t.setSide s a p).side s' b = t.side s' b := by
  cases s <;> cases s' <;> simp [RbtreeMem.setSide,RbtreeMem.side,h]

@[simp] theorem side_setParent {s : Bool} : (t.setParent a p).side s b = t.side s b := rfl
@[simp] theorem side_setColor {s : Bool} {c : Color} : (t.setColor a c).side s b = t.side s b := rfl

end Side

/-- The tree is stored, with `q` as the parent of its root. -/
def Rep (t : RbtreeMem) : Option ℕ → CTree ℕ → Prop
  | _,.leaf => True
  | q,.node c l a r => a ≠ t.sentinel ∧ t.color a = c ∧ t.parent a = q ∧
    t.left a = ptr t.sentinel l ∧ t.right a = ptr t.sentinel r ∧ Rep t (some a) l ∧ Rep t (some a) r

/-- The context is stored, with `p` in its hole. -/
def RepCtx (t : RbtreeMem) : Option ℕ → Ctx ℕ → Prop
  | p,[] => t.root = p
  | p,f::fs => f.label ≠ t.sentinel ∧ t.color f.label = f.color ∧ t.parent f.label = up fs ∧
    t.side f.right f.label = p ∧ t.side (!f.right) f.label = ptr t.sentinel f.other ∧
    Rep t (some f.label) f.other ∧ RepCtx t (some f.label) fs

/-- The tree is stored in the hole of the context. -/
def Holds (t : RbtreeMem) (fs : Ctx ℕ) (T : CTree ℕ) : Prop :=
  RepCtx t (ptr t.sentinel T) fs ∧ Rep t (up fs) T

/-- The labels of the context and of the tree in its hole are all different. -/
def Distinct (fs : Ctx ℕ) (T : CTree ℕ) : Prop := (T.inorder ++ labels fs).Nodup

variable {t t' : RbtreeMem} {fs : Ctx ℕ} {T l m r : CTree ℕ} {a b n : ℕ} {c d : Color} {p q : Option ℕ}

/-- Move the hole up. -/
theorem holds_cons {f : Frame ℕ} : Holds t (f::fs) T ↔ Holds t fs (f.fill T) := by
  obtain ⟨right,c,a,other⟩ := f
  cases right <;> simp [Holds,Rep,RepCtx,Frame.fill,RbtreeMem.side,up,ptr] <;> tauto

theorem distinct_cons {f : Frame ℕ} : Distinct (f::fs) T ↔ Distinct fs (f.fill T) := by
  refine List.Perm.nodup_iff ?_
  simpa [labels] using ((inorder_fill_perm f T).append_right (labels fs)).symm

theorem distinct_nil : Distinct [] T ↔ T.inorder.Nodup := by simp [Distinct,labels]

theorem distinct_iff : Distinct fs T ↔ (plug fs T).inorder.Nodup :=
  (inorder_plug_perm fs T).symm.nodup_iff

/-- A tree is stored in a hole exactly when the whole tree is stored. -/
theorem holds_plug : Holds t fs T ↔ Holds t [] (plug fs T) := by
  induction fs generalizing T with
  | nil => rfl
  | cons f fs ih => rw [holds_cons,plug_cons,ih]

/-- Move the hole to the other side of the node above it. -/
theorem holds_flip {f : Frame ℕ} : Holds t (f::fs) T ↔ Holds t (f.flip T::fs) f.other := by
  rw [holds_cons,holds_cons,Frame.fill_flip]

theorem distinct_flip {f : Frame ℕ} : Distinct (f::fs) T ↔ Distinct (f.flip T::fs) f.other := by
  rw [distinct_cons,distinct_cons,Frame.fill_flip]

@[simp] theorem ptr_fill {s : ℕ} {f : Frame ℕ} : ptr s (f.fill T) = some f.label := by
  unfold Frame.fill; split <;> rfl

@[simp] theorem ptr_paint {s : ℕ} : ptr s (T.paint c) = ptr s T := by cases T <;> rfl

/-! ### Changes elsewhere -/

/-- Nothing of the node has changed but perhaps its key. -/
structure Same (t t' : RbtreeMem) (a : ℕ) : Prop where
  left : t'.left a = t.left a
  right : t'.right a = t.right a
  parent : t'.parent a = t.parent a
  color : t'.color a = t.color a

theorem Same.side (h : Same t t' a) (s : Bool) : t'.side s a = t.side s a := by
  cases s
  · exact h.left
  · exact h.right

theorem Same.of_side (hside : ∀ s, t'.side s a = t.side s a) (hp : t'.parent a = t.parent a)
    (hc : t'.color a = t.color a) : Same t t' a :=
  ⟨hside false,hside true,hp,hc⟩

theorem Rep.congr (h : Rep t q T) (hs : t'.sentinel = t.sentinel) (hsame : ∀ a ∈ T.inorder, Same t t' a) :
    Rep t' q T := by
  induction T generalizing q with
  | leaf => trivial
  | node c l a r ihl ihr =>
    obtain ⟨ha,hc,hq,hl,hr,hrepl,hrepr⟩ := h
    obtain ⟨sl,sr,sp,sc⟩ := hsame a (by simp)
    rw [Rep,hs,sc,sp,sl,sr]
    exact ⟨ha,hc,hq,hl,hr,ihl hrepl fun x hx => hsame x (by simp [hx]),ihr hrepr fun x hx => hsame x (by simp [hx])⟩

theorem RepCtx.congr (h : RepCtx t p fs) (hs : t'.sentinel = t.sentinel) (hroot : t'.root = t.root)
    (hsame : ∀ a ∈ labels fs, Same t t' a) : RepCtx t' p fs := by
  induction fs generalizing p with
  | nil => exact hroot.trans h
  | cons f fs ih =>
    obtain ⟨ha,hc,hq,hp,ho,hrep,hctx⟩ := h
    have hlabel := hsame f.label (by simp [labels])
    rw [RepCtx,hs,hlabel.color,hlabel.parent,hlabel.side,hlabel.side]
    exact ⟨ha,hc,hq,hp,ho,hrep.congr hs fun x hx => hsame x (by simp [labels,hx]),
      ih hctx fun x hx => hsame x (by simp [labels,hx])⟩

/-- The root of the tree has got another parent, and nothing else has changed. -/
theorem Rep.reparent (h : Rep t p T) (hs : t'.sentinel = t.sentinel) (hd : T.inorder.Nodup)
    (hroot : ∀ a, ptr t.sentinel T = some a → a ∈ T.inorder →
      t'.left a = t.left a ∧ t'.right a = t.right a ∧ t'.color a = t.color a ∧ t'.parent a = q)
    (hsame : ∀ a ∈ T.inorder, ptr t.sentinel T ≠ some a → Same t t' a) : Rep t' q T := by
  cases T with
  | leaf => trivial
  | node c l a r =>
    obtain ⟨ha,hc,-,hl,hr,hrepl,hrepr⟩ := h
    obtain ⟨sl,sr,sc,sp⟩ := hroot a rfl (by simp)
    have hne : ∀ x, x ∈ l.inorder ∨ x ∈ r.inorder → ptr t.sentinel (.node c l a r) ≠ some x := by
      rintro x hx ⟨⟩
      simp only [CTree.inorder_node] at hd
      grind
    rw [Rep,hs,sc,sp,sl,sr]
    exact ⟨ha,hc,rfl,hl,hr,
      hrepl.congr hs fun x hx => hsame x (by simp [hx]) (hne x (.inl hx)),
      hrepr.congr hs fun x hx => hsame x (by simp [hx]) (hne x (.inr hx))⟩

/-- The labels of a stored tree are nodes. -/
theorem Rep.ne_sentinel (h : Rep t q T) : ∀ x ∈ T.inorder, x ≠ t.sentinel := by
  induction T generalizing q with
  | leaf => simp
  | node c l a r ihl ihr =>
    obtain ⟨ha,-,-,-,-,hl,hr⟩ := h
    intro x hx
    simp only [CTree.inorder_node,List.mem_append,List.mem_cons] at hx
    rcases hx with hx | rfl | hx
    · exact ihl hl x hx
    · exact ha
    · exact ihr hr x hx

theorem RepCtx.ne_sentinel (h : RepCtx t p fs) : ∀ x ∈ labels fs, x ≠ t.sentinel := by
  induction fs generalizing p with
  | nil => simp [labels]
  | cons f fs ih =>
    obtain ⟨ha,-,-,-,-,hrep,hctx⟩ := h
    intro x hx
    simp only [labels,List.mem_append,List.mem_cons] at hx
    rcases hx with rfl | hx | hx
    · exact ha
    · exact hrep.ne_sentinel x hx
    · exact ih hctx x hx

/-- A subtree is not where a node outside of it is. -/
theorem ptr_ne {x s : ℕ} (hs : x ≠ s) (hx : x ∉ m.inorder) : ptr s m ≠ some x := by
  cases m with
  | leaf => simpa [ptr] using Ne.symm hs
  | node c l y r =>
    have hxy : y ≠ x := fun he => hx (by simp [he])
    simpa [ptr] using hxy

/-! ### Other colours -/

@[simp] theorem ptr_recolor {s : ℕ} (f : ℕ → Color) : ptr s (T.recolor f) = ptr s T := by cases T <;> rfl

@[simp] theorem up_recolor (f : ℕ → Color) : up (fs.map (Frame.recolor f)) = up fs := by cases fs <;> rfl

theorem Rep.recolor (h : Rep t q T) (hl : t'.left = t.left) (hr : t'.right = t.right) (hp : t'.parent = t.parent)
    (hs : t'.sentinel = t.sentinel) : Rep t' q (T.recolor t'.color) := by
  induction T generalizing q with
  | leaf => trivial
  | node c l a r ihl ihr =>
    obtain ⟨ha,-,hq,hla,hra,hrepl,hrepr⟩ := h
    rw [CTree.recolor,Rep,hs,hl,hr,hp,ptr_recolor,ptr_recolor]
    exact ⟨ha,rfl,hq,hla,hra,ihl hrepl,ihr hrepr⟩

theorem RepCtx.recolor (h : RepCtx t p fs) (hl : t'.left = t.left) (hr : t'.right = t.right) (hp : t'.parent = t.parent)
    (hroot : t'.root = t.root) (hs : t'.sentinel = t.sentinel) : RepCtx t' p (fs.map (Frame.recolor t'.color)) := by
  induction fs generalizing p with
  | nil => exact hroot.trans h
  | cons f fs ih =>
    obtain ⟨ha,-,hq,hside,ho,hrep,hctx⟩ := h
    have hsides : ∀ b x, t'.side b x = t.side b x := by
      intro b x
      rw [RbtreeMem.side,RbtreeMem.side,hl,hr]
    rw [List.map_cons,RepCtx,hs,hp,up_recolor,hsides,hsides]
    exact ⟨ha,rfl,hq,hside,ho.trans (by simp [Frame.recolor]),hrep.recolor hl hr hp hs,ih hctx⟩

/-- A change of colours changes the tree in its colours only. -/
theorem Holds.recolor (h : Holds t fs T) (hl : t'.left = t.left) (hr : t'.right = t.right) (hp : t'.parent = t.parent)
    (hroot : t'.root = t.root) (hs : t'.sentinel = t.sentinel) :
    Holds t' (fs.map (Frame.recolor t'.color)) (T.recolor t'.color) := by
  rw [Holds,hs,ptr_recolor,up_recolor]
  exact ⟨h.1.recolor hl hr hp hroot hs,h.2.recolor hl hr hp hs⟩

theorem distinct_recolor (f : ℕ → Color) : Distinct (fs.map (Frame.recolor f)) (T.recolor f) ↔ Distinct fs T := by
  simp [Distinct]

/-! ### The hole -/

/-- In a tree the root is a label of each context that is not empty. -/
theorem RepCtx.root_mem {f : Frame ℕ} (h : RepCtx t p (f::fs)) : ∃ x ∈ labels (f::fs), t.root = some x := by
  induction fs generalizing f p with
  | nil => exact ⟨f.label,by simp [labels],h.2.2.2.2.2.2⟩
  | cons g fs ih =>
    obtain ⟨x,hx,hroot⟩ := ih h.2.2.2.2.2.2
    exact ⟨x,by rw [labels]; simp [hx],hroot⟩

/-- The pointer in the hole. -/
def hole (t : RbtreeMem) : Ctx ℕ → Option ℕ
  | [] => t.root
  | f::_ => t.side f.right f.label

/-- Put a pointer into the hole. -/
def setHole (t : RbtreeMem) (fs : Ctx ℕ) (p : Option ℕ) : RbtreeMem :=
  match fs with
  | [] => t.setRoot p
  | f::_ => t.setSide f.right f.label p

@[simp] theorem setHole_sentinel : (setHole t fs p).sentinel = t.sentinel := by cases fs <;> simp [setHole]
@[simp] theorem setHole_parent : (setHole t fs p).parent = t.parent := by
  cases fs <;> [rfl;simp [setHole]]
@[simp] theorem setHole_color : (setHole t fs p).color = t.color := by
  cases fs <;> [rfl;simp [setHole]]
@[simp] theorem setHole_key : (setHole t fs p).key = t.key := by
  cases fs <;> [rfl;simp [setHole]]

@[simp] theorem hole_setHole : hole (setHole t fs p) fs = p := by cases fs <;> simp [setHole,hole]

theorem setHole_setParent : setHole (t.setParent a q) fs p = (setHole t fs p).setParent a q := by
  rcases fs with _ | ⟨⟨_ | _,_,_,_⟩,_⟩ <;> rfl

theorem RepCtx.hole_eq (h : RepCtx t p fs) : hole t fs = p := by
  cases fs with
  | nil => exact h
  | cons f fs => exact h.2.2.2.1

theorem setHole_side {s : Bool} (h : a ∉ labels fs) : (setHole t fs p).side s a = t.side s a := by
  cases fs with
  | nil => rfl
  | cons f fs => exact side_setSide_of_ne fun he => h (by simp [labels,he])

theorem setHole_same (h : a ∉ labels fs) : Same t (setHole t fs p) a :=
  .of_side (fun _ => setHole_side h) (by simp) (by simp)

theorem RepCtx.setHole (h : RepCtx t p fs) (hd : (labels fs).Nodup) : RepCtx (setHole t fs q) q fs := by
  cases fs with
  | nil => rfl
  | cons f fs =>
    obtain ⟨ha,hc,hq,hp,ho,hrep,hctx⟩ := h
    rw [labels,List.nodup_cons] at hd
    have hsame : ∀ x ∈ f.other.inorder ++ labels fs, Same t (t.setSide f.right f.label q) x := fun x hx =>
      .of_side (fun _ => side_setSide_of_ne fun he => hd.1 (he ▸ hx)) (by simp) (by simp)
    refine ⟨by simpa [Rbtree.setHole] using ha,by simpa [Rbtree.setHole] using hc,
      by simpa [Rbtree.setHole] using hq,by simp [Rbtree.setHole],by simpa [Rbtree.setHole] using ho,?_,?_⟩
    · exact hrep.congr (by simp) fun x hx => hsame x (by simp [hx])
    · exact hctx.congr (by simp) (by simp [Rbtree.setHole]) fun x hx => hsame x (by simp [hx])

/-- A tree moves from one memory to another if nothing has changed in its nodes. -/
theorem Holds.congr (h : Holds t fs T) (hs : t'.sentinel = t.sentinel) (hroot : t'.root = t.root)
    (hsame : ∀ a ∈ T.inorder ++ labels fs, Same t t' a) : Holds t' fs T := by
  rw [Holds,hs]
  exact ⟨h.1.congr hs hroot fun x hx => hsame x (by simp [hx]),h.2.congr hs fun x hx => hsame x (by simp [hx])⟩

/-- Colour the root of the tree in the hole. -/
theorem Holds.setColor (h : Holds t fs T) (hd : Distinct fs T) (ha : ptr t.sentinel T = some a) :
    Holds (t.setColor a c) fs (T.paint c) := by
  cases T with
  | leaf =>
    obtain rfl : t.sentinel = a := Option.some.inj ha
    refine h.congr rfl rfl fun x hx => ⟨rfl,rfl,rfl,?_⟩
    have hxs : x ≠ t.sentinel := h.1.ne_sentinel x (by simpa using hx)
    simp [hxs]
  | node c' l b r =>
    obtain rfl : b = a := Option.some.inj ha
    obtain ⟨hctx,hb,-,hq,hl,hr,hrepl,hrepr⟩ := h
    simp only [Distinct,CTree.inorder_node] at hd
    have hsame : ∀ x, x ≠ b → Same t (t.setColor b c) x := fun x hx => ⟨rfl,rfl,rfl,by simp [hx]⟩
    exact ⟨hctx.congr rfl rfl fun x hx => hsame x (by grind),hb,by simp,hq,hl,hr,
      hrepl.congr rfl fun x hx => hsame x (by grind),hrepr.congr rfl fun x hx => hsame x (by grind)⟩

/-! ### What is read near the hole -/

theorem ptr_mem {s : ℕ} (hT : T ≠ .leaf) (ha : ptr s T = some a) : a ∈ T.inorder := by
  cases T with
  | leaf => cases hT rfl
  | node c l x r =>
    obtain rfl : x = a := Option.some.inj ha
    simp

theorem Holds.node_ne (h : Holds t fs (.node c l a r)) : a ≠ t.sentinel := h.2.1

theorem Holds.node_color (h : Holds t fs (.node c l a r)) : t.color a = c := h.2.2.1

theorem Holds.left_eq (h : Holds t fs (.node c l a r)) : t.left a = ptr t.sentinel l := h.2.2.2.2.1

theorem Holds.right_eq (h : Holds t fs (.node c l a r)) : t.right a = ptr t.sentinel r := h.2.2.2.2.2.1

theorem Holds.side_eq {f : Frame ℕ} (h : Holds t (f::fs) T) : t.side f.right f.label = ptr t.sentinel T :=
  h.1.2.2.2.1

theorem Holds.other_eq {f : Frame ℕ} (h : Holds t (f::fs) T) :
    t.side (!f.right) f.label = ptr t.sentinel f.other := h.1.2.2.2.2.1

theorem Holds.label_color {f : Frame ℕ} (h : Holds t (f::fs) T) : t.color f.label = f.color := h.1.2.1

theorem Holds.label_parent {f : Frame ℕ} (h : Holds t (f::fs) T) : t.parent f.label = up fs := h.1.2.2.1

theorem Holds.parent_eq (h : Holds t fs T) (hT : T ≠ .leaf) (ha : ptr t.sentinel T = some a) :
    t.parent a = up fs := by
  cases T with
  | leaf => cases hT rfl
  | node c l x r =>
    obtain rfl : x = a := Option.some.inj ha
    exact h.2.2.2.1

/-- The colour of a tree is read at its pointer, the sentinel for a leaf. -/
theorem Holds.color_eq (h : Holds t fs T) (hs : t.color t.sentinel = .black) (ha : ptr t.sentinel T = some a) :
    t.color a = T.color := by
  cases T with
  | leaf =>
    obtain rfl : t.sentinel = a := Option.some.inj ha
    exact hs
  | node c l x r =>
    obtain rfl : x = a := Option.some.inj ha
    exact h.2.2.1

theorem Holds.ne_root {f : Frame ℕ} (h : Holds t (f::fs) T) (hd : Distinct (f::fs) T) (ha : a ∈ T.inorder) :
    some a ≠ t.root := by
  obtain ⟨x,hx,hroot⟩ := h.1.root_mem
  rw [hroot]
  rintro ⟨⟩
  simp only [Distinct] at hd
  grind

/-! ### Parents -/

/-- Each node of a tree is the parent of its children. -/
theorem Rep.parent_eq (h : Rep t q T) {s : Bool} (ha : a ∈ T.inorder) (hab : t.side s a = some b)
    (hb : b ≠ t.sentinel) : t.parent b = some a := by
  induction T generalizing q with
  | leaf => simp at ha
  | node c l x r ihl ihr =>
    obtain ⟨-,-,-,hpl,hpr,hl,hr⟩ := h
    simp only [CTree.inorder_node,List.mem_append,List.mem_cons] at ha
    rcases ha with ha | rfl | ha
    · exact ihl hl ha
    · have hchild : ∀ {u : CTree ℕ}, Rep t (some a) u → ptr t.sentinel u = some b → t.parent b = some a := by
        intro u hu hp
        cases u with
        | leaf => exact absurd (Option.some.inj hp).symm hb
        | node c l y r =>
          obtain rfl : y = b := Option.some.inj hp
          exact hu.2.2.1
      cases s with
      | false => exact hchild hl (hpl.symm.trans hab)
      | true => exact hchild hr (hpr.symm.trans hab)
    · exact ihr hr ha

/-- The node in the hole has not got its parent link. -/
def Stale (t : RbtreeMem) (fs : Ctx ℕ) (a : ℕ) : Prop :=
  hole t fs = some a ∧ a ≠ t.sentinel ∧ t.parent a ≠ up fs

theorem stale_recolor (f : ℕ → Color) : Stale t (fs.map (Frame.recolor f)) a ↔ Stale t fs a := by
  cases fs <;> rfl

/-- No tree that has the nodes of the context is stored. -/
theorem Stale.not_holds (h : Stale t fs a) (hsub : ∀ x ∈ labels fs, x ∈ T.inorder) : ¬ Holds t [] T := by
  obtain ⟨hhole,ha,hparent⟩ := h
  intro hT
  cases fs with
  | nil =>
    cases T with
    | leaf => exact ha (Option.some.inj (hhole.symm.trans hT.1))
    | node c l x r =>
      obtain rfl : a = x := Option.some.inj (hhole.symm.trans hT.1)
      exact hparent hT.2.2.2.1
  | cons f fs => exact hparent (hT.2.parent_eq (hsub f.label (by simp [labels])) hhole ha)

end InsideNginx.Rbtree
