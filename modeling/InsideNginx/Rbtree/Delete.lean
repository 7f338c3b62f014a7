import InsideNginx.Rbtree.DeleteStale

/-! Deletion: the node is taken out of its place or replaced by its successor, and the fixup
starts at the hole that remains. -/
namespace InsideNginx.Rbtree
open ColorTree CTree

variable {t t' : RbtreeMem} {fs : Ctx ℕ} {X T V l r : CTree ℕ} {a n p v w x y : ℕ} {c d : Color} {s : Bool}

/-! ### Transplant -/

/-- Below another node, `ngx_rbtree_transplant` puts `v` into the hole of `u`. -/
theorem rbtreeTransplant_eq {f : Frame ℕ} (h : RepCtx t (some a) (f::fs)) (hparent : t.parent a = some f.label)
    (ha : a ∉ labels (f::fs)) (hs : a ≠ t.sentinel) :
    rbtreeTransplant t a v = .ok ((setHole t (f::fs) (some v)).setParent v (some f.label)) := by
  obtain ⟨hf,-,-,hp,ho,-,-⟩ := h
  have hset : transplantAbove t a v = .ok (setHole t (f::fs) (some v)) := by
    cases hr : f.right with
    | true =>
      rw [hr] at ho
      have hne : some a ≠ t.left f.label := by
        rw [show t.left f.label = ptr t.sentinel f.other from ho]
        exact Ne.symm (ptr_ne hs fun hao => ha (by simp [labels,hao]))
      simp [transplantAbove,hparent,hf,deref,orFault,bind,Except.bind,pure,Except.pure,hne,setHole,hr,RbtreeMem.setSide]
    | false =>
      rw [hr] at hp
      have hl : t.left f.label = some a := hp
      simp [transplantAbove,hparent,hf,deref,orFault,bind,Except.bind,pure,Except.pure,hl,setHole,hr,RbtreeMem.setSide]
  simp [rbtreeTransplant,hset,bind,Except.bind,pure,Except.pure,hparent]

/-- At the root there is no parent to read: it is `NULL` and not the sentinel. -/
theorem rbtreeTransplant_root (hparent : t.parent a = none) : rbtreeTransplant t a v = .error .nullDeref := by
  simp [rbtreeTransplant,transplantAbove,hparent,deref,orFault,bind,Except.bind]

/-- A subtree of the node takes its place. -/
theorem transplant_spec {f : Frame ℕ} (h : RepCtx t (some a) (f::fs)) (hV : Rep t (some a) V)
    (hd : (a::(V.inorder ++ labels (f::fs))).Nodup) (hv : ptr t.sentinel V = some v) :
    Holds ((setHole t (f::fs) (some v)).setParent v (some f.label)) (f::fs) V := by
  have hset := h.setHole (q := some v) (by grind)
  refine ⟨?_,?_⟩
  · rw [RbtreeMem.setParent_sentinel,setHole_sentinel,hv]
    refine hset.congr rfl rfl fun x hx => ?_
    have hxv : x ≠ v := by
      rintro rfl
      exact ptr_ne (h.ne_sentinel x hx) (by grind) hv
    exact ⟨rfl,rfl,by simp [hxv],rfl⟩
  · refine hV.reparent (by simp) (by grind) (fun x hx hxV => ?_) fun x hxV hx => ?_
    · obtain rfl : v = x := Option.some.inj (hv.symm.trans hx)
      have hchild : Same t (setHole t (f::fs) (some v)) v := setHole_same (by grind)
      exact ⟨hchild.left,hchild.right,by simp,by simp [up]⟩
    · have hxv : x ≠ v := by
        rintro rfl
        exact hx hv
      have hchild : Same t (setHole t (f::fs) (some v)) x := setHole_same (by grind)
      exact ⟨hchild.left,hchild.right,by simp [hxv],by simp⟩

/-! ### The successor -/

/-- The first node of a tree in order: the way to it, its colour, and its right subtree. -/
def leftmost : Color → CTree ℕ → ℕ → CTree ℕ → Ctx ℕ → Ctx ℕ × Color × ℕ × CTree ℕ
  | c,.leaf,a,r,fs => (fs,c,a,r)
  | c,.node c' l a' r',a,r,fs => leftmost c' l a' r' (⟨false,c,a,r⟩::fs)

theorem plug_leftmost (c : Color) (l : CTree ℕ) (a : ℕ) (r : CTree ℕ) (fs : Ctx ℕ) :
    plug (leftmost c l a r fs).1 (.node (leftmost c l a r fs).2.1 .leaf (leftmost c l a r fs).2.2.1
      (leftmost c l a r fs).2.2.2) = plug fs (.node c l a r) := by
  induction l generalizing c a r fs with
  | leaf => rfl
  | node c' l a' r' ihl _ =>
    rw [leftmost,ihl]
    rfl

theorem before_leftmost (c : Color) (l : CTree ℕ) (a : ℕ) (r : CTree ℕ) (fs : Ctx ℕ) :
    before (leftmost c l a r fs).1 = before fs := by
  induction l generalizing c a r fs with
  | leaf => rfl
  | node c' l a' r' ihl _ =>
    rw [leftmost,ihl]
    simp [before]

theorem leftmost_append (c : Color) (l : CTree ℕ) (a : ℕ) (r : CTree ℕ) (gs fs : Ctx ℕ) :
    leftmost c l a r (gs ++ fs) = ((leftmost c l a r gs).1 ++ fs,(leftmost c l a r gs).2) := by
  induction l generalizing c a r gs with
  | leaf => rfl
  | node c' l a' r' ihl _ => exact ihl c' a' r' (⟨false,c,a,r⟩::gs)

theorem rbtreeMin_eq {fuel : ℕ} (h : Holds t fs (.node c l a r)) (hfuel : depth (.node c l a r) ≤ fuel) :
    rbtreeMin fuel t a = .ok (leftmost c l a r fs).2.2.1 := by
  induction fuel generalizing c l a r fs with
  | zero => simp [depth] at hfuel
  | succ fuel ih =>
    rw [rbtreeMin]
    cases l with
    | leaf => rw [if_pos (show t.left a = some t.sentinel from h.left_eq)]; rfl
    | node c' l' b r' =>
      have hleft : Holds t (⟨false,c,a,r⟩::fs) (.node c' l' b r') := holds_cons.mpr h
      have hne : t.left a ≠ some t.sentinel := by
        rw [h.left_eq]
        simpa [ptr] using hleft.node_ne
      rw [if_neg hne,h.left_eq]
      simp only [depth,Nat.add_le_add_iff_right,max_le_iff] at hfuel
      exact ih hleft (by simpa [depth] using hfuel.1)

/-- Move the hole over several nodes. -/
theorem holds_append {gs : Ctx ℕ} : Holds t (gs ++ fs) T ↔ Holds t fs (plug gs T) := by
  rw [holds_plug,plug_append,← holds_plug]

theorem distinct_append {gs : Ctx ℕ} : Distinct (gs ++ fs) T ↔ Distinct fs (plug gs T) := by
  rw [distinct_iff,plug_append,← distinct_iff]

/-- The memory after the successor `y` has taken the place, the left child and the colour of the node. -/
def replaced (t : RbtreeMem) (fs : Ctx ℕ) (l : CTree ℕ) (c : Color) (y p e : ℕ) : RbtreeMem :=
  ((((setHole t fs (some y)).setParent y (some p)).setLeft y (ptr t.sentinel l)).setParent e (some y)).setColor y c

theorem replaced_spec {f : Frame ℕ} {e : ℕ} (h : RepCtx t (some n) (f::fs)) (hl : Rep t (some n) l) (hr : Rep t (some y) r)
    (hy : t.right y = ptr t.sentinel r) (hys : y ≠ t.sentinel) (he : ptr t.sentinel l = some e) (hleaf : l ≠ .leaf)
    (hd : (y::n::(l.inorder ++ r.inorder ++ labels (f::fs))).Nodup) :
    Holds (replaced t (f::fs) l c y f.label e) (f::fs) (.node c l y r) := by
  have hel := ptr_mem hleaf he
  simp only [List.nodup_cons,List.mem_cons,List.mem_append,List.nodup_append] at hd
  have hye : y ≠ e := by grind
  have hsame : ∀ x, x ≠ y → x ≠ e → x ∉ labels (f::fs) → Same t (replaced t (f::fs) l c y f.label e) x := by
    intro x hxy hxe hx
    have hset := setHole_same (t := t) (p := some y) hx
    exact ⟨by simpa [replaced,hxy] using hset.left,hset.right,by simp [replaced,hxy,hxe],by simp [replaced,hxy]⟩
  have hset := h.setHole (q := some y) (by grind)
  refine ⟨hset.congr (by simp [replaced]) (by simp [replaced]) fun x hx => ?_,by simpa [replaced] using hys,by simp [replaced],
    by simp [replaced,hye,up],by simp [replaced],?_,?_,?_⟩
  · have hxy : x ≠ y := by grind
    have hxe : x ≠ e := by grind
    exact ⟨by simp [replaced,hxy],by simp [replaced],by simp [replaced,hxy,hxe],by simp [replaced,hxy]⟩
  · have hset := setHole_same (t := t) (p := some y) (show y ∉ labels (f::fs) by grind)
    simpa [replaced] using hset.right.trans hy
  · refine hl.reparent (by simp [replaced]) (by grind) (fun x hx hxl => ?_) fun x hxl hx => ?_
    · obtain rfl : e = x := Option.some.inj (he.symm.trans hx)
      have hset := setHole_same (t := t) (p := some y) (show e ∉ labels (f::fs) by grind)
      exact ⟨by simpa [replaced,hye.symm] using hset.left,hset.right,by simp [replaced,hye.symm],by simp [replaced]⟩
    · refine hsame x (by grind) ?_ (by grind)
      rintro rfl
      exact hx he
  · exact hr.congr (by simp [replaced]) fun x hx => hsame x (by grind) (by grind) (by grind)

/-- What follows the detachment of the successor. -/
theorem replaceBySuccessor_eq {f : Frame ℕ} {e : ℕ} (h : RepCtx t (some n) (f::fs)) (hn : t.parent n = some f.label)
    (hns : n ≠ t.sentinel) (hc : t.color n = c) (hl : t.left n = some e) (hle : ptr t.sentinel l = some e)
    (hnfs : n ∉ labels (f::fs)) (hny : n ≠ y) :
    (do
      let t ← rbtreeTransplant t n y
      let t := t.setLeft y (t.left n)
      let t := t.setParent (← deref (t.left n)) (some y)
      return (t.setColor y (t.color n),x,d)) =
    (.ok (replaced t (f::fs) l c y f.label e,x,d) : Except Fault (RbtreeMem × ℕ × Color)) := by
  have hln : (setHole t (f::fs) (some y)).left n = some e := (setHole_same hnfs).left.trans hl
  simp only [rbtreeTransplant_eq h hn hnfs hns,bind,Except.bind,RbtreeMem.setLeft_left,RbtreeMem.setParent_left,hln,
    Function.update_of_ne hny,deref,orFault,pure,Except.pure,RbtreeMem.setParent_color,RbtreeMem.setLeft_color,
    setHole_color,hc]
  rw [replaced,hle]

/-! ### The first part of the deletion -/

/-- Where the hole is after the node has been taken out, what is in it, and the colour that is gone. -/
def spliced (fs : Ctx ℕ) (c : Color) (l r : CTree ℕ) : Ctx ℕ × CTree ℕ × Color :=
  match l,r with
  | .leaf,r => (fs,r,c)
  | .node cl ll a lr,.leaf => (fs,.node cl ll a lr,c)
  | .node cl ll a lr,.node cr rl b rr =>
    let (gs,d,y,q) := leftmost cr rl b rr []
    (gs ++ ⟨true,c,y,.node cl ll a lr⟩::fs,q,d)

theorem inorder_spliced (fs : Ctx ℕ) (c : Color) (l r : CTree ℕ) :
    (plug (spliced fs c l r).1 (spliced fs c l r).2.1).inorder = before fs ++ l.inorder ++ r.inorder ++ after fs := by
  cases l with
  | leaf => simp [spliced,inorder_plug]
  | node cl ll a lr =>
    cases r with
    | leaf => simp [spliced,inorder_plug]
    | node cr rl b rr =>
      have hplug := congrArg inorder (plug_leftmost cr rl b rr [])
      have hbefore := before_leftmost cr rl b rr []
      simp only [inorder_plug,hbefore,plug_nil,before,List.nil_append,inorder_node,inorder_leaf] at hplug
      simp only [spliced,plug_append,plug_cons,inorder_plug,Frame.inorder_fill,if_true,hbefore,before,List.nil_append,
        inorder_node]
      simp [← hplug]

/-- One child is missing: the other one takes the place of the node. -/
theorem splice_child {f : Frame ℕ} (h : Holds t (f::fs) (.node c l n r)) (hd : Distinct (f::fs) (.node c l n r))
    (hs : t.color t.sentinel = .black) (hV : Rep t (some n) V) (hsub : V.inorder.Sublist (l.inorder ++ r.inorder))
    (hv : ptr t.sentinel V = some v) :
    ∃ t', rbtreeTransplant t n v = .ok t' ∧ At t' (f::fs) V v ∧ Settled t t' := by
  have hdV : (n::(V.inorder ++ labels (f::fs))).Nodup := by
    simp only [Distinct,inorder_node] at hd
    have hperm : (n::(l.inorder ++ r.inorder ++ labels (f::fs))).Nodup := by
      simp only [List.nodup_cons,List.mem_append,List.nodup_append,List.mem_cons] at hd ⊢
      grind
    exact hperm.sublist ((hsub.append_right _).cons_cons n)
  refine ⟨_,rbtreeTransplant_eq h.1 (h.parent_eq node_ne_leaf rfl) (by grind) h.node_ne,
    ⟨transplant_spec h.1 hV hdV hv,?_,by simpa using hs,by simpa using hv,by simp [up]⟩,⟨by simp,by simp,by simp⟩⟩
  exact (List.nodup_cons.mp hdV).2

/-- The root of a tree with a hole below it does not depend on what is in the hole. -/
theorem ptr_plug (g : Frame ℕ) (gs : Ctx ℕ) (k : ℕ) : ∃ a ∈ labels (g::gs), ∀ U, ptr k (plug (g::gs) U) = some a := by
  induction gs generalizing g with
  | nil => exact ⟨g.label,by simp [labels],fun U => by simp⟩
  | cons g' gs ih =>
    obtain ⟨a,ha,hptr⟩ := ih g'
    exact ⟨a,by rw [labels]; simp [ha],fun U => hptr (g.fill U)⟩

theorem detachSuccessor_spec {gs : Ctx ℕ} {q : CTree ℕ}
    (h : Holds t (gs ++ ⟨true,c,n,l⟩::fs) (.node d .leaf y q))
    (hd : Distinct (gs ++ ⟨true,c,n,l⟩::fs) (.node d .leaf y q)) (hx : ptr t.sentinel q = some x) :
    ∃ t', detachSuccessor t n y x = .ok t' ∧ Rep t' (some y) (plug gs q) ∧ t'.right y = ptr t.sentinel (plug gs q) ∧
      (∀ z, z ≠ y → z ∉ (plug gs q).inorder → z ≠ t.sentinel → Same t t' z) ∧ t'.root = t.root ∧
      (q = .leaf → t'.parent t.sentinel = up (gs ++ [⟨true,c,y,l⟩])) ∧ Settled t t' := by
  have hq : Holds t (⟨true,d,y,.leaf⟩::gs ++ ⟨true,c,n,l⟩::fs) q := holds_cons.mpr h
  have hqd : Distinct (⟨true,d,y,.leaf⟩::gs ++ ⟨true,c,n,l⟩::fs) q := distinct_cons.mpr hd
  have hxne : ∀ z, z ≠ t.sentinel → z ∉ q.inorder → z ≠ x := by
    rintro z hz hzq rfl
    exact ptr_ne hz hzq hx
  have hright_y : t.right y = ptr t.sentinel q := hq.side_eq
  cases gs with
  | nil =>
    have hright_n : t.right n = some y := h.side_eq
    refine ⟨t.setParent x (some y),by simp [detachSuccessor,hright_n],?_,hright_y,fun z _ hzq hz => ?_,rfl,?_,⟨rfl,rfl,rfl⟩⟩
    · refine hq.2.reparent rfl (by have := hqd; simp only [Distinct] at this; grind) (fun z hz _ => ?_) fun z _ hz => ?_
      · obtain rfl : x = z := Option.some.inj (hx.symm.trans hz)
        exact ⟨rfl,rfl,rfl,by simp⟩
      · have hzx : z ≠ x := fun he => hz (he ▸ hx)
        exact ⟨rfl,rfl,by simp [hzx],rfl⟩
    · exact ⟨rfl,rfl,by simp [hxne z hz hzq],rfl⟩
    · rintro rfl
      obtain rfl : t.sentinel = x := Option.some.inj hx
      simp [up]
  | cons g gs =>
    obtain ⟨a,hag,hptr⟩ := ptr_plug g gs t.sentinel
    have hyn : y ≠ n ∧ y ∉ (plug (g::gs) q).inorder ∧ a ∈ (plug (g::gs) q).inorder ∧ g.label ∈ (plug (g::gs) q).inorder ∧
        (plug (g::gs) q).inorder.Nodup := by
      have hperm := inorder_plug_perm (g::gs) q
      have hin : Distinct (⟨true,c,n,l⟩::fs) (plug (g::gs) (.node d .leaf y q)) := distinct_append.mp hd
      have hperm' := inorder_plug_perm (g::gs) (.node d .leaf y q)
      have hnd := (hperm'.append_right (labels (⟨true,c,n,l⟩::fs))).nodup_iff.mp hin
      simp only [inorder_node,inorder_leaf,List.nil_append,List.cons_append,List.append_assoc,List.nodup_cons,
        List.mem_append] at hnd
      refine ⟨?_,?_,hperm.mem_iff.mpr (by simp [hag]),hperm.mem_iff.mpr (by simp [labels]),hperm.nodup_iff.mpr ?_⟩
      · rintro rfl
        exact hnd.1 (.inr (.inr (by simp [labels])))
      · rw [hperm.mem_iff]
        simp only [List.mem_append]
        tauto
      · exact hnd.2.sublist (by rw [← List.append_assoc]; exact List.sublist_append_left _ _)
    obtain ⟨hyn,hyR,haR,hgR,hR⟩ := hyn
    have hnode := holds_append.mp h
    have hright_n : some y ≠ t.right n := by
      rw [show t.right n = some a from hnode.side_eq.trans (hptr _)]
      rintro ⟨⟩
      exact hyR haR
    have hyl : y ∉ labels (g::gs ++ ⟨true,c,n,l⟩::fs) := by
      simp only [Distinct,inorder_node] at hd
      grind
    have htrans : rbtreeTransplant t y x =
        .ok ((setHole t (g::gs ++ ⟨true,c,n,l⟩::fs) (some x)).setParent x (some g.label)) :=
      rbtreeTransplant_eq (v := x) h.1 (h.parent_eq node_ne_leaf rfl) hyl h.node_ne
    have hV : Holds ((setHole t (g::gs ++ ⟨true,c,n,l⟩::fs) (some x)).setParent x (some g.label))
        (g::gs ++ ⟨true,c,n,l⟩::fs) q := transplant_spec (v := x) h.1 hq.2 (by
      simp only [Distinct,inorder_node,inorder_leaf,List.nil_append] at hd
      exact hd) hx
    have hplug : Holds _ (⟨true,c,n,l⟩::fs) (plug (g::gs) q) := holds_append.mp hV
    have ha : ((setHole t (g::gs ++ ⟨true,c,n,l⟩::fs) (some x)).setParent x (some g.label)).right n = some a := by
      refine Eq.trans (hplug.side_eq) ?_
      rw [RbtreeMem.setParent_sentinel,setHole_sentinel]
      exact hptr q
    have has : a ≠ t.sentinel := by simpa using hplug.2.ne_sentinel a haR
    refine ⟨(((setHole t (g::gs ++ ⟨true,c,n,l⟩::fs) (some x)).setParent x (some g.label)).setRight y (some a)).setParent a
      (some y),?_,?_,?_,fun z hzy hzR hz => ?_,?_,?_,by simp,by simp,by simp⟩
    · simp only [detachSuccessor,if_neg hright_n,htrans,bind,Except.bind,ha,RbtreeMem.setRight_right,
        Function.update_of_ne hyn.symm,deref,orFault]
      rfl
    · refine hplug.2.reparent rfl hR (fun z hz hzR => ?_) fun z hzR hz => ?_
      · obtain rfl : a = z := by
          rw [RbtreeMem.setParent_sentinel,setHole_sentinel,hptr] at hz
          exact Option.some.inj hz
        have hay : a ≠ y := fun he => hyR (he ▸ haR)
        exact ⟨rfl,by simp [hay],rfl,by simp⟩
      · have hza : z ≠ a := by
          rintro rfl
          exact hz (by rw [RbtreeMem.setParent_sentinel,setHole_sentinel,hptr])
        have hzy : z ≠ y := fun he => hyR (he ▸ hzR)
        exact ⟨rfl,by simp [hzy],by simp [hza],rfl⟩
    · rw [hptr]
      simp
    · have hza : z ≠ a := fun he => hzR (he ▸ haR)
      have hzg : z ≠ g.label := fun he => hzR (he ▸ hgR)
      have hzx : z ≠ x := hxne z hz fun hzq => hzR ((inorder_plug_perm (g::gs) q).mem_iff.mpr (by simp [hzq]))
      have hside : ∀ b, (setHole t (g::gs ++ ⟨true,c,n,l⟩::fs) (some x)).side b z = t.side b z :=
        fun b => side_setSide_of_ne hzg
      have hright : (setHole t (g::gs ++ ⟨true,c,n,l⟩::fs) (some x)).right z = t.right z := hside true
      exact ⟨hside false,by simpa [hzy] using hright,by simp [hza,hzx],by simp⟩
    · simp [setHole]
    · rintro rfl
      obtain rfl : t.sentinel = x := Option.some.inj hx
      simp [has.symm,up]

/-- The successor of a node with two children is the first node of the right one. -/
theorem successor_start {b : ℕ} {gs : Ctx ℕ} {cr : Color} {rl rr q : CTree ℕ}
    (h : Holds t fs (.node c l n (.node cr rl b rr))) (hd : Distinct fs (.node c l n (.node cr rl b rr)))
    (hleft : leftmost cr rl b rr [] = (gs,d,y,q)) :
    (∀ fuel, depth (.node cr rl b rr) ≤ fuel → rbtreeMin fuel t b = .ok y) ∧ Holds t (gs ++ ⟨true,c,n,l⟩::fs) (.node d .leaf y q) ∧
      Distinct (gs ++ ⟨true,c,n,l⟩::fs) (.node d .leaf y q) := by
  have hr : Holds t (⟨true,c,n,l⟩::fs) (.node cr rl b rr) := holds_cons.mpr h
  have hplug := plug_leftmost cr rl b rr []
  have happend := leftmost_append cr rl b rr [] (⟨true,c,n,l⟩::fs)
  rw [hleft] at hplug happend
  rw [List.nil_append] at happend
  refine ⟨fun fuel hfuel => ?_,holds_append.mpr (by rw [hplug]; exact hr),
    distinct_append.mpr (by rw [hplug]; exact distinct_cons.mpr hd)⟩
  rw [rbtreeMin_eq hr hfuel,happend]

theorem successor_nodup {gs : Ctx ℕ} {q : CTree ℕ} (hd : Distinct (gs ++ ⟨true,c,n,l⟩::fs) (.node d .leaf y q)) :
    (y::n::(l.inorder ++ (plug gs q).inorder ++ labels fs)).Nodup := by
  have hin : Distinct (⟨true,c,n,l⟩::fs) (plug gs (.node d .leaf y q)) := distinct_append.mp hd
  refine (List.Perm.nodup_iff ?_).mp hin
  refine List.perm_iff_count.mpr fun z => ?_
  have hpre := (inorder_plug_perm gs q).count_eq z
  have hpost := (inorder_plug_perm gs (.node d .leaf y q)).count_eq z
  simp only [labels,inorder_node,inorder_leaf,List.nil_append,List.count_append,List.count_cons] at hpre hpost ⊢
  omega

theorem deleteSplice_spec {f : Frame ℕ} (h : Holds t (f::fs) (.node c l n r))
    (hd : Distinct (f::fs) (.node c l n r)) (hs : t.color t.sentinel = .black) :
    ∃ t' x, (∀ fuel, depth r ≤ fuel → deleteSplice fuel t n = .ok (t',x,(spliced (f::fs) c l r).2.2)) ∧
      At t' (spliced (f::fs) c l r).1 (spliced (f::fs) c l r).2.1 x ∧ Settled t t' := by
  have hln : Rep t (some n) l := h.2.2.2.2.2.2.1
  have hrn : Rep t (some n) r := h.2.2.2.2.2.2.2
  obtain ⟨u,hu⟩ : ∃ u, ptr t.sentinel l = some u := by cases l <;> exact ⟨_,rfl⟩
  obtain ⟨v,hv⟩ : ∃ v, ptr t.sentinel r = some v := by cases r <;> exact ⟨_,rfl⟩
  have hleft : t.left n = some u := h.left_eq.trans hu
  have hright : t.right n = some v := h.right_eq.trans hv
  cases l with
  | leaf =>
    obtain rfl : t.sentinel = u := Option.some.inj hu
    obtain ⟨t',hrun,hat,hset⟩ := splice_child h hd hs hrn (by simp) hv
    refine ⟨t',v,fun fuel _ => ?_,hat,hset⟩
    simp only [deleteSplice,hleft,if_true,hright,deref,orFault,bind,Except.bind,hrun,h.node_color]
    rfl
  | node cl ll a lr =>
    obtain rfl : a = u := Option.some.inj hu
    have ha : a ≠ t.sentinel := hln.1
    cases r with
    | leaf =>
      obtain rfl : t.sentinel = v := Option.some.inj hv
      obtain ⟨t',hrun,hat,hset⟩ := splice_child h hd hs hln (by simp) hu
      refine ⟨t',a,fun fuel _ => ?_,hat,hset⟩
      simp only [deleteSplice,hleft,hright,Option.some.injEq,ha,if_false,if_true,deref,orFault,bind,Except.bind,hrun,
        h.node_color]
      rfl
    | node cr rl b rr =>
      obtain rfl : b = v := Option.some.inj hv
      have hb : b ≠ t.sentinel := hrn.1
      simp only [spliced]
      generalize hz : leftmost cr rl b rr [] = z
      obtain ⟨gs,d,y,q⟩ := z
      obtain ⟨hmin,hy,hyd⟩ := successor_start h hd hz
      obtain ⟨x,hx⟩ : ∃ x, ptr t.sentinel q = some x := by cases q <;> exact ⟨_,rfl⟩
      obtain ⟨t₁,hdetach,hR,hRy,hsame,hroot,hscratch,hset⟩ := detachSuccessor_spec hy hyd hx
      have hnd := successor_nodup hyd
      have hl_leaf : (CTree.node cl ll a lr) ≠ .leaf := node_ne_leaf
      generalize hL : CTree.node cl ll a lr = L at *
      have hs₁ : t₁.sentinel = t.sentinel := hset.sentinel
      simp only [List.nodup_cons,List.mem_cons,List.mem_append,List.nodup_append,not_or] at hnd
      have hctx : RepCtx t₁ (some n) (f::fs) := h.1.congr hs₁ hroot fun z hz =>
        hsame z (by grind) (by grind) (h.1.ne_sentinel z hz)
      have hL₁ : Rep t₁ (some n) L := hln.congr hs₁ fun z hz => hsame z (by grind) (by grind) (hln.ne_sentinel z hz)
      have hn₁ : Same t t₁ n := hsame n (by grind) (by grind) h.node_ne
      have hLe : ptr t₁.sentinel L = some a := by rw [hs₁,hu]
      have hys : y ≠ t.sentinel := hy.node_ne
      have hfinal := replaced_spec (c := c) hctx hL₁ hR (by rw [hs₁,hRy]) (by rwa [hs₁]) hLe hl_leaf (by
        simp only [List.nodup_cons,List.mem_cons,List.mem_append,List.nodup_append,not_or]
        exact hnd)
      have hrun := replaceBySuccessor_eq (x := x) (d := d) hctx (hn₁.parent.trans (h.parent_eq node_ne_leaf rfl))
        (by rw [hs₁]; exact h.node_ne) (hn₁.color.trans h.node_color) (hn₁.left.trans hleft) hLe (by grind) (by grind : n ≠ y)
      refine ⟨replaced t₁ (f::fs) L c y f.label a,x,fun fuel hfuel => ?_,?_,?_⟩
      · have hxy : t.right y = some x := hy.right_eq.trans hx
        simp only [deleteSplice,hleft,hright,Option.some.injEq,ha,hb,if_false,deref,orFault,bind,Except.bind,hmin fuel hfuel,
          hy.node_color,hxy,hdetach]
        exact hrun
      · have hq : Holds (replaced t₁ (f::fs) L c y f.label a) (gs ++ ⟨true,c,y,L⟩::f::fs) q :=
          holds_append.mpr (holds_cons.mpr hfinal)
        have hqd : Distinct (gs ++ ⟨true,c,y,L⟩::f::fs) q := by
          refine distinct_append.mpr (distinct_cons.mpr ?_)
          simp only [Distinct,Frame.fill,if_true,inorder_node,List.nodup_append,List.nodup_cons,List.mem_append,List.mem_cons]
          grind
        refine ⟨hq,hqd,by simpa [replaced,hs₁,hys.symm] using hset.sentinel_color.trans hs,by simpa [replaced,hs₁] using hx,?_⟩
        by_cases hleaf : q = .leaf
        · subst hleaf
          obtain rfl : t.sentinel = x := Option.some.inj hx
          have hscr := hscratch rfl
          have hup : up (gs ++ ⟨true,c,y,L⟩::f::fs) = up (gs ++ [⟨true,c,y,L⟩]) := by cases gs <;> rfl
          rw [hup]
          simpa [replaced,hys.symm,ha.symm,up] using hscr
        · exact hq.parent_eq hleaf (by simpa [replaced,hs₁] using hx)
      · refine hset.trans ⟨by simp [replaced],by simp [replaced],?_⟩
        simp [replaced,hs₁,hys.symm]

theorem short_of_balanced {k : ℕ} (h : X.Balanced k) : Short X k := by
  rw [Short]
  cases hX : X.color with
  | red => exact h.paint_black hX
  | black => exact h

/-- The context and the tree in the hole are right but for the black node that is gone. -/
def SplicedBalanced (gs : Ctx ℕ) (X : CTree ℕ) : Color → Prop
  | .red => ∃ k, X.Balanced k ∧ X.color = .black ∧ CtxBalanced gs k
  | .black => ∃ k, Short X k ∧ CtxBalanced gs (k+1)

theorem splicedBalanced_child {k : ℕ} (hfs : CtxBalanced fs k) (h : (CTree.node c l n r).Balanced k)
    (hV : (V = l ∧ r = .leaf) ∨ (V = r ∧ l = .leaf)) : SplicedBalanced fs V c := by
  have hside : V.Balanced k ∧ V.color = .black ∧ c = .red ∨ ∃ m, k = m + 1 ∧ V.Balanced m ∧ c = .black := by
    cases c with
    | red =>
      obtain ⟨hlc,hrc,hl,hr⟩ := balanced_red.mp h
      rcases hV with ⟨rfl,-⟩ | ⟨rfl,-⟩
      · exact .inl ⟨hl,hlc,rfl⟩
      · exact .inl ⟨hr,hrc,rfl⟩
    | black =>
      obtain ⟨m,rfl,hl,hr⟩ := h
      rcases hV with ⟨rfl,-⟩ | ⟨rfl,-⟩
      · exact .inr ⟨m,rfl,hl,rfl⟩
      · exact .inr ⟨m,rfl,hr,rfl⟩
  obtain ⟨hb,hc,rfl⟩ | ⟨m,rfl,hm,rfl⟩ := hside
  · exact ⟨k,hb,hc,hfs⟩
  · exact ⟨m,short_of_balanced hm,hfs⟩

theorem splicedBalanced (h : (∃ k, (plug fs (.node c l n r)).Balanced k) ∧ (plug fs (.node c l n r)).color = .black) :
    SplicedBalanced (spliced fs c l r).1 (spliced fs c l r).2.1 (spliced fs c l r).2.2 := by
  cases l with
  | leaf =>
    obtain ⟨k,hk,hfs,-⟩ := (balanced_plug_iff _ _).mp h
    exact splicedBalanced_child hfs hk (.inr ⟨rfl,rfl⟩)
  | node cl ll a lr =>
    cases r with
    | leaf =>
      obtain ⟨k,hk,hfs,-⟩ := (balanced_plug_iff _ _).mp h
      exact splicedBalanced_child hfs hk (.inl ⟨rfl,rfl⟩)
    | node cr rl b rr =>
      have hplug := plug_leftmost cr rl b rr []
      simp only [spliced]
      generalize leftmost cr rl b rr [] = z at hplug ⊢
      obtain ⟨gs,d,y,q⟩ := z
      have hwhole : plug (gs ++ ⟨true,c,n,.node cl ll a lr⟩::fs) (.node d .leaf y q) =
          plug fs (.node c (.node cl ll a lr) n (.node cr rl b rr)) := by
        rw [plug_append,plug_cons,hplug]
        rfl
      rw [← hwhole] at h
      obtain ⟨k,hk,hfs,-⟩ := (balanced_plug_iff _ _).mp h
      exact splicedBalanced_child (ctxBalanced_relabel hfs) hk (.inr ⟨rfl,rfl⟩)

/-! ### The whole deletion -/

/-- `ngx_rbtree_delete` returns, and then the memory holds a red-black tree with the old nodes
but the deleted one, in their order. -/
def DeletesFrom (t : RbtreeMem) (T : CTree ℕ) (n : ℕ) : Prop :=
  ∃ t' T', Returns (fun fuel => rbtreeDelete fuel t n) t' ∧ IsRbtree t' T' ∧ T'.inorder = T.inorder.erase n ∧
    (∀ a, a ≠ n → t'.key a = t.key a) ∧ t'.sentinel = t.sentinel

/-- The stores to the deleted node. -/
def cleared (t : RbtreeMem) (n : ℕ) : RbtreeMem :=
  (((t.setLeft n none).setRight n none).setParent n none).setKey n 0

theorem At.cleared (h : At t fs X x) (hn : n ∉ X.inorder ++ labels fs) (hns : n ≠ t.sentinel) :
    At (cleared t n) fs X x := by
  refine ⟨h.holds.congr rfl rfl fun a ha => ?_,h.distinct,h.black,h.node,?_⟩
  · have han : a ≠ n := fun he => hn (he ▸ ha)
    exact ⟨by simp [Rbtree.cleared,han],by simp [Rbtree.cleared,han],by simp [Rbtree.cleared,han],rfl⟩
  · have hxn : x ≠ n := by
      rintro rfl
      exact ptr_ne hns (fun hX => hn (by simp [hX])) h.node
    simpa [Rbtree.cleared,hxn] using h.parent

theorem rbtreeDelete_eq {fuel : ℕ} (h : deleteSplice fuel t n = .ok (t',x,d)) :
    rbtreeDelete fuel t n = if d = .red then .ok (cleared t' n) else deleteFixup fuel (cleared t' n) x := by
  simp only [rbtreeDelete,h,bind,Except.bind]
  rfl

/-- The root has no parent that `ngx_rbtree_transplant` could read. -/
theorem rbtreeDelete_root {fuel : ℕ} (h : Holds t [] (.node c l n r)) (hd : Distinct [] (.node c l n r))
    (hfuel : depth r ≤ fuel) : rbtreeDelete fuel t n ≠ .ok t' := by
  have hn : t.parent n = none := h.parent_eq node_ne_leaf rfl
  intro hrun
  obtain ⟨⟨t₁,x,e⟩,hsplice,-⟩ := bind_ok hrun
  unfold deleteSplice at hsplice
  split at hsplice
  · obtain ⟨v,-,hsplice⟩ := bind_ok hsplice
    obtain ⟨t₂,htrans,-⟩ := bind_ok hsplice
    rw [rbtreeTransplant_root hn] at htrans
    cases htrans
  · split at hsplice
    · obtain ⟨v,-,hsplice⟩ := bind_ok hsplice
      obtain ⟨t₂,htrans,-⟩ := bind_ok hsplice
      rw [rbtreeTransplant_root hn] at htrans
      cases htrans
    · obtain ⟨b,hb,hsplice⟩ := bind_ok hsplice
      obtain ⟨y,hy,hsplice⟩ := bind_ok hsplice
      obtain ⟨v,hv,hsplice⟩ := bind_ok hsplice
      obtain ⟨t₂,hdetach,hsplice⟩ := bind_ok hsplice
      obtain ⟨t₃,htrans,-⟩ := bind_ok hsplice
      cases r with
      | leaf => exact absurd h.right_eq ‹_›
      | node cr rl b' rr =>
        obtain rfl : b' = b := Option.some.inj (h.right_eq.symm.trans (deref_ok hb))
        rcases hz : leftmost cr rl b' rr [] with ⟨gs,e',y',q⟩
        obtain ⟨hmin,hholds,hdist⟩ := successor_start h hd hz
        obtain rfl : y = y' := Except.ok.inj (hy.symm.trans (hmin fuel hfuel))
        have hx : ptr t.sentinel q = some v := hholds.right_eq.symm.trans (deref_ok hv)
        obtain ⟨t₁',hrun',-,-,hsame,-⟩ := detachSuccessor_spec hholds hdist hx
        obtain rfl : t₁' = t₂ := Except.ok.inj (hrun'.symm.trans hdetach)
        have hnd := successor_nodup hdist
        simp only [List.nodup_cons,List.mem_cons,List.mem_append,not_or] at hnd
        rw [rbtreeTransplant_root ((hsame n (Ne.symm hnd.1.1) hnd.2.1.1.2 h.node_ne).parent.trans hn)] at htrans
        cases htrans

/-- The deletion of a node that is not the root needs no right-hand rotation. -/
def DeletesSafely (fs : Ctx ℕ) (c : Color) (l r : CTree ℕ) : Prop :=
  fs ≠ [] ∧ ((spliced fs c l r).2.2 = .red ∨ LeftHanded (spliced fs c l r).2.1.color (spliced fs c l r).1)

section
variable (h : IsRbtree t (plug fs (.node c l n r)))

theorem inorder_erase (hd : (plug fs (.node c l n r)).inorder.Nodup) :
    (plug (spliced fs c l r).1 (spliced fs c l r).2.1).inorder = (plug fs (.node c l n r)).inorder.erase n := by
  rw [inorder_spliced,inorder_plug,inorder_node]
  rw [inorder_plug,inorder_node] at hd
  have hn : n ∉ before fs ++ l.inorder := by grind
  have hassoc : before fs ++ (l.inorder ++ n::r.inorder) ++ after fs =
      (before fs ++ l.inorder) ++ n::(r.inorder ++ after fs) := by simp
  rw [hassoc,List.erase_append_right _ hn,List.erase_cons_head]
  simp

include h in
theorem isRbtree_after {T' : CTree ℕ} (hholds : Holds t' [] T') (hbal : ∃ k, T'.Balanced k) (hroot : T'.color = .black)
    (hin : T'.inorder = (plug fs (.node c l n r)).inorder.erase n) (hkey : t'.key = Function.update t.key n 0)
    (hs : t'.color t'.sentinel = .black) : IsRbtree t' T' := by
  have hsub := List.erase_sublist (a := n) (l := (plug fs (.node c l n r)).inorder)
  have hkeys : T'.inorder.map t'.key = T'.inorder.map t.key := by
    refine List.map_congr_left fun a ha => ?_
    have han : a ≠ n := by
      rw [hin] at ha
      exact (List.Nodup.mem_erase_iff h.nodup).mp ha |>.1
    simp [hkey,han]
  refine ⟨hholds,by rw [hin]; exact h.nodup.sublist hsub,?_,hbal,hroot,hs⟩
  rw [hkeys,hin]
  exact h.sorted.sublist (hsub.map t.key)

include h in
/-- The memory at the hole, after the stores to the deleted node. -/
theorem delete_start (hfs : fs ≠ []) : ∃ t' x, (∀ fuel, depth r ≤ fuel →
      rbtreeDelete fuel t n = if (spliced fs c l r).2.2 = .red then .ok t' else deleteFixup fuel t' x) ∧
    At t' (spliced fs c l r).1 (spliced fs c l r).2.1 x ∧ t'.key = Function.update t.key n 0 ∧
    t'.sentinel = t.sentinel := by
  obtain ⟨f,fs,rfl⟩ := List.exists_cons_of_ne_nil hfs
  have hholds := holds_plug.mpr h.holds
  obtain ⟨t₁,x,hrun,hat,hset⟩ := deleteSplice_spec hholds (distinct_iff.mpr h.nodup) h.sentinel_black
  have hn : n ∉ (spliced (f::fs) c l r).2.1.inorder ++ labels (spliced (f::fs) c l r).1 := by
    intro hmem
    have hin := (inorder_plug_perm (spliced (f::fs) c l r).1 (spliced (f::fs) c l r).2.1).mem_iff.mpr hmem
    rw [inorder_erase h.nodup] at hin
    exact ((List.Nodup.mem_erase_iff h.nodup).mp hin).1 rfl
  refine ⟨cleared t₁ n,x,fun fuel hfuel => rbtreeDelete_eq (hrun fuel hfuel),
    hat.cleared hn (by rw [hset.sentinel]; exact hholds.node_ne),?_,hset.sentinel⟩
  simp [cleared,hset.key]

include h in
theorem deletesFrom_of_safely (hsafe : DeletesSafely fs c l r) :
    DeletesFrom t (plug fs (.node c l n r)) n := by
  obtain ⟨hfs,hgood⟩ := hsafe
  obtain ⟨t₁,x,hrun,hat,hkey,hs⟩ := delete_start h hfs
  have hbal := splicedBalanced ⟨h.balanced,h.root_black⟩
  have hin := inorder_erase h.nodup
  generalize hd : (spliced fs c l r).2.2 = d at hrun hgood hbal
  cases d with
  | red =>
    obtain ⟨k,hX,hXc,hctx⟩ := hbal
    obtain ⟨hwhole,hroot⟩ := (balanced_plug_iff _ _).mpr ⟨k,hX,hctx,by simp [hXc]⟩
    refine ⟨t₁,_,⟨depth r,fun fuel hfuel => hrun fuel hfuel⟩,
      isRbtree_after h (holds_plug.mp hat.holds) hwhole hroot hin hkey hat.black,hin,fun a ha => ?_,hs⟩
    simp [hkey,ha]
  | black =>
    obtain ⟨k,hshort,hctx⟩ := hbal
    obtain ⟨t',T',hfix,hmended⟩ := deleteFixup_good _ hat hshort hctx (hgood.resolve_left (by simp))
    refine ⟨t',T',⟨max (depth r) ((spliced fs c l r).1.length + 1),fun fuel hfuel => ?_⟩,
      isRbtree_after h hmended.holds hmended.balanced hmended.root_black (hmended.inorder.trans hin)
        (hmended.settled.key.trans hkey) ?_,hmended.inorder.trans hin,fun a ha => ?_,hmended.settled.sentinel.trans hs⟩
    · exact (hrun fuel (le_trans (le_max_left _ _) hfuel)).trans
        (hfix fuel (lt_of_lt_of_le (Nat.lt_succ_self _) (le_trans (le_max_right _ _) hfuel)))
    · rw [hmended.settled.sentinel,hmended.settled.sentinel_color]
      exact hat.black
    · simp [hmended.settled.key,hkey,ha]

include h in
theorem not_deletesFrom (hbad : ¬ DeletesSafely fs c l r) : ¬ DeletesFrom t (plug fs (.node c l n r)) n := by
  rintro ⟨t',T',⟨k,hret⟩,htree,hin,-,-⟩
  have hret : rbtreeDelete (max k (depth r)) t n = .ok t' := hret _ (le_max_left _ _)
  by_cases hfs : fs = []
  · subst hfs
    exact rbtreeDelete_root h.holds (distinct_nil.mpr h.nodup) (le_max_right _ _) hret
  · obtain ⟨t₁,x,hrun,hat,hkey,hs⟩ := delete_start h hfs
    have hbal := splicedBalanced ⟨h.balanced,h.root_black⟩
    simp only [DeletesSafely,not_and_or,not_or] at hbad
    obtain ⟨hblack,hleft⟩ := hbad.resolve_left fun hne => hne hfs
    have hd : (spliced fs c l r).2.2 = .black := by
      cases hd : (spliced fs c l r).2.2 with
      | red => exact (hblack hd).elim
      | black => rfl
    rw [hd] at hbal
    obtain ⟨k,hshort,hctx⟩ := hbal
    rw [hrun _ (le_max_right _ _),if_neg hblack] at hret
    obtain ⟨gs,y,hstale,hsub⟩ := deleteFixup_stale _ hat hshort hctx hleft hret
    refine hstale.not_holds (fun z hz => ?_) htree.holds
    rw [hin,← inorder_erase h.nodup]
    exact (inorder_plug_perm _ _).mem_iff.mpr (List.mem_append_right _ (hsub hz))

end

/-- A deletion from a red-black tree is right exactly when the node is not the root and the fixup
comes to no right-hand branch that rotates. -/
theorem deletesFrom_iff (h : IsRbtree t T) (hn : n ∈ T.inorder) : DeletesFrom t T n ↔
    ∃ fs c l r, T = plug fs (.node c l n r) ∧ DeletesSafely fs c l r := by
  constructor
  · intro hdel
    obtain ⟨fs,c,l,r,rfl⟩ := exists_plug hn
    exact ⟨fs,c,l,r,rfl,by_contra fun hbad => not_deletesFrom h hbad hdel⟩
  · rintro ⟨fs,c,l,r,rfl,hsafe⟩
    exact deletesFrom_of_safely h hsafe

theorem deletesFrom_iff_leaning : DeletesFrom leaning (.node .black (.node .red .leaf 2 .leaf) 3 .leaf) 2 :=
  (deletesFrom_iff leaning_isRbtree (by decide)).mpr
    ⟨[⟨false,.black,3,.leaf⟩],.red,.leaf,.leaf,rfl,by simp,.inl rfl⟩

/-- The root cannot be deleted. -/
theorem leaning_root_stays : ¬ ∀ (t : RbtreeMem) (T : CTree ℕ) (n : ℕ), IsRbtree t T → n ∈ T.inorder → DeletesFrom t T n := by
  intro hall
  have h : IsRbtree leaning (plug [] (.node .black (.node .red .leaf 2 .leaf) 3 .leaf)) := leaning_isRbtree
  exact not_deletesFrom h (fun hsafe => hsafe.1 rfl) (hall leaning _ 3 h (by decide))

end InsideNginx.Rbtree
