import Mathlib.Data.List.Chain
import Mathlib.Data.List.Nodup
import Mathlib.Data.List.Perm.Basic
import Mathlib.Data.List.Range
import Mathlib.Logic.Function.Iterate

/-! Doubly linked rings: the sequence that lies between a node and itself, and how it changes when
two nodes are joined. -/

/-- The pointers of all nodes. -/
structure Links (Addr : Type*) where
  prev : Addr → Addr
  next : Addr → Addr

namespace Links
variable {Addr : Type*} {m : Links Addr} {a b c d s x n q : Addr} {l xs ys : List Addr}

/-- `b` is the next node of `a`. -/
def Link (m : Links Addr) (a b : Addr) : Prop := m.next a = b ∧ m.prev b = a

/-- From `s` on the nodes of `xs` follow, and then `s` again. -/
structure Ring (m : Links Addr) (s : Addr) (xs : List Addr) : Prop where
  nodup : (s::xs).Nodup
  chain : (s::xs ++ [s]).IsChain m.Link

theorem exists_last (s : Addr) (xs : List Addr) : ∃ l b, s::xs = l ++ [b] :=
  ⟨_,_,(List.dropLast_append_getLast (List.cons_ne_nil s xs)).symm⟩

theorem exists_first (s : Addr) (xs : List Addr) : ∃ a l, xs ++ [s] = a::l :=
  List.exists_cons_of_ne_nil (List.append_ne_nil_of_right_ne_nil xs (List.cons_ne_nil s []))

theorem cons_append_eq (hl : s::xs = l ++ [b]) (ys : List Addr) : s::(xs ++ ys) = l ++ b::ys := by
  rw [← List.cons_append,hl,List.append_assoc,List.singleton_append]

theorem perm_rotate (s : Addr) (xs : List Addr) (q : Addr) (ys : List Addr) :
    (s::(xs ++ q::ys)).Perm (q::(ys ++ s::xs)) := by
  rw [← List.cons_append,← List.cons_append]
  exact List.perm_append_comm

/-- A ring may be seen from any of its nodes. -/
theorem Ring.rotate (h : m.Ring s (xs ++ q::ys)) : m.Ring q (ys ++ s::xs) := by
  refine ⟨?_,?_⟩
  · exact (perm_rotate s xs q ys).nodup_iff.mp h.nodup
  · have hchain : ((s::xs) ++ q::(ys ++ [s])).IsChain m.Link := by simpa using h.chain
    obtain ⟨hleft,hright⟩ := List.isChain_split.mp hchain
    have hsplit : ((q::ys) ++ s::(xs ++ [q])).IsChain m.Link := List.isChain_split.mpr ⟨hright,hleft⟩
    simpa using hsplit

theorem Ring.link_last (h : m.Ring s xs) (hl : s::xs = l ++ [b]) : m.Link b s := by
  have hchain := h.chain
  rw [hl,List.append_assoc,List.singleton_append] at hchain
  exact (List.isChain_append_cons_cons.mp hchain).2.1

theorem Ring.link_first (h : m.Ring s xs) (hl : xs ++ [s] = a::l) : m.Link s a := by
  have hchain := h.chain
  rw [List.cons_append,hl] at hchain
  exact (List.isChain_cons_cons.mp hchain).1

/-- What the pointers of the sentinel are. -/
theorem Ring.sentinel (h : m.Ring s xs) : m.next s = xs.head?.getD s ∧ m.prev s = xs.getLast?.getD s := by
  constructor
  · cases xs with
    | nil => exact (h.link_first rfl).1
    | cons a l => exact (h.link_first rfl).1
  · rcases xs.eq_nil_or_concat' with rfl | ⟨l,b,rfl⟩
    · exact (h.link_last (l := []) rfl).2
    · rw [List.getLast?_concat]
      exact (h.link_last (List.cons_append ..).symm).2

/-- What the pointers of an element are. -/
theorem Ring.pointers (h : m.Ring s (xs ++ q::ys)) : m.next q = ys.head?.getD s ∧ m.prev q = xs.getLast?.getD s := by
  obtain ⟨hnext,hprev⟩ := h.rotate.sentinel
  rw [hnext,hprev]
  constructor
  · cases ys <;> rfl
  · rw [List.getLast?_append_cons]
    rcases xs.eq_nil_or_concat' with rfl | ⟨l,b,rfl⟩
    · rfl
    · rw [← List.cons_append,List.getLast?_concat,List.getLast?_concat]
      rfl

theorem Ring.at_node (h : m.Ring s xs) (hx : x ∈ s::xs) : ∃ ys, m.Ring x ys ∧ ∀ z, z ∈ x::ys ↔ z ∈ s::xs := by
  rcases List.mem_cons.mp hx with rfl | hx
  · exact ⟨xs,h,fun _ => Iff.rfl⟩
  · obtain ⟨ys,zs,rfl⟩ := List.append_of_mem hx
    exact ⟨zs ++ s::ys,h.rotate,fun z => (perm_rotate x zs s ys).mem_iff⟩

theorem Ring.link_next (h : m.Ring s xs) (hx : x ∈ s::xs) : m.Link x (m.next x) ∧ m.next x ∈ s::xs := by
  obtain ⟨ys,hring,hmem⟩ := h.at_node hx
  obtain ⟨a,l,hl⟩ := exists_first x ys
  have hlink := hring.link_first hl
  have ha : a ∈ ys ++ [x] := hl ▸ List.mem_cons_self
  rw [hlink.1]
  exact ⟨hlink,(hmem a).mp (by simpa [or_comm] using ha)⟩

theorem Ring.link_prev (h : m.Ring s xs) (hx : x ∈ s::xs) : m.Link (m.prev x) x ∧ m.prev x ∈ s::xs := by
  obtain ⟨ys,hring,hmem⟩ := h.at_node hx
  obtain ⟨l,b,hl⟩ := exists_last x ys
  have hlink := hring.link_last hl
  rw [hlink.2]
  exact ⟨hlink,(hmem b).mp (hl ▸ List.mem_concat_self)⟩

/-- The pointers of a ring are inverse to each other. -/
theorem Ring.inverse (h : m.Ring s xs) (hx : x ∈ s::xs) : m.next (m.prev x) = x ∧ m.prev (m.next x) = x :=
  ⟨(h.link_prev hx).1.1,(h.link_next hx).1.2⟩

/-- Following the pointers one visits the nodes of the ring in order. -/
theorem Ring.visit (h : m.Ring s xs) : (List.range (xs.length + 1)).map (fun i => m.next^[i] s) = s::xs ∧
    m.next^[xs.length + 1] s = s := by
  have hvisit : ∀ {l a}, (a::l).IsChain m.Link → (List.range (l.length + 1)).map (fun i => m.next^[i] a) = a::l := by
    intro l
    induction l with
    | nil => exact fun _ => rfl
    | cons b l ih =>
      intro a hl
      obtain ⟨hlink,hrest⟩ := List.isChain_cons_cons.mp hl
      have hnext := ih hrest
      rw [List.length_cons,List.range_succ_eq_map,List.map_cons,List.map_map]
      simpa [Function.comp_def,Function.iterate_succ_apply,hlink.1] using hnext
  have hall := hvisit (l := xs ++ [s]) h.chain
  rw [List.length_append,List.length_singleton,List.range_succ,List.map_append,← List.cons_append] at hall
  have hparts := List.append_inj hall (by simp)
  exact ⟨hparts.1,by simpa using hparts.2⟩

theorem Ring.iterate (h : m.Ring s xs) {i : ℕ} (hi : i ≤ xs.length) : (s::xs)[i]? = some (m.next^[i] s) := by
  have hlt : i < xs.length + 1 := Nat.lt_succ_of_le hi
  rw [← h.visit.1,List.getElem?_map,List.getElem?_range hlt]
  rfl

/-- The walk is at the last node when it has visited them all. -/
theorem Ring.iterate_eq_prev (h : m.Ring s xs) {i : ℕ} (hi : i ≤ xs.length) : m.next^[i] s = m.prev s ↔ i = xs.length := by
  have hlast : m.next^[xs.length] s = m.prev s := by
    have hback : m.next (m.next^[xs.length] s) = s := by
      rw [← Function.iterate_succ_apply' m.next]
      exact h.visit.2
    have hprev := (h.inverse (List.mem_of_getElem? (h.iterate le_rfl))).2
    rwa [hback,eq_comm] at hprev
  rw [← hlast]
  constructor
  · intro heq
    have hget : (s::xs)[i]? = (s::xs)[xs.length]? := by rw [h.iterate hi,h.iterate le_rfl,heq]
    exact (List.getElem?_inj (Nat.lt_succ_of_le hi) h.nodup).mp hget
  · rintro rfl
    rfl

theorem Ring.of_visit (hnodup : (s::xs).Nodup) (hinverse : ∀ x ∈ s::xs, m.prev (m.next x) = x)
    (hvisit : (List.range (xs.length + 1)).map (fun i => m.next^[i] s) = s::xs) (hback : m.next^[xs.length + 1] s = s) :
    m.Ring s xs := by
  refine ⟨hnodup,?_⟩
  have hall : s::xs ++ [s] = (List.range (xs.length + 2)).map fun i => m.next^[i] s := by
    rw [List.range_succ,List.map_append,hvisit,List.map_singleton,hback]
  rw [hall,List.isChain_iff_getElem]
  intro i hi
  have hlt : i < xs.length + 1 := by simpa using hi
  have hmem : m.next^[i] s ∈ s::xs := hvisit ▸ List.mem_map.mpr ⟨i,List.mem_range.mpr hlt,rfl⟩
  simp only [List.getElem_map,List.getElem_range,Function.iterate_succ_apply']
  exact ⟨rfl,hinverse _ hmem⟩

/-- The pointers of all nodes but those in `l` are the same. -/
def SameOff (l : List Addr) (m m' : Links Addr) : Prop := ∀ z ∉ l, m'.next z = m.next z ∧ m'.prev z = m.prev z

theorem SameOff.trans {m' m'' : Links Addr} (h : SameOff l m m') (h' : SameOff l m' m'') : SameOff l m m'' :=
  fun z hz => ⟨(h' z hz).1.trans (h z hz).1,(h' z hz).2.trans (h z hz).2⟩

theorem Ring.same_off {m' : Links Addr} (h : m.Ring s xs) (hsame : SameOff l m m') (hl : ∀ z ∈ s::xs, z ∉ l) :
    m'.Ring s xs := by
  refine ⟨h.nodup,h.chain.imp_of_mem_imp fun a b ha hb hlink => ?_⟩
  have hmem : ∀ z ∈ s::xs ++ [s], z ∈ s::xs := fun z hz => by simpa [or_comm] using hz
  exact ⟨(hsame a (hl a (hmem a ha))).1.trans hlink.1,(hsame b (hl b (hmem b hb))).2.trans hlink.2⟩

/-- A ring with its sequence says what the pointers of its nodes are. -/
theorem Ring.links_eq {m' : Links Addr} (h : m.Ring s xs) (h' : m'.Ring s xs) (hx : x ∈ s::xs) :
    m'.next x = m.next x ∧ m'.prev x = m.prev x := by
  have hsentinel : ∀ {s xs}, m.Ring s xs → m'.Ring s xs → m'.next s = m.next s ∧ m'.prev s = m.prev s := by
    intro s xs h h'
    obtain ⟨a,r,hr⟩ := exists_first s xs
    obtain ⟨l,b,hl⟩ := exists_last s xs
    exact ⟨(h'.link_first hr).1.trans (h.link_first hr).1.symm,(h'.link_last hl).2.trans (h.link_last hl).2.symm⟩
  rcases List.mem_cons.mp hx with rfl | hx
  · exact hsentinel h h'
  · obtain ⟨ys,zs,rfl⟩ := List.append_of_mem hx
    exact hsentinel h.rotate h'.rotate

variable [DecidableEq Addr]

instance (m : Links Addr) (a b : Addr) : Decidable (m.Link a b) := inferInstanceAs (Decidable (_ ∧ _))

def setPrev (m : Links Addr) (a b : Addr) : Links Addr := { m with prev := Function.update m.prev a b }

def setNext (m : Links Addr) (a b : Addr) : Links Addr := { m with next := Function.update m.next a b }

@[simp] theorem prev_setPrev (m : Links Addr) (a b c : Addr) :
    (m.setPrev a b).prev c = if c = a then b else m.prev c := Function.update_apply ..

@[simp] theorem next_setPrev (m : Links Addr) (a b : Addr) : (m.setPrev a b).next = m.next := rfl

@[simp] theorem next_setNext (m : Links Addr) (a b c : Addr) :
    (m.setNext a b).next c = if c = a then b else m.next c := Function.update_apply ..

@[simp] theorem prev_setNext (m : Links Addr) (a b : Addr) : (m.setNext a b).prev = m.prev := rfl

/-- Make `b` the next node of `a`. -/
def join (m : Links Addr) (a b : Addr) : Links Addr := (m.setNext a b).setPrev b a

@[simp] theorem next_join (m : Links Addr) (a b c : Addr) : (m.join a b).next c = if c = a then b else m.next c := by
  simp [join]

@[simp] theorem prev_join (m : Links Addr) (a b c : Addr) : (m.join a b).prev c = if c = b then a else m.prev c := by
  simp [join]

theorem link_join (m : Links Addr) (a b : Addr) : (m.join a b).Link a b := by simp [Link]

theorem Link.join (h : m.Link c d) (hc : a ≠ c) (hd : b ≠ d) : (m.join a b).Link c d := by
  simpa [Link,hc.symm,hd.symm] using h

/-- A chain is not broken where neither of the joined nodes has its pointer in it. -/
theorem chain_join (h : l.IsChain m.Link) (ha : a ∉ l.dropLast) (hb : b ∉ l.tail) : l.IsChain (m.join a b).Link := by
  induction l with
  | nil => exact .nil
  | cons c l ih =>
    cases l with
    | nil => exact .singleton c
    | cons d l =>
      obtain ⟨hlink,hrest⟩ := List.isChain_cons_cons.mp h
      rw [List.dropLast_cons_cons,List.mem_cons,not_or] at ha
      rw [List.tail_cons,List.mem_cons,not_or] at hb
      exact List.isChain_cons_cons.mpr ⟨hlink.join ha.1 hb.1,ih hrest ha.2 hb.2⟩

theorem sameOff_join (ha : a ∈ l) (hb : b ∈ l) : SameOff l m (m.join a b) := fun z hz => by
  simp [show z ≠ a from fun h => hz (h ▸ ha),show z ≠ b from fun h => hz (h ▸ hb)]

/-! ### Joins that change the sequence -/

/-- A node comes in at the head. -/
theorem Ring.insert (h : m.Ring s xs) (hx : x ∉ s::xs) : ((m.join x (m.next s)).join s x).Ring s (x::xs) := by
  obtain ⟨a,l,hl⟩ := exists_first s xs
  rw [(h.link_first hl).1]
  obtain ⟨hs,hnodup⟩ := List.nodup_cons.mp h.nodup
  have hdrop : (a::l).dropLast = xs := by rw [← hl,List.dropLast_concat]
  have hall : (a::l).Nodup := hl ▸ (List.perm_append_singleton s xs).nodup_iff.mpr h.nodup
  have hmem : ∀ z, z ∈ a::l ↔ z ∈ xs ∨ z = s := fun z => by rw [← hl,List.mem_append,List.mem_singleton]
  obtain ⟨hxs,hx⟩ := not_or.mp (List.mem_cons.not.mp hx)
  have hchain := h.chain
  rw [List.cons_append,hl] at hchain
  refine ⟨by simp [hs,hx,hnodup,Ne.symm hxs],?_⟩
  rw [List.cons_append,List.cons_append,hl]
  refine List.isChain_cons_cons.mpr ⟨link_join ..,List.isChain_cons_cons.mpr ⟨?_,?_⟩⟩
  · exact (link_join ..).join (Ne.symm hxs) (by grind)
  · refine chain_join (chain_join (List.isChain_cons_cons.mp hchain).2 ?_ ?_) ?_ ?_ <;> grind

/-- A node comes in at the tail. -/
theorem Ring.append (h : m.Ring s xs) (hx : x ∉ s::xs) : ((m.join (m.prev s) x).join x s).Ring s (xs ++ [x]) := by
  obtain ⟨l,b,hl⟩ := exists_last s xs
  rw [(h.link_last hl).2]
  have hnodup := h.nodup
  have hall : (l ++ [b]).Nodup := hl ▸ hnodup
  have hmem : ∀ z, z ∈ s::xs ↔ z ∈ l ∨ z = b := fun z => by rw [hl,List.mem_append,List.mem_singleton]
  have hchain : (s::xs).IsChain m.Link := h.chain.left_of_append
  refine ⟨by grind,?_⟩
  rw [List.cons_append,List.append_assoc,cons_append_eq hl]
  refine List.isChain_append_cons_cons.mpr ⟨?_,?_,List.isChain_pair.mpr (link_join ..)⟩
  · rw [← hl]
    refine chain_join (chain_join hchain ?_ ?_) ?_ ?_ <;> grind
  · exact (link_join ..).join (by grind) (by grind)

/-- A node goes out. -/
theorem Ring.erase (h : m.Ring s (xs ++ x::ys)) : (m.join (m.prev x) (m.next x)).Ring s (xs ++ ys) := by
  obtain ⟨l,b,hl⟩ := exists_last s xs
  obtain ⟨a,r,hr⟩ := exists_first s ys
  have hnodup := h.nodup
  have hall : (l ++ [b]).Nodup := by grind
  have hall' : (a::r).Nodup := by grind
  have hmem : ∀ z, z ∈ s::xs ↔ z ∈ l ∨ z = b := fun z => by rw [hl,List.mem_append,List.mem_singleton]
  have hmem' : ∀ z, z ∈ a::r ↔ z ∈ ys ∨ z = s := fun z => by rw [← hr,List.mem_append,List.mem_singleton]
  have hchain : (l ++ b::x::a::r).IsChain m.Link := by
    rw [← hr,← cons_append_eq hl]
    simpa using h.chain
  obtain ⟨hleft,hbx,hright⟩ := List.isChain_append_cons_cons.mp hchain
  obtain ⟨hxa,hright⟩ := List.isChain_cons_cons.mp hright
  rw [hbx.2,hxa.1]
  refine ⟨by grind,?_⟩
  rw [List.cons_append,List.append_assoc,hr,cons_append_eq hl]
  refine List.isChain_append_cons_cons.mpr ⟨chain_join hleft ?_ ?_,link_join ..,chain_join hright ?_ ?_⟩
  all_goals grind

/-- The nodes from `q` on move to a ring of their own. -/
theorem Ring.split (h : m.Ring s (xs ++ q::ys)) (hn : n ∉ s::(xs ++ q::ys)) :
    (((m.join (m.prev s) n).join n q).join (m.prev q) s).Ring s xs ∧
    (((m.join (m.prev s) n).join n q).join (m.prev q) s).Ring n (q::ys) := by
  obtain ⟨l,p,hl⟩ := exists_last s xs
  obtain ⟨k,z,hk⟩ := exists_last q ys
  have hnodup := h.nodup
  have hchain : (l ++ p::q::(ys ++ [s])).IsChain m.Link := by
    rw [← cons_append_eq hl]
    simpa using h.chain
  obtain ⟨hleft,hpq,hright⟩ := List.isChain_append_cons_cons.mp hchain
  have hlast : s::(xs ++ q::ys) = (s::xs ++ k) ++ [z] := by simp [hk]
  have hright : (q::ys).IsChain m.Link := by
    rw [← List.cons_append] at hright
    exact hright.left_of_append
  rw [(h.link_last hlast).2,hpq.2]
  have hall : (l ++ [p]).Nodup := by grind
  have hall' : (k ++ [z]).Nodup := by grind
  have hmem : ∀ x, x ∈ s::xs ↔ x ∈ l ∨ x = p := fun x => by rw [hl,List.mem_append,List.mem_singleton]
  have hmem' : ∀ x, x ∈ q::ys ↔ x ∈ k ∨ x = z := fun x => by rw [hk,List.mem_append,List.mem_singleton]
  refine ⟨⟨by grind,?_⟩,⟨by grind,?_⟩⟩
  · rw [List.cons_append,cons_append_eq hl]
    refine List.isChain_append_cons_cons.mpr ⟨?_,link_join ..,.singleton s⟩
    rw [← hl] at hleft ⊢
    refine chain_join (chain_join (chain_join hleft ?_ ?_) ?_ ?_) ?_ ?_ <;> grind
  · rw [List.cons_append,List.cons_append,List.isChain_cons_cons,cons_append_eq hk]
    refine ⟨(link_join ..).join (by grind) (by grind),?_⟩
    refine List.isChain_append_cons_cons.mpr ⟨?_,((link_join ..).join ?_ ?_).join ?_ ?_,.singleton n⟩
    · rw [← hk]
      refine chain_join (chain_join (chain_join hright ?_ ?_) ?_ ?_) ?_ ?_ <;> grind
    all_goals grind

/-- One ring is put behind another. -/
theorem Ring.merge (h : m.Ring s xs) (hn : m.Ring n ys) (hdisjoint : (s::xs).Disjoint (n::ys)) :
    ((m.join (m.prev s) (m.next n)).join ((m.join (m.prev s) (m.next n)).prev n) s).Ring s (xs ++ ys) := by
  obtain ⟨l,b,hl⟩ := exists_last s xs
  have hnodup := h.nodup
  have hnodup' := hn.nodup
  have hall : (l ++ [b]).Nodup := hl ▸ hnodup
  have hmem : ∀ x, x ∈ s::xs ↔ x ∈ l ∨ x = b := fun x => by rw [hl,List.mem_append,List.mem_singleton]
  have hchain : (s::xs).IsChain m.Link := h.chain.left_of_append
  have hdisjoint : ∀ x ∈ s::xs, x ∉ n::ys := fun x hx hx' => hdisjoint hx hx'
  rw [(h.link_last hl).2]
  cases ys with
  | nil =>
    -- the pointer of `n` that was just stored is read
    rw [(hn.link_first rfl).1]
    simp only [prev_join,if_true]
    rw [List.append_nil]
    refine ⟨hnodup,?_⟩
    rw [List.cons_append,cons_append_eq hl]
    refine List.isChain_append_cons_cons.mpr ⟨?_,link_join ..,.singleton s⟩
    rw [← hl]
    refine chain_join (chain_join hchain ?_ ?_) ?_ ?_ <;> grind
  | cons f r =>
    obtain ⟨k,z,hk⟩ := exists_last f r
    have hall' : (k ++ [z]).Nodup := by grind
    have hmem' : ∀ x, x ∈ f::r ↔ x ∈ k ∨ x = z := fun x => by rw [hk,List.mem_append,List.mem_singleton]
    have hlast : n::f::r = (n::k) ++ [z] := by rw [hk,List.cons_append]
    have hfirst : n ≠ f := by grind
    have hfs : f ≠ s := fun h => hdisjoint s List.mem_cons_self (by simp [h])
    have hchain' : (f::r).IsChain m.Link := (List.isChain_cons_cons.mp hn.chain.left_of_append).2
    rw [(hn.link_first rfl).1]
    simp only [prev_join,if_neg hfirst,(hn.link_last hlast).2]
    refine ⟨by grind,?_⟩
    rw [List.cons_append,List.append_assoc,cons_append_eq hl,List.cons_append]
    refine List.isChain_append_cons_cons.mpr ⟨?_,(link_join ..).join ?_ ?_,?_⟩
    · rw [← hl]
      refine chain_join (chain_join hchain ?_ ?_) ?_ ?_ <;> grind
    · grind
    · grind
    · rw [cons_append_eq hk]
      refine List.isChain_append_cons_cons.mpr ⟨?_,link_join ..,.singleton s⟩
      rw [← hk]
      refine chain_join (chain_join hchain' ?_ ?_) ?_ ?_ <;> grind

end Links
