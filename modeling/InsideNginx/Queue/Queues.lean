import InsideNginx.General.LinkedRing
import InsideNginx.General.TransitionSystem

/-! The queue macros on a pointer heap, and the sequences that the queues stand for. -/
namespace InsideNginx.Queue
open Links

/-- `NULL`. -/
def null : ℕ := 0

/-- `ngx_queue_init`. -/
def init (m : Links ℕ) (q : ℕ) : Links ℕ :=
  let m := m.setPrev q q
  m.setNext q q

/-- `ngx_queue_insert_head`. -/
def insertHead (m : Links ℕ) (h x : ℕ) : Links ℕ :=
  let m := m.setNext x (m.next h)
  let m := m.setPrev (m.next x) x
  let m := m.setPrev x h
  m.setNext h x

/-- `ngx_queue_insert_after`. -/
def insertAfter (m : Links ℕ) (h x : ℕ) : Links ℕ := insertHead m h x

/-- `ngx_queue_insert_tail`. -/
def insertTail (m : Links ℕ) (h x : ℕ) : Links ℕ :=
  let m := m.setPrev x (m.prev h)
  let m := m.setNext (m.prev x) x
  let m := m.setNext x h
  m.setPrev h x

/-- `ngx_queue_remove`. -/
def remove (m : Links ℕ) (x : ℕ) : Links ℕ :=
  let m := m.setPrev (m.next x) (m.prev x)
  let m := m.setNext (m.prev x) (m.next x)
  let m := m.setPrev x null
  m.setNext x null

/-- `ngx_queue_split`. -/
def split (m : Links ℕ) (h q n : ℕ) : Links ℕ :=
  let m := m.setPrev n (m.prev h)
  let m := m.setNext (m.prev n) n
  let m := m.setNext n q
  let m := m.setPrev h (m.prev q)
  let m := m.setNext (m.prev h) h
  m.setPrev q n

/-- `ngx_queue_merge`. -/
def merge (m : Links ℕ) (h n : ℕ) : Links ℕ :=
  let m := m.setNext (m.prev h) (m.next n)
  let m := m.setPrev (m.next n) (m.prev h)
  let m := m.setPrev h (m.prev n)
  m.setNext (m.prev h) h

inductive Op
  | init (q : ℕ)
  | insertHead (h x : ℕ)
  | insertTail (h x : ℕ)
  | insertAfter (p x : ℕ)
  | remove (x : ℕ)
  | split (h q n : ℕ)
  | merge (h n : ℕ)

def Op.run (m : Links ℕ) : Op → Links ℕ
  | init q => Queue.init m q
  | insertHead h x => Queue.insertHead m h x
  | insertTail h x => Queue.insertTail m h x
  | insertAfter p x => Queue.insertAfter m p x
  | remove x => Queue.remove m x
  | split h q n => Queue.split m h q n
  | merge h n => Queue.merge m h n

/-- The nodes that a macro is called with. -/
def Op.args : Op → List ℕ
  | init q => [q]
  | insertHead h x => [h,x]
  | insertTail h x => [h,x]
  | insertAfter p x => [p,x]
  | remove x => [x]
  | split h q n => [h,q,n]
  | merge h n => [h,n]

/-! ### What the macros are for -/

/-- The sequences of the queues, by their sentinels. -/
abbrev Sequences := ℕ → Option (List ℕ)

namespace Sequences

def set (Q : Sequences) (s : ℕ) (xs : Option (List ℕ)) : Sequences := Function.update Q s xs

/-- A node that no queue has. -/
def Fresh (Q : Sequences) (x : ℕ) : Prop := x ≠ null ∧ ∀ s xs, Q s = some xs → x ∉ s::xs

/-- The meaning of a macro. A sentinel may have been one before: what it stood for is forgotten. -/
inductive Step (Q : Sequences) : Op → Sequences → Prop
  | init {q} (hq : (Q.set q none).Fresh q) : Step Q (.init q) (Q.set q (some []))
  | insertHead {h x xs} (hs : Q h = some xs) (hx : Q.Fresh x) : Step Q (.insertHead h x) (Q.set h (some (x::xs)))
  | insertTail {h x xs} (hs : Q h = some xs) (hx : Q.Fresh x) :
    Step Q (.insertTail h x) (Q.set h (some (xs ++ [x])))
  | insertAfterHead {h x xs} (hs : Q h = some xs) (hx : Q.Fresh x) :
    Step Q (.insertAfter h x) (Q.set h (some (x::xs)))
  | insertAfter {h p x xs ys} (hs : Q h = some (xs ++ p::ys)) (hx : Q.Fresh x) :
    Step Q (.insertAfter p x) (Q.set h (some (xs ++ p::x::ys)))
  | remove {h x xs ys} (hs : Q h = some (xs ++ x::ys)) : Step Q (.remove x) (Q.set h (some (xs ++ ys)))
  | split {h q n xs ys} (hs : Q h = some (xs ++ q::ys)) (hne : n ≠ h) (hn : (Q.set n none).Fresh n) :
    Step Q (.split h q n) ((Q.set h (some xs)).set n (some (q::ys)))
  | merge {h n xs ys} (hs : Q h = some xs) (hn : Q n = some ys) (hne : h ≠ n) :
    Step Q (.merge h n) ((Q.set n none).set h (some (xs ++ ys)))

theorem set_same (Q : Sequences) (s : ℕ) (xs : Option (List ℕ)) : Q.set s xs s = xs := Function.update_self ..

theorem set_ne (Q : Sequences) {s t : ℕ} (h : t ≠ s) (xs : Option (List ℕ)) : Q.set s xs t = Q t :=
  Function.update_of_ne h ..

/-- What a sentinel stood for is forgotten when it is set again. -/
theorem set_forget (Q : Sequences) {n s : ℕ} (h : n ≠ s) (xs ys : Option (List ℕ)) :
    ((Q.set n none).set s xs).set n ys = (Q.set s xs).set n ys := by
  simp only [set]
  rw [Function.update_comm h.symm,Function.update_idem,Function.update_comm h]

theorem set_set (Q : Sequences) (s : ℕ) (xs ys : Option (List ℕ)) : (Q.set s xs).set s ys = Q.set s ys :=
  Function.update_idem ..

theorem set_eq_self {Q : Sequences} {s : ℕ} {xs : Option (List ℕ)} (h : Q s = xs) : Q.set s xs = Q := by
  rw [← h]
  exact Function.update_eq_self ..

end Sequences

/-- The heap holds disjoint well-formed queues with these sequences. -/
structure Represents (m : Links ℕ) (Q : Sequences) : Prop where
  ring : ∀ s xs, Q s = some xs → m.Ring s xs
  disjoint : ∀ s xs t ys, Q s = some xs → Q t = some ys → s ≠ t → (s::xs).Disjoint (t::ys)
  nonnull : ∀ s xs, Q s = some xs → null ∉ s::xs

/-! ### The macros join nodes -/

theorem insertHead_eq (m : Links ℕ) (h x : ℕ) : insertHead m h x = (m.join x (m.next h)).join h x := by
  simp [insertHead,join,setNext,setPrev]

theorem insertTail_eq (m : Links ℕ) (h x : ℕ) : insertTail m h x = (m.join (m.prev h) x).join x h := by
  simp [insertTail,join,setNext,setPrev]

theorem remove_eq (m : Links ℕ) (x : ℕ) :
    remove m x = ((m.join (m.prev x) (m.next x)).setPrev x null).setNext x null := by
  have hprev : (m.setPrev (m.next x) (m.prev x)).prev x = m.prev x := by
    rw [prev_setPrev]
    split <;> rfl
  simp only [remove,hprev,next_setPrev]
  rfl

theorem split_eq (m : Links ℕ) {h q n : ℕ} (hqn : q ≠ n) (hqh : q ≠ h) :
    split m h q n = ((m.join (m.prev h) n).join n q).join (m.prev q) h := by
  simp only [split,prev_setPrev,prev_setNext,if_true,if_neg hqn]
  simp only [join,setPrev,setNext]
  rw [Function.update_comm hqh]

theorem merge_eq (m : Links ℕ) (h n : ℕ) :
    merge m h n = (m.join (m.prev h) (m.next n)).join ((m.join (m.prev h) (m.next n)).prev n) h := by
  have hnext : (m.setNext (m.prev h) (m.next n)).next n = m.next n := by
    rw [next_setNext]
    split <;> rfl
  simp only [merge,hnext,prev_setNext,prev_setPrev,if_true]
  simp [join,setPrev,setNext,Function.update_apply]

/-! ### Refinement -/

variable {m m' : Links ℕ} {Q : Sequences} {s : ℕ} {xs l : List ℕ}

namespace Represents

theorem others (h : Represents m Q) (hs : Q s = some xs) {t : ℕ} {ys : List ℕ} (hne : t ≠ s) (ht : Q t = some ys) :
    ∀ z ∈ t::ys, z ∉ s::xs := fun _ hz hz' => h.disjoint t ys s xs ht hs hne hz hz'

/-- One queue is given up. -/
theorem drop (h : Represents m Q) (s : ℕ) : Represents m (Q.set s none) := by
  have hold : ∀ t ys, Q.set s none t = some ys → Q t = some ys := by
    intro t ys ht
    by_cases hts : t = s
    · rw [hts,Sequences.set_same] at ht
      cases ht
    · rwa [Sequences.set_ne Q hts] at ht
  exact ⟨fun t ys ht => h.ring t ys (hold t ys ht),fun t ys u zs ht hu => h.disjoint t ys u zs (hold t ys ht) (hold u zs hu),
    fun t ys ht => h.nonnull t ys (hold t ys ht)⟩

/-- One queue changes, in nodes that no other queue has. -/
theorem set (h : Represents m Q) (hothers : ∀ t ys, t ≠ s → Q t = some ys → ∀ z ∈ t::ys, z ∉ l)
    (hsame : SameOff l m m') (hring : m'.Ring s xs) (hsub : ∀ z ∈ s::xs, z ∈ l) (hnull : null ∉ s::xs) :
    Represents m' (Q.set s (some xs)) := by
  have hcases : ∀ t ys, Q.set s (some xs) t = some ys → (t = s ∧ ys = xs) ∨ (t ≠ s ∧ Q t = some ys) := by
    intro t ys ht
    by_cases hts : t = s
    · rw [hts,Sequences.set_same] at ht
      exact .inl ⟨hts,(Option.some.inj ht).symm⟩
    · rw [Sequences.set_ne Q hts] at ht
      exact .inr ⟨hts,ht⟩
  refine ⟨fun t ys ht => ?_,fun t ys u zs ht hu hne => ?_,fun t ys ht => ?_⟩
  · rcases hcases t ys ht with ⟨rfl,rfl⟩ | ⟨hts,ht⟩
    · exact hring
    · exact (h.ring t ys ht).same_off hsame (hothers t ys hts ht)
  · rcases hcases t ys ht with ⟨rfl,rfl⟩ | ⟨hts,htold⟩
    · rcases hcases u zs hu with ⟨rfl,rfl⟩ | ⟨hus,hold⟩
      · exact absurd rfl hne
      · exact fun z hz hz' => hothers u zs hus hold z hz' (hsub z hz)
    · rcases hcases u zs hu with ⟨rfl,rfl⟩ | ⟨hus,hold⟩
      · exact fun z hz hz' => hothers t ys hts htold z hz (hsub z hz')
      · exact h.disjoint t ys u zs htold hold hne
  · rcases hcases t ys ht with ⟨rfl,rfl⟩ | ⟨-,ht⟩
    · exact hnull
    · exact h.nonnull t ys ht

/-- A fresh node comes to a queue. -/
theorem insert (h : Represents m Q) (hs : Q s = some xs) {x : ℕ} (hx : Q.Fresh x) {ys : List ℕ}
    (hys : ys.Perm (x::xs)) (hring : m'.Ring s ys) (hsame : SameOff (x::s::xs) m m') :
    Represents m' (Q.set s (some ys)) := by
  have hmem : ∀ z ∈ s::ys, z ∈ x::s::xs := fun z hz => ((hys.cons s).trans (List.Perm.swap ..)).subset hz
  refine h.set (fun t zs hts ht z hz hz' => ?_) hsame hring hmem fun hz => ?_
  · rcases List.mem_cons.mp hz' with rfl | hz'
    · exact hx.2 t zs ht hz
    · exact h.others hs hts ht z hz hz'
  · rcases List.mem_cons.mp (hmem _ hz) with hz | hz
    · exact hx.1 hz.symm
    · exact h.nonnull s xs hs hz

section
variable (h : Represents m Q)
include h

theorem init {q : ℕ} (hq : (Q.set q none).Fresh q) : Represents (Queue.init m q) (Q.set q (some [])) := by
  have hjoin : Queue.init m q = m.join q q := rfl
  have hring : (m.join q q).Ring q [] := ⟨List.nodup_singleton q,List.isChain_pair.mpr (link_join ..)⟩
  rw [hjoin]
  refine h.set (l := [q]) (fun t ys hts ht z hz hz' => ?_) (sameOff_join (by simp) (by simp)) hring (by simp) ?_
  · rw [List.mem_singleton.mp hz'] at hz
    exact hq.2 t ys ((Sequences.set_ne Q hts none).trans ht) hz
  · simpa using hq.1.symm

theorem insertHead (hs : Q s = some xs) {x : ℕ} (hx : Q.Fresh x) :
    Represents (Queue.insertHead m s x) (Q.set s (some (x::xs))) := by
  have hring := h.ring s xs hs
  have hnext := (hring.link_next List.mem_cons_self).2
  rw [insertHead_eq]
  refine h.insert hs hx (List.Perm.refl _) (hring.insert (hx.2 s xs hs)) ?_
  exact (sameOff_join (by simp) (List.mem_cons_of_mem _ hnext)).trans (sameOff_join (by simp) (by simp))

theorem insertTail (hs : Q s = some xs) {x : ℕ} (hx : Q.Fresh x) :
    Represents (Queue.insertTail m s x) (Q.set s (some (xs ++ [x]))) := by
  have hring := h.ring s xs hs
  have hprev := (hring.link_prev List.mem_cons_self).2
  rw [insertTail_eq]
  refine h.insert hs hx (List.perm_append_singleton x xs) (hring.append (hx.2 s xs hs)) ?_
  exact (sameOff_join (List.mem_cons_of_mem _ hprev) (by simp)).trans (sameOff_join (by simp) (by simp))

/-- Seen from `p`, the node comes in at the head. -/
theorem insertAfter {p x : ℕ} {ys : List ℕ} (hs : Q s = some (xs ++ p::ys)) (hx : Q.Fresh x) :
    Represents (Queue.insertAfter m p x) (Q.set s (some (xs ++ p::x::ys))) := by
  have hring := h.ring s _ hs
  have hfresh := hx.2 s _ hs
  have hrotated := hring.rotate
  have hmem : ∀ z, z ∈ p::(ys ++ s::xs) → z ∈ s::(xs ++ p::ys) := fun z hz => (perm_rotate p ys s xs).subset hz
  have hnext := hmem _ (hrotated.link_next List.mem_cons_self).2
  have hp : p ∈ s::(xs ++ p::ys) := by simp
  rw [Queue.insertAfter,insertHead_eq]
  refine h.insert hs hx ?_ ?_ ?_
  · exact ((List.Perm.swap x p ys).append_left xs).trans List.perm_middle
  · have hinsert := hrotated.insert fun hz => hfresh (hmem x hz)
    rw [← List.cons_append] at hinsert
    exact hinsert.rotate
  · exact (sameOff_join (by simp) (List.mem_cons_of_mem _ hnext)).trans
      (sameOff_join (List.mem_cons_of_mem _ hp) (by simp))

theorem remove {x : ℕ} {ys : List ℕ} (hs : Q s = some (xs ++ x::ys)) :
    Represents (Queue.remove m x) (Q.set s (some (xs ++ ys))) := by
  have hring := h.ring s _ hs
  have hx : x ∈ s::(xs ++ x::ys) := by simp
  have herase := hring.erase
  have hnodup : x ∉ s::(xs ++ ys) := by
    have hperm : (s::(xs ++ x::ys)).Perm (x::s::(xs ++ ys)) := (List.perm_middle.cons s).trans (List.Perm.swap ..)
    exact (List.nodup_cons.mp (hperm.nodup_iff.mp hring.nodup)).1
  have hjoin := sameOff_join (m := m) (hring.link_prev hx).2 (hring.link_next hx).2
  -- the pointers of the node itself are cleared
  have hclear : ∀ m : Links ℕ, SameOff [x] m ((m.setPrev x null).setNext x null) := fun m z hz => by
    simp [List.mem_singleton.not.mp hz]
  rw [remove_eq]
  refine h.set (fun t zs => h.others hs) (hjoin.trans fun z hz => hclear _ z ?_) (herase.same_off (hclear _) ?_) ?_ ?_
  · rw [List.mem_singleton]
    exact fun heq => hz (heq ▸ hx)
  · rintro z hz heq
    exact hnodup (List.mem_singleton.mp heq ▸ hz)
  · intro z hz
    rcases List.mem_cons.mp hz with rfl | hz
    · exact List.mem_cons_self
    · exact List.mem_cons_of_mem _ (List.mem_append.mpr ((List.mem_append.mp hz).imp_right (List.mem_cons_of_mem x)))
  · exact fun hz => h.nonnull s _ hs (((List.sublist_cons_self x ys).append_left xs).cons_cons s |>.subset hz)

theorem split {q n : ℕ} {ys : List ℕ} (hs : Q s = some (xs ++ q::ys)) (hne : n ≠ s) (hn : (Q.set n none).Fresh n) :
    Represents (Queue.split m s q n) ((Q.set s (some xs)).set n (some (q::ys))) := by
  have hring := h.ring s _ hs
  have hnew : n ∉ s::(xs ++ q::ys) := hn.2 s _ ((Sequences.set_ne Q hne.symm none).trans hs)
  have hq : q ∈ s::(xs ++ q::ys) := by simp
  have hqn : q ≠ n := fun heq => hnew (heq ▸ hq)
  have hqs : q ≠ s := fun heq => (List.nodup_cons.mp hring.nodup).1 (by simp [← heq])
  obtain ⟨hleft,hright⟩ := hring.split hnew
  rw [← split_eq m hqn hqs] at hleft hright
  have hsame : SameOff (n::s::(xs ++ q::ys)) m (Queue.split m s q n) := by
    rw [split_eq m hqn hqs]
    refine ((sameOff_join ?_ ?_).trans (sameOff_join ?_ ?_)).trans (sameOff_join ?_ ?_)
    · exact List.mem_cons_of_mem n (hring.link_prev List.mem_cons_self).2
    · exact List.mem_cons_self
    · exact List.mem_cons_self
    · exact List.mem_cons_of_mem n hq
    · exact List.mem_cons_of_mem n (hring.link_prev hq).2
    · simp
  have hnull := h.nonnull s _ hs
  have hhead : Represents (Queue.split m s q n) ((Q.set n none).set s (some xs)) := by
    refine (h.drop n).set (fun t zs hts ht z hz hz' => ?_) hsame hleft (fun z hz => ?_) fun hz => hnull ?_
    · by_cases htn : t = n
      · rw [htn,Sequences.set_same] at ht
        cases ht
      rcases List.mem_cons.mp hz' with rfl | hz'
      · exact hn.2 t zs ht hz
      · rw [Sequences.set_ne Q htn] at ht
        exact h.others hs hts ht z hz hz'
    · exact List.mem_cons_of_mem n (((List.sublist_append_left xs (q::ys)).cons_cons s).subset hz)
    · exact ((List.sublist_append_left xs (q::ys)).cons_cons s).subset hz
  rw [← Q.set_forget hne]
  refine hhead.set (l := n::q::ys) (fun t zs hts ht z hz hz' => ?_) (fun _ _ => ⟨rfl,rfl⟩) hright (fun _ hz => hz) ?_
  · by_cases hts' : t = s
    · -- the elements before `q`
      subst hts'
      rw [Sequences.set_same] at ht
      cases ht
      rcases List.mem_cons.mp hz' with rfl | hz'
      · exact hnew (((List.sublist_append_left xs (q::ys)).cons_cons t).subset hz)
      · exact (List.nodup_append.mp (List.cons_append ▸ hring.nodup)).2.2 z hz z hz' rfl
    · rw [Sequences.set_ne _ hts'] at ht
      rcases List.mem_cons.mp hz' with rfl | hz'
      · exact hn.2 t zs ht hz
      · rw [Sequences.set_ne Q hts] at ht
        exact h.others hs hts' ht z hz (List.mem_cons_of_mem s (List.mem_append_right xs hz'))
  · intro hz
    rcases List.mem_cons.mp hz with hz | hz
    · exact hn.1 hz.symm
    · exact hnull (List.mem_cons_of_mem s (List.mem_append_right xs hz))

theorem merge {n : ℕ} {ys : List ℕ} (hs : Q s = some xs) (hn : Q n = some ys) (hne : s ≠ n) :
    Represents (Queue.merge m s n) ((Q.set n none).set s (some (xs ++ ys))) := by
  have hring := h.ring s xs hs
  have hring' := h.ring n ys hn
  have hmerge := hring.merge hring' (h.disjoint s xs n ys hs hn hne)
  have hl := (hring.link_prev List.mem_cons_self).2
  have hf := (hring'.link_next List.mem_cons_self).2
  have hz := (hring'.link_prev List.mem_cons_self).2
  have hlast : (m.join (m.prev s) (m.next n)).prev n ∈ (s::xs) ++ (n::ys) := by
    rw [prev_join]
    split
    · exact List.mem_append_left _ hl
    · exact List.mem_append_right _ hz
  rw [merge_eq]
  refine (h.drop n).set (l := (s::xs) ++ (n::ys)) (fun t zs hts ht z hz hz' => ?_) ?_ hmerge (fun z hz => ?_) fun hz => ?_
  · by_cases htn : t = n
    · rw [htn,Sequences.set_same] at ht
      cases ht
    rw [Sequences.set_ne Q htn] at ht
    rcases List.mem_append.mp hz' with hz' | hz'
    · exact h.others hs hts ht z hz hz'
    · exact h.others hn htn ht z hz hz'
  · refine (sameOff_join ?_ ?_).trans (sameOff_join hlast ?_)
    · exact List.mem_append_left _ hl
    · exact List.mem_append_right _ hf
    · simp
  · grind
  · have := h.nonnull s xs hs
    have := h.nonnull n ys hn
    grind

/-- Every macro does what it means. -/
theorem step {op : Op} {Q' : Sequences} (hstep : Q.Step op Q') : Represents (op.run m) Q' := by
  cases hstep with
  | init hq => exact h.init hq
  | insertHead hs hx => exact h.insertHead hs hx
  | insertTail hs hx => exact h.insertTail hs hx
  | insertAfterHead hs hx => exact h.insertHead hs hx
  | insertAfter hs hx => exact h.insertAfter hs hx
  | remove hs => exact h.remove hs
  | split hs hne hn => exact h.split hs hne hn
  | merge hs hn hne => exact h.merge hs hn hne

end

end Represents

/-- A heap and what its queues stand for, from a heap without queues on. -/
def queueing : TransitionSystem (Links ℕ × Sequences) Op where
  init s := ∀ q, s.2 q = none
  step s op s' := s.2.Step op s'.2 ∧ s'.1 = op.run s.1

/-- Whatever macros are called, in whatever order, the queues are the sequences. -/
theorem queueing_represents {s : Links ℕ × Sequences} (h : queueing.Reachable s) : Represents s.1 s.2 := by
  refine h.invariant (I := fun s => Represents s.1 s.2) ?_ ?_
  · rintro s (hnone : ∀ q, s.2 q = none)
    constructor <;> simp [hnone]
  · rintro s op s' - ih ⟨hstep,hrun⟩
    rw [hrun]
    exact ih.step hstep

/-- A queue keeps its sequence when none of its nodes is named. -/
theorem Sequences.Step.unnamed {op : Op} {Q' : Sequences} (hstep : Q.Step op Q') (hs : Q s = some xs)
    (hnamed : ∀ a ∈ op.args, a ∉ s::xs) : Q' s = some xs := by
  have hother : ∀ {t ys} (a : ℕ), Q t = some ys → a ∈ t::ys → a ∈ op.args → s ≠ t := by
    rintro t ys a ht ha hargs rfl
    rw [hs] at ht
    cases ht
    exact hnamed a hargs ha
  have hself : ∀ a ∈ op.args, s ≠ a := fun a ha heq => hnamed a ha (heq ▸ List.mem_cons_self)
  cases hstep with
  | init hq => rw [Sequences.set_ne Q (hself _ (by simp [Op.args])),hs]
  | insertHead ht hx => rw [Sequences.set_ne Q (hself _ (by simp [Op.args])),hs]
  | insertTail ht hx => rw [Sequences.set_ne Q (hself _ (by simp [Op.args])),hs]
  | insertAfterHead ht hx => rw [Sequences.set_ne Q (hself _ (by simp [Op.args])),hs]
  | @insertAfter t p _ _ _ ht hx => rw [Sequences.set_ne Q (hother p ht (by simp) (by simp [Op.args])),hs]
  | @remove t x _ _ ht => rw [Sequences.set_ne Q (hother x ht (by simp) (by simp [Op.args])),hs]
  | split ht hne hn =>
    rw [Sequences.set_ne _ (hself _ (by simp [Op.args])),Sequences.set_ne Q (hself _ (by simp [Op.args])),hs]
  | merge ht hn hne =>
    rw [Sequences.set_ne _ (hself _ (by simp [Op.args])),Sequences.set_ne Q (hself _ (by simp [Op.args])),hs]

/-- A well-formed queue: the pointers are inverse to each other, and from the sentinel on they go through
the elements in order and back to the sentinel. -/
structure WellFormed (m : Links ℕ) (s : ℕ) (xs : List ℕ) : Prop where
  nodup : (s::xs).Nodup
  inverse : ∀ x ∈ s::xs, m.next (m.prev x) = x ∧ m.prev (m.next x) = x
  cycle : (List.range (xs.length + 1)).map (fun i => m.next^[i] s) = s::xs ∧ m.next^[xs.length + 1] s = s

theorem wellFormed_iff_ring : WellFormed m s xs ↔ m.Ring s xs := by
  constructor
  · rintro ⟨hnodup,hinverse,hcycle,hback⟩
    exact .of_visit hnodup (fun x hx => (hinverse x hx).2) hcycle hback
  · exact fun h => ⟨h.nodup,fun _ hx => h.inverse hx,h.visit⟩

/-- The queue macros refine operations on sequences. -/
theorem queues_refine (hwell : ∀ s xs, Q s = some xs → WellFormed m s xs ∧ null ∉ s::xs)
    (hdisjoint : ∀ s xs t ys, Q s = some xs → Q t = some ys → s ≠ t → (s::xs).Disjoint (t::ys)) :
    (∀ op Q', Q.Step op Q' → (∀ s xs, Q' s = some xs → WellFormed (op.run m) s xs) ∧
      (∀ s xs t ys, Q' s = some xs → Q' t = some ys → s ≠ t → (s::xs).Disjoint (t::ys)) ∧
      ∀ s xs, Q s = some xs → (∀ a ∈ op.args, a ∉ s::xs) → Q' s = some xs ∧
        ∀ z ∈ s::xs, (op.run m).next z = m.next z ∧ (op.run m).prev z = m.prev z) ∧
    ∀ h q n xs ys, Q h = some (xs ++ q::ys) → Q.Fresh n → ∀ s zs, Q s = some zs →
      WellFormed (merge (split m h q n) h n) s zs := by
  have hrep : Represents m Q := ⟨fun s xs hs => wellFormed_iff_ring.mp (hwell s xs hs).1,hdisjoint,
    fun s xs hs => (hwell s xs hs).2⟩
  refine ⟨fun op Q' hstep => ?_,fun h q n xs ys hq hn s zs hs => ?_⟩
  · have hrep' := hrep.step hstep
    refine ⟨fun s xs hs => wellFormed_iff_ring.mpr (hrep'.ring s xs hs),hrep'.disjoint,fun s xs hs hnamed => ?_⟩
    have hs' := hstep.unnamed hs hnamed
    exact ⟨hs',fun z hz => (hrep.ring s xs hs).links_eq (hrep'.ring s xs hs') hz⟩
  · have hnone : Q n = none := by
      cases hn' : Q n with
      | none => rfl
      | some ys => exact absurd List.mem_cons_self (hn.2 n ys hn')
    have hne : n ≠ h := fun heq => by
      rw [heq,hq] at hnone
      cases hnone
    have hsplit := hrep.split hq hne (by rwa [Sequences.set_eq_self hnone])
    have hh : ((Q.set h (some xs)).set n (some (q::ys))) h = some xs := by
      rw [Sequences.set_ne _ hne.symm,Sequences.set_same]
    have hmerge := hsplit.merge hh (Sequences.set_same ..) hne.symm
    have hback : (((Q.set h (some xs)).set n (some (q::ys))).set n none).set h (some (xs ++ q::ys)) = Q := by
      funext t
      by_cases hth : t = h
      · rw [hth,Sequences.set_same,hq]
      rw [Sequences.set_ne _ hth]
      by_cases htn : t = n
      · rw [htn,Sequences.set_same,hnone]
      · rw [Sequences.set_ne _ htn,Sequences.set_ne _ htn,Sequences.set_ne _ hth]
    rw [hback] at hmerge
    exact wellFormed_iff_ring.mpr (hmerge.ring s zs hs)

/-- Two queues, one of two elements and an empty one. -/
def pair : Links ℕ := ⟨fun a => [0,3,1,2,0,5].getD a 0,fun a => [0,2,3,1,0,5].getD a 0⟩

def pairSequences : Sequences := fun s => if s = 1 then some [2,3] else if s = 5 then some [] else none

theorem queues_refine_pair : WellFormed (split pair 1 2 9) 1 [] ∧ WellFormed (split pair 1 2 9) 9 [2,3] ∧
    WellFormed (merge pair 1 5) 1 [2,3] ∧ WellFormed (merge (split pair 1 2 9) 1 9) 1 [2,3] := by
  have hcases : ∀ s xs, pairSequences s = some xs → (s = 1 ∧ xs = [2,3]) ∨ (s = 5 ∧ xs = []) := by
    intro s xs hs
    unfold pairSequences at hs
    split at hs
    · exact .inl ⟨‹_›,(Option.some.inj hs).symm⟩
    · split at hs
      · exact .inr ⟨‹_›,(Option.some.inj hs).symm⟩
      · cases hs
  have hwell : ∀ s xs, pairSequences s = some xs → WellFormed pair s xs ∧ null ∉ s::xs := by
    intro s xs hs
    rcases hcases s xs hs with ⟨rfl,rfl⟩ | ⟨rfl,rfl⟩
    · exact ⟨wellFormed_iff_ring.mpr ⟨by decide,by decide⟩,by decide⟩
    · exact ⟨wellFormed_iff_ring.mpr ⟨by decide,by decide⟩,by decide⟩
  have hdisjoint : ∀ s xs t ys, pairSequences s = some xs → pairSequences t = some ys → s ≠ t →
      (s::xs).Disjoint (t::ys) := by
    intro s xs t ys hs ht hne
    rcases hcases s xs hs with ⟨rfl,rfl⟩ | ⟨rfl,rfl⟩ <;> rcases hcases t ys ht with ⟨rfl,rfl⟩ | ⟨rfl,rfl⟩ <;>
      simp at hne ⊢
  have hfresh : pairSequences.Fresh 9 := ⟨by decide,fun s xs hs => by
    rcases hcases s xs hs with ⟨rfl,rfl⟩ | ⟨rfl,rfl⟩ <;> decide⟩
  obtain ⟨hsteps,hback⟩ := queues_refine hwell hdisjoint
  have hsplit := hsteps (.split 1 2 9) _ (.split (show pairSequences 1 = some ([] ++ 2::[3]) from rfl) (by decide)
    (by rwa [Sequences.set_eq_self (show pairSequences 9 = none from rfl)]))
  have hmerge := hsteps (.merge 1 5) _ (.merge rfl rfl (by decide))
  exact ⟨hsplit.1 1 [] rfl,hsplit.1 9 [2,3] rfl,hmerge.1 1 [2,3] rfl,hback 1 2 9 [] [3] rfl hfresh 1 [2,3] rfl⟩

end InsideNginx.Queue
