import InsideNginx.Fault
import InsideNginx.General.InsertionSort
import InsideNginx.Queue.Queues

/-! `ngx_queue_sort`. The element that is being inserted is taken out of the ring while the loop walks
back to the sentinel. -/
namespace InsideNginx.Queue
open Links InsertionSort

/-- A comparison function. It may read the links, and keep a state of its own. -/
abbrev Cmp (σ : Type) := σ → Links ℕ → ℕ → ℕ → ℤ × σ

variable {σ : Type} (cmp : Cmp σ)

/-- The inner loop of `ngx_queue_sort` from `prev` on. -/
def sortWalk (m : Links ℕ) (queue q : ℕ) : ℕ → σ → ℕ → Except Fault (ℕ × σ)
  | 0,_,_ => .error .noReturn
  | fuel+1,st,prev =>
    if prev = null then .error .nullDeref
    else
      let (c,st) := cmp st m prev q
      if c ≤ 0 then .ok (prev,st)
      else
        let prev := m.prev prev
        if prev ≠ queue then sortWalk m queue q fuel st prev else .ok (prev,st)

/-- The outer loop from `q` on; `fuel` bounds the rounds of each inner loop. -/
def sortLoop (queue fuel : ℕ) : ℕ → Links ℕ → σ → ℕ → Except Fault (Links ℕ × σ)
  | 0,_,_,_ => .error .noReturn
  | rounds+1,m,st,q =>
    if q = queue then .ok (m,st)
    else if q = null then .error .nullDeref
    else do
      let prev := m.prev q
      let next := m.next q
      let m := remove m q
      let (prev,st) ← sortWalk cmp m queue q fuel st prev
      sortLoop queue fuel rounds (insertAfter m prev q) st next

/-- `ngx_queue_sort`. -/
def sort (fuel : ℕ) (m : Links ℕ) (queue : ℕ) (st : σ) : Except Fault (Links ℕ × σ) :=
  let q := m.next queue
  if q = m.prev queue then .ok (m,st) else sortLoop cmp queue fuel fuel m st (m.next q)

/-- Some comparison stops `q` at `p`. -/
def Stops (p q : ℕ) : Prop := ∃ st m, (cmp st m p q).1 ≤ 0

/-- Some comparison lets `q` pass `p`. -/
def Passes (p q : ℕ) : Prop := ∃ st m, 0 < (cmp st m p q).1

variable {cmp} {m : Links ℕ} {Q : Sequences} {queue q : ℕ} {xs rest : List ℕ}

/-! ### The loops -/

/-- The walk back ends at an element that stops `q`, or at the sentinel, and `q` has passed all
elements behind. -/
theorem sortWalk_spec {l right tail : List ℕ} {p fuel : ℕ} (st : σ) (hring : m.Ring queue (l ++ p::(right ++ tail)))
    (hnull : null ∉ l ++ [p]) (hright : ∀ x ∈ right, Passes cmp x q) (hfuel : l.length < fuel) :
    ∃ left right' st', l ++ p::right = left ++ right' ∧
      sortWalk cmp m queue q fuel st p = .ok (left.getLast?.getD queue,st') ∧
      (∀ x ∈ right', Passes cmp x q) ∧ ∀ x ∈ left.getLast?, Stops cmp x q := by
  induction fuel generalizing l p right st with
  | zero => omega
  | succ fuel ih =>
    have hp : p ≠ null := fun heq => hnull (by simp [heq])
    unfold sortWalk
    rw [if_neg hp]
    cases hcmp : cmp st m p q with
    | mk c st' =>
    dsimp only
    by_cases hc : c ≤ 0
    · refine ⟨l ++ [p],right,st',by simp,?_,hright,?_⟩
      · rw [if_pos hc,List.getLast?_concat]
        rfl
      · simp only [List.getLast?_concat,Option.mem_some_iff]
        rintro x rfl
        exact ⟨st,m,by rw [hcmp]; exact hc⟩
    · have hpass : ∀ x ∈ p::right, Passes cmp x q := by
        refine List.forall_mem_cons.mpr ⟨⟨st,m,?_⟩,hright⟩
        rw [hcmp]
        exact not_le.mp hc
      rw [if_neg hc,hring.pointers.2]
      rcases l.eq_nil_or_concat' with rfl | ⟨l,b,rfl⟩
      · exact ⟨[],p::right,st',rfl,by simp,hpass,by simp⟩
      · have hb : b ≠ queue := by
          rintro rfl
          exact (List.nodup_cons.mp hring.nodup).1 (by simp)
        rw [List.getLast?_concat,Option.getD_some,if_pos hb]
        have hring' : m.Ring queue (l ++ b::((p::right) ++ tail)) := by simpa using hring
        have hnull' : null ∉ l ++ [b] := fun hmem => hnull (List.mem_append_left _ hmem)
        obtain ⟨left,right',st'',heq,hwalk,hright',hleft⟩ := ih st' hring' hnull' hpass (by simpa using hfuel)
        exact ⟨left,right',st'',by simpa using heq,hwalk,hright',hleft⟩

/-- One element is inserted into the part before it. -/
theorem Represents.reinsert (h : Represents m Q) {left right : List ℕ}
    (hs : Q queue = some (left ++ right ++ q::rest)) :
    Represents (Queue.insertAfter (Queue.remove m q) (left.getLast?.getD queue) q)
      (Q.set queue (some (left ++ q::right ++ rest))) := by
  have hremove := h.remove hs
  have hnodup := (h.ring queue _ hs).nodup
  have hfresh : (Q.set queue (some (left ++ right ++ rest))).Fresh q := by
    refine ⟨fun heq => h.nonnull queue _ hs (by simp [heq]),fun t zs ht hq => ?_⟩
    by_cases hts : t = queue
    · subst hts
      rw [Sequences.set_same] at ht
      cases ht
      have hperm : (t::(left ++ right ++ q::rest)).Perm (q::t::(left ++ right ++ rest)) :=
        (List.perm_middle.cons t).trans (List.Perm.swap ..)
      exact (List.nodup_cons.mp (hperm.nodup_iff.mp hnodup)).1 hq
    · rw [Sequences.set_ne Q hts] at ht
      exact h.others hs hts ht q hq (by simp)
  rw [← Q.set_set queue (some (left ++ right ++ rest))]
  rcases left.eq_nil_or_concat' with rfl | ⟨l,b,rfl⟩
  · exact hremove.insertHead (Sequences.set_same ..) hfresh
  · rw [List.getLast?_concat]
    have hb : (Q.set queue (some (l ++ [b] ++ right ++ rest))) queue = some (l ++ b::(right ++ rest)) := by
      rw [Sequences.set_same]
      simp
    simpa using hremove.insertAfter hb hfresh

/-- The outer loop sorts the elements from `q` on into those before it. -/
theorem sortLoop_spec {done : List ℕ} {fuel rounds : ℕ} (st : σ) (h : Represents m Q)
    (hs : Q queue = some (done ++ rest)) (hdone : done ≠ []) (hrounds : rest.length < rounds)
    (hfuel : done.length + rest.length ≤ fuel) :
    ∃ m' st' ys, sortLoop cmp queue fuel rounds m st (rest.head?.getD queue) = .ok (m',st') ∧
      Represents m' (Q.set queue (some ys)) ∧ Sorts (Stops cmp) (Passes cmp) done rest ys := by
  induction rest generalizing m Q done rounds st with
  | nil =>
    obtain ⟨rounds,rfl⟩ := Nat.exists_eq_add_of_lt hrounds
    refine ⟨m,st,done,?_,?_,.nil done⟩
    · rw [sortLoop]
      exact if_pos rfl
    · rw [List.append_nil] at hs
      rwa [Q.set_eq_self hs]
  | cons q rest ih =>
    obtain ⟨rounds,rfl⟩ : ∃ n, rounds = n + 1 := ⟨rounds - 1,by omega⟩
    have hring := h.ring queue _ hs
    obtain ⟨hnext,hprev⟩ := hring.pointers
    have hnull := h.nonnull queue _ hs
    have hq : q ≠ queue := by
      rintro rfl
      exact (List.nodup_cons.mp hring.nodup).1 (by simp)
    have hq' : q ≠ null := by
      rintro rfl
      exact hnull (by simp)
    obtain ⟨l,p,rfl⟩ := (done.eq_nil_or_concat').resolve_left hdone
    have hring' : (remove m q).Ring queue (l ++ p::([] ++ rest)) := by
      have hremove := (h.remove hs).ring queue _ (Sequences.set_same ..)
      simpa using hremove
    have hnull' : null ∉ l ++ [p] := fun hmem => hnull (List.mem_cons_of_mem _ (List.mem_append_left _ hmem))
    rw [List.length_append,List.length_singleton,List.length_cons] at hfuel
    obtain ⟨left,right,st',hsplit,hwalk,hright,hleft⟩ := @sortWalk_spec σ cmp (remove m q) queue q l [] rest p fuel st
      hring' hnull' (by simp) (by omega)
    have hreinsert := h.reinsert (hsplit ▸ hs)
    have hlength : left.length + right.length = l.length + 1 := by
      simpa using (congrArg List.length hsplit).symm
    obtain ⟨m',st'',ys,hloop,hrep,hsorts⟩ := ih st' hreinsert (Sequences.set_same ..) (by simp)
      (Nat.lt_of_succ_lt_succ hrounds) (by simp only [List.length_append,List.length_cons]; omega)
    refine ⟨m',st'',ys,?_,?_,.cons ⟨left,right,hsplit,rfl,hright,hleft⟩ hsorts⟩
    · rw [sortLoop,List.head?_cons,Option.getD_some,if_neg hq,if_neg hq']
      dsimp only
      rw [hprev,hnext,List.getLast?_concat,Option.getD_some,hwalk]
      exact hloop
    · rwa [Q.set_set] at hrep

/-- The queue that is sorted, and no other. -/
theorem sort_spec {fuel : ℕ} (st : σ) (h : Represents m Q) (hs : Q queue = some xs) (hfuel : xs.length < fuel) :
    ∃ m' st' ys, sort cmp fuel m queue st = .ok (m',st') ∧ Represents m' (Q.set queue (some ys)) ∧
      Sorts (Stops cmp) (Passes cmp) (xs.take 1) (xs.drop 1) ys := by
  have hring := h.ring queue xs hs
  obtain ⟨hnext,hprev⟩ := hring.sentinel
  unfold sort
  dsimp only
  rw [hnext,hprev]
  rcases xs with - | ⟨a,- | ⟨b,rest⟩⟩
  · exact ⟨m,st,[],if_pos rfl,by rwa [Sequences.set_eq_self hs],.nil []⟩
  · exact ⟨m,st,[a],if_pos rfl,by rwa [Sequences.set_eq_self hs],.nil [a]⟩
  · have hlast : a ≠ (b::rest).getLast (List.cons_ne_nil b rest) := by
      have ha := (List.nodup_cons.mp (List.nodup_cons.mp hring.nodup).2).1
      exact fun heq => ha (heq ▸ List.getLast_mem _)
    have hring' : m.Ring queue ([] ++ a::b::rest) := hring
    have hfirst : m.next a = b := hring'.pointers.1
    rw [List.getLast?_cons_cons,List.getLast?_eq_some_getLast (List.cons_ne_nil b rest)]
    simp only [List.head?_cons,Option.getD_some,if_neg hlast,hfirst]
    simp only [List.length_cons] at hfuel
    exact sortLoop_spec st h (show Q queue = some ([a] ++ b::rest) from hs) (by simp) (by simp only [List.length_cons]; omega)
      (by simp only [List.length_cons,List.length_nil]; omega)

theorem Represents.single (h : m.Ring queue xs) (hnull : null ∉ queue::xs) :
    Represents m (Sequences.set (fun _ => none) queue (some xs)) := by
  have hempty : Represents m fun _ => none := by
    constructor <;> simp
  exact hempty.set (fun t ys _ ht => by cases ht) (fun _ _ => ⟨rfl,rfl⟩) h (fun _ hz => hz) hnull

/-- For every comparison function the sort terminates and permutes the elements of the queue. When
the comparisons come from a total preorder, the queue is sorted, and ties stay in order. -/
theorem queue_sort_stable {fuel : ℕ} (h : WellFormed m queue xs) (hnull : null ∉ queue::xs) (st : σ)
    (hfuel : xs.length < fuel) :
    ∃ m' st' ys, sort cmp fuel m queue st = .ok (m',st') ∧ WellFormed m' queue ys ∧ ys.Perm xs ∧
      ∀ le : ℕ → ℕ → Prop, (∀ a b, le a b ∨ le b a) → (∀ a b c, le a b → le b c → le a c) →
        (∀ st m, ∀ a ∈ xs, ∀ b ∈ xs, (cmp st m a b).1 ≤ 0 ↔ le a b) →
        ys.Pairwise le ∧ ∀ x y, le x y → le y x → [x,y].Sublist xs → [x,y].Sublist ys := by
  have hrep := Represents.single (wellFormed_iff_ring.mp h) hnull
  obtain ⟨m',st',ys,hsort,hrep',hsorts⟩ := @sort_spec σ cmp m _ queue xs fuel st hrep (Sequences.set_same ..) hfuel
  have hxs : xs.take 1 ++ xs.drop 1 = xs := List.take_append_drop 1 xs
  refine ⟨m',st',ys,hsort,wellFormed_iff_ring.mpr (hrep'.ring queue ys (Sequences.set_same ..)),hxs ▸ hsorts.perm,?_⟩
  intro le htotal htrans hcmp
  have hle : Sorts le (fun p q => ¬ le p q) (xs.take 1) (xs.drop 1) ys := by
    refine hsorts.imp_of_mem ?_ ?_
    · rw [hxs]
      rintro p hp q hq ⟨st,m,hstop⟩
      exact (hcmp st m p hp q hq).mp hstop
    · rw [hxs]
      rintro p hp q hq ⟨st,m,hpass⟩ hle
      exact absurd ((hcmp st m p hp q hq).mpr hle) (not_le.mpr hpass)
  have hone : (xs.take 1).Pairwise le := by
    cases xs <;> simp
  refine ⟨hle.pairwise (fun _ _ h => h) (fun _ _ h => h) htotal htrans hone,fun x y hxy _ hsub => ?_⟩
  exact hle.stable (fun _ _ h => h) hxy (hxs.symm ▸ hsub)

/-- Sorting two elements by descending address. -/
theorem queue_sort_stable_pair : ∃ m' ys, sort (fun _ _ a b => ((b : ℤ) - a,())) 3 pair 1 () = .ok (m',()) ∧
    WellFormed m' 1 ys ∧ ys.Perm [2,3] ∧ ys.Pairwise (· ≥ ·) := by
  have hwell : WellFormed pair 1 [2,3] := wellFormed_iff_ring.mpr ⟨by decide,by decide⟩
  obtain ⟨m',st',ys,hsort,hwell',hperm,hsorted⟩ := @queue_sort_stable Unit (fun _ _ a b => ((b : ℤ) - a,())) pair 1
    [2,3] 3 hwell (by decide) () (by decide)
  obtain ⟨hpairwise,-⟩ := hsorted (· ≥ ·) (fun a b => le_total b a) (fun a b c h h' => h'.trans h)
    fun _ _ a _ b _ => by simp
  exact ⟨m',ys,hsort,hwell',hperm,hpairwise⟩

end InsideNginx.Queue
