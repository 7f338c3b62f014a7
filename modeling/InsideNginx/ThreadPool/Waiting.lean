import InsideNginx.ThreadPool.Tasks

/-! The counter `waiting` of a pool against its queue, and the bound on the queue that follows. -/
namespace InsideNginx.ThreadPool
open TailQueue
variable {κ τ : Type} [DecidableEq κ] [DecidableEq τ]
namespace Process

/-- The workers of a pool that have decremented `waiting` for their current round and not taken
a task yet. -/
def decremented (s : Process κ τ) (k : κ) : ℕ :=
  s.workers.countP fun w => decide (w.pool = k) && w.phase == .decremented

/-- The number of workers of a pool. -/
def threads (s : Process κ τ) (k : κ) : ℕ := s.workers.countP fun w => decide (w.pool = k)

/-- Posts, decrements and takes of a pool in balance, and its queue within the bound. -/
structure Counted (s : Process κ τ) (k : κ) : Prop where
  waiting : (s.tp k).waiting + s.decremented k + (s.history.pops k).length = (s.history.posts k).length
  bound : ((s.history.posts k).length : ℤ) - (s.history.pops k).length ≤ max (s.tp k).maxQueue 0 + s.threads k

variable {s s' : Process κ τ} {k : κ}

theorem decremented_le_threads (s : Process κ τ) (k : κ) : s.decremented k ≤ s.threads k := by
  refine List.countP_mono_left fun w _ h => ?_
  simp only [Bool.and_eq_true] at h
  exact h.1

/-- Replacing one entry changes a count by what the old and the new entry contribute. -/
lemma countP_set_add {α : Type} (q : α → Bool) {l : List α} {i : ℕ} {a b : α} (h : l[i]? = some a) :
    (l.set i b).countP q + (if q a then 1 else 0) = l.countP q + if q b then 1 else 0 := by
  obtain ⟨hlt,rfl⟩ := List.getElem?_eq_some_iff.mp h
  have hle := List.boole_getElem_le_countP (p := q) hlt
  rw [List.countP_set hlt]
  omega

/-- A worker goes to another phase. -/
theorem decremented_set {i : ℕ} {w : Worker κ τ} {phase : Phase τ} (hi : s.workers[i]? = some w)
    (hw : s'.workers = s.workers.set i { w with phase := phase }) (k : κ) :
    s'.threads k = s.threads k ∧
      s'.decremented k + (if w.pool = k ∧ w.phase = .decremented then 1 else 0) =
        s.decremented k + if w.pool = k ∧ phase = .decremented then 1 else 0 := by
  constructor
  · have hcount := countP_set_add (fun w => decide (w.pool = k)) (b := { w with phase := phase }) hi
    rw [← hw] at hcount
    exact Nat.add_right_cancel hcount
  · have hcount := countP_set_add (fun w => decide (w.pool = k) && w.phase == .decremented)
      (b := { w with phase := phase }) hi
    rw [← hw] at hcount
    simpa [decremented] using hcount

/-- The numbers of a pool that the bookkeeping is about. -/
def tally (s : Process κ τ) (k : κ) : ℤ × ℤ × ℕ × ℕ :=
  ((s.tp k).waiting,(s.tp k).maxQueue,(s.history.posts k).length,(s.history.pops k).length)

omit [DecidableEq τ] in
theorem tally_pop (s : Process κ τ) (i : ℕ) (w : Worker κ τ) (t : τ) (k : κ) :
    (s.pop i w t).tally k = ((s.tp k).waiting,(s.tp k).maxQueue,(s.history.posts k).length,
      (s.history.pops k).length + if k = w.pool then 1 else 0) := by
  have hpool : ∀ (s : Process κ τ) q, ((s.setQueue (.pool w.pool) q).tp k).waiting = (s.tp k).waiting ∧
      ((s.setQueue (.pool w.pool) q).tp k).maxQueue = (s.tp k).maxQueue := by
    intro s q
    by_cases hk : k = w.pool
    · subst hk; simp [setQueue,setPool]
    · simp [setQueue,setPool,hk]
  have hcounts : ((s.pop i w t).tp k).waiting = (s.tp k).waiting ∧
      ((s.pop i w t).tp k).maxQueue = (s.tp k).maxQueue := by
    simp only [Process.pop,setWorker]
    split <;> simp [hpool]
  simp only [tally,hcounts,(pop_spec s i w t).2.2.2.1,Prod.mk.injEq,true_and]
  by_cases hk : k = w.pool
  · subst hk; simp
  · simp [hk]

theorem tally_finish (s : Process κ τ) (i : ℕ) (w : Worker κ τ) (t : τ) (k : κ) :
    (s.finish i w t).tally k = s.tally k := by
  have hrest := rest_append (s.setTask t { s.task t with next := none }) .done t
  have hpair := congrArg (fun r => r.1 k) hrest
  exact congrArg (fun p : ℤ × ℤ => (p.1,p.2,(s.history.posts k).length,(s.history.pops k).length)) hpair

/-- A worker's step keeps the counts when what it does to the numbers of the pool balances. -/
theorem Counted.worked (h : s.Counted k) {i : ℕ} {w : Worker κ τ} (phase : Phase τ) (d : ℤ) (n : ℕ)
    (hi : s.workers[i]? = some w) (hw : s'.workers = s.workers.set i { w with phase := phase })
    (htally : s'.tally k =
      ((s.tp k).waiting + d,(s.tp k).maxQueue,(s.history.posts k).length,(s.history.pops k).length + n))
    (hbalance : d + ((if w.pool = k ∧ phase = .decremented then 1 else 0 : ℕ) : ℤ) + n =
      ((if w.pool = k ∧ w.phase = .decremented then 1 else 0 : ℕ) : ℤ)) : s'.Counted k := by
  obtain ⟨hwaiting,hbound⟩ := h
  have hle := decremented_le_threads s k
  obtain ⟨hthreads,hdec⟩ := decremented_set hi hw k
  simp only [tally,Prod.mk.injEq] at htally
  obtain ⟨hwait,hmax,hposts,hpops⟩ := htally
  refine ⟨?_,?_⟩
  · rw [hwait,hposts,hpops]
    push_cast only [Nat.cast_add] at hbalance ⊢
    omega
  · rw [hposts,hpops,hmax,hthreads]
    push_cast
    omega

/-- A post counts the task as waiting, and finds room below `max_queue`. -/
theorem Counted.posted (h : s.Counted k) {k' : κ} {t : τ} (ht : (s.task t).active = false)
    (hroom : (s.tp k').waiting < (s.tp k').maxQueue) : (s.taskPost k' t).2.Counted k := by
  obtain ⟨hwaiting,hbound⟩ := h
  have hle := decremented_le_threads s k
  obtain ⟨s₁,-,-,-,-,-,-,hworkers,hwait,hmax,hhistory⟩ := taskPost_ok ht hroom
  have hdec : (s.taskPost k' t).2.decremented k = s.decremented k := by simp only [decremented,hworkers]
  have hthreads : (s.taskPost k' t).2.threads k = s.threads k := by simp only [threads,hworkers]
  have hposts : ((s.taskPost k' t).2.history.posts k).length =
      (s.history.posts k).length + if k = k' then 1 else 0 := by
    rw [hhistory]
    by_cases hk : k = k'
    · subst hk; simp
    · simp [hk]
  have hpops : (s.taskPost k' t).2.history.pops k = s.history.pops k := by rw [hhistory]
  refine ⟨?_,?_⟩
  · rw [hwait,hdec,hposts,hpops]
    split <;> push_cast <;> omega
  · rw [hposts,hpops,hmax,hthreads]
    split
    · rename_i hk
      subst hk
      push_cast
      omega
    · push_cast
      omega

/-- One step keeps the counts of every pool. -/
theorem Counted.step {a : Action κ τ} (h : s.Counted k) (hstep : s.step a = some s') : s'.Counted k := by
  cases a with
  | post k' t =>
    cases hstep
    by_cases href : (s.task t).active = true ∨ (s.tp k').maxQueue ≤ (s.tp k').waiting
    · rw [taskPost_refused href]
      exact h
    · rw [not_or,not_le,Bool.not_eq_true] at href
      exact h.posted href.1 href.2
  | work i =>
    obtain ⟨w,hi,hwork⟩ := Option.bind_eq_some_iff.mp hstep
    cases hw : w.phase with
    | start =>
      rw [hw] at hwork
      cases hwork
      have htally : (s.decrement i w).tally k = ((s.tp k).waiting + (if w.pool = k then -1 else 0),
          (s.tp k).maxQueue,(s.history.posts k).length,(s.history.pops k).length + 0) := by
        by_cases hk : w.pool = k
        · subst hk; simp [tally,Process.decrement,setWorker,setPool]; ring
        · simp [tally,Process.decrement,setWorker,setPool,hk,Ne.symm hk]
      refine h.worked .decremented _ 0 hi rfl htally ?_
      simp only [hw]
      split <;> simp_all
    | decremented =>
      rw [hw] at hwork
      obtain ⟨t,-,rfl⟩ := Option.map_eq_some_iff.mp hwork
      refine h.worked (.popped t) 0 (if k = w.pool then 1 else 0) hi (pop_spec s i w t).2.1
        ((tally_pop s i w t k).trans (by rw [add_zero])) ?_
      simp [hw,eq_comm]
    | popped t =>
      rw [hw] at hwork
      cases hwork
      exact h.worked (.ran t) 0 0 hi rfl (by simp [tally,Process.run,setWorker]) (by simp [hw])
    | ran t =>
      rw [hw] at hwork
      cases hwork
      exact h.worked .start 0 0 hi (finish_workers s i w t) ((tally_finish s i w t k).trans (by simp [tally])) (by simp [hw])
  | drain =>
    simp only [Process.step] at hstep
    split at hstep
    · cases hstep; exact ⟨h.1,h.2⟩
    · cases hstep
  | deliver =>
    obtain ⟨t,-,rfl⟩ := Option.map_eq_some_iff.mp hstep
    exact ⟨h.1,h.2⟩

theorem Counted.init (h : (posting κ τ).init s) (k : κ) : s.Counted k := by
  obtain ⟨-,hpools,-,hworkers,-,hhistory,-⟩ := h
  have hdec : s.decremented k = 0 := by
    refine List.countP_eq_zero.mpr fun w hw => ?_
    simp [hworkers w hw]
  refine ⟨?_,?_⟩
  · simp [hpools k,hhistory k,hdec]
  · simp only [hhistory k,List.length_nil]
    omega

end Process

/-- `waiting` is the number of queued tasks less the number of workers between their decrement
and their task, so a post of an inactive task is refused exactly when that difference reaches
`max_queue`, and the queue holds at most `max_queue` tasks and one for each worker. -/
theorem waiting_eq {s : Process κ τ} (h : (posting κ τ).Reachable s) (k : κ) {queued : List τ}
    (hqueued : s.Queued (.pool k) queued) :
    (s.tp k).waiting = queued.length - s.decremented k ∧
    (∀ t, (s.task t).active = false → ((s.taskPost k t).1 = .error ↔
      (s.tp k).maxQueue ≤ queued.length - s.decremented k)) ∧
    (queued.length : ℤ) ≤ max (s.tp k).maxQueue 0 + s.threads k := by
  have hcounted : s.Counted k := h.invariant (I := fun s => s.Counted k)
    (fun s hinit => Process.Counted.init hinit k) fun _ _ _ _ ih hstep => ih.step hstep
  obtain ⟨stage,queues,batch,hlinked,-,hlogged⟩ := reachable_sound h
  obtain rfl : queues (.pool k) = queued := (hlinked.queue (.pool k)).1.unique hqueued.1
  have hlength := congrArg List.length (hlogged.posts k)
  rw [List.length_append] at hlength
  obtain ⟨hwaiting,hbound⟩ := hcounted
  have heq : (s.tp k).waiting = (queues (.pool k)).length - s.decremented k := by omega
  refine ⟨heq,fun t ht => ?_,by omega⟩
  rw [← heq]
  simp only [Process.taskPost,ht,Bool.false_eq_true,if_false]
  split <;> simp_all

/-- One worker has decremented the counter of a pool and waits. -/
theorem waiting_eq_idle : ∃ s : Process Unit ℕ, (posting Unit ℕ).Reachable s ∧
    s.decremented () = 1 ∧ (s.tp ()).waiting = -1 ∧ (s.tp ()).waiting = ([] : List ℕ).length - s.decremented () := by
  obtain ⟨s,hs⟩ : ∃ s, TransitionSystem.replay Process.step idleProcess [.work 0] = some s := ⟨_,rfl⟩
  have hreach : (posting Unit ℕ).Reachable s :=
    TransitionSystem.Reachable.of_replay (.init idleProcess_init) hs
  have hqueued : s.Queued (.pool ()) [] := by cases hs; exact ⟨rfl,rfl⟩
  obtain ⟨hwaiting,-⟩ := waiting_eq hreach () hqueued
  refine ⟨s,hreach,?_,?_,hwaiting⟩
  · cases hs; decide
  · cases hs; decide

end InsideNginx.ThreadPool
