import InsideNginx.ThreadPool.Wakeup

/-! The end of a worker process: its main thread destroys the pools one after another, each with
an exit task on its stack that it posts once for each worker. The workers go on meanwhile. -/
namespace InsideNginx.ThreadPool
open TailQueue
variable {κ τ : Type}

/-- Where the main thread is: in `ngx_thread_pool_exit_worker` before its next pool, or in
`ngx_thread_pool_destroy` at the head of the loop, in `while (lock)`, or past the loop. -/
inductive Main (κ : Type)
  | exitWorker
  | loop (tp : κ) (n : ℕ)
  | spin (tp : κ) (n : ℕ)
  | destroyed (tp : κ)
  deriving DecidableEq, Repr

/-- The process with the pools that are still to be destroyed, the local variable `lock`, and the
workers that have called `pthread_exit`. `takers` records who has taken the exit task, and
`before` how many posts a pool had when its destruction began. -/
structure Shutdown (κ τ : Type) where
  process : Process κ τ
  pools : List κ
  main : Main κ
  lock : Bool
  exited : Finset ℕ
  takers : List ℕ
  before : κ → ℕ

inductive ShutdownAction
  | main
  | work (worker : ℕ)
  deriving DecidableEq, Repr

namespace Shutdown
section
variable [DecidableEq κ] [DecidableEq τ] (threads : κ → ℕ) (e : τ)

/-- The main thread goes on; `e` is the exit task. -/
def mainStep (s : Shutdown κ τ) : Option (Shutdown κ τ) :=
  match s.main with
  | .exitWorker =>
    match s.pools with
    | [] => none
    | k::ks => some { s with
        process := s.process.setTask e ⟨none,0,false,false⟩
        pools := ks
        main := .loop k 0
        before := Function.update s.before k (s.process.history.posts k).length }
  | .loop k n =>
    if n < threads k then
      match s.process.taskPost k e with
      | (.error,p) => some { s with process := p, lock := true, main := .exitWorker }
      | (.ok,p) => some { s with process := p, lock := true, main := .spin k n }
    else some { s with main := .destroyed k }
  | .spin k n =>
    if s.lock then none
    else some { s with
      process := s.process.setTask e { s.process.task e with active := false }
      main := .loop k (n+1) }
  | .destroyed _ => some { s with main := .exitWorker }

/-- Worker `i` goes on. The handler of the exit task is `ngx_thread_pool_exit_handler`, which does
not return. -/
def work (s : Shutdown κ τ) (i : ℕ) : Option (Shutdown κ τ) :=
  if i ∈ s.exited then none
  else s.process.workers[i]?.bind fun w =>
    if w.phase = .popped e then some { s with lock := false, exited := insert i s.exited }
    else (s.process.work i).map fun p => { s with
      process := p
      takers := if w.phase = .decremented ∧ (s.process.tp w.pool).queue.first = some e then s.takers ++ [i]
        else s.takers }

def step (s : Shutdown κ τ) : ShutdownAction → Option (Shutdown κ τ)
  | .main => s.mainStep threads e
  | .work i => s.work e i

end
end Shutdown

/-- The runs of a process that shuts down after any run: nobody else posts, and no pool has more
workers than its `threads`, of which the configuration takes at least one. -/
def shutting [DecidableEq κ] [DecidableEq τ] (threads : κ → ℕ) (e : τ) : TransitionSystem (Shutdown κ τ) ShutdownAction :=
  .ofFunction (fun s => (posting κ τ).Reachable s.process ∧ (s.process.task e).active = false ∧ s.pools.Nodup ∧
      s.main = .exitWorker ∧ s.exited = ∅ ∧ s.takers = [] ∧
      (∀ k, s.before k = (s.process.history.posts k).length) ∧
      ∀ k, 1 ≤ threads k ∧ (s.process.crew k).card ≤ threads k)
    (Shutdown.step threads e)

namespace Process

/-- The place of a task in a worker's hands. -/
theorem occupies_hand {s : Process κ τ} (queues : QueueName κ → List τ) (batch : List τ) {i : ℕ} {w : Worker κ τ}
    {t : τ} (hi : s.workers[i]? = some w) (ht : w.phase.task = some t) : ∃ st, s.Occupies queues batch st t ∧ (st = .popped i ∨ st = .ran i) := by
  rcases Phase.task_eq_some.mp ht with hw | hw
  · exact ⟨.popped i,⟨w,hi,hw⟩,.inl rfl⟩
  · exact ⟨.ran i,⟨w,hi,hw⟩,.inr rfl⟩

/-- Every worker has a task of its own pool. -/
def Owned (s : Process κ τ) : Prop :=
  ∀ (i : ℕ) (w : Worker κ τ) t, s.workers[i]? = some w → w.phase.task = some t → (s.history.job t).1 = w.pool

section
variable {s s' : Process κ τ}

/-- A worker's step changes its own phase, and the jobs stay. -/
theorem Owned.worked (h : s.Owned) {i : ℕ} {w : Worker κ τ} (phase : Phase τ) (hi : s.workers[i]? = some w)
    (hworkers : s'.workers = s.workers.set i { w with phase := phase }) (hjob : s'.history.job = s.history.job)
    (hnew : ∀ t, phase.task = some t → (s.history.job t).1 = w.pool) : s'.Owned := by
  intro j w' t hj ht
  rw [hworkers] at hj
  rw [hjob]
  by_cases hji : j = i
  · subst hji
    rw [List.getElem?_set_self (List.getElem?_eq_some_iff.mp hi).1] at hj
    cases hj
    exact hnew t ht
  · rw [List.getElem?_set_ne (Ne.symm hji)] at hj
    exact h j w' t hj ht

variable [DecidableEq κ] [DecidableEq τ]

/-- The task that is posted is in nobody's hands. -/
theorem Owned.posted (h : s.Owned) {stage : Job κ → Stage κ} {queues : QueueName κ → List τ} {batch : List τ}
    (hstaged : s.Staged stage queues batch) {k : κ} {u : τ} (hu : (s.task u).active = false)
    (hroom : (s.tp k).waiting < (s.tp k).maxQueue) : (s.taskPost k u).2.Owned := by
  intro i w t hi ht
  obtain ⟨-,-,-,-,-,-,-,hworkers,-,-,hhistory⟩ := taskPost_ok hu hroom
  rw [hworkers] at hi
  obtain ⟨st,hocc,-⟩ := occupies_hand queues batch hi ht
  have hne : t ≠ u := by
    rintro rfl
    exact hstaged.unoccupied hu st hocc
  rw [hhistory]
  simpa [hne] using h i w t hi ht

theorem Owned.step (h : s.Owned) (hreach : (posting κ τ).Reachable s) {a : Action κ τ} (hstep : s.step a = some s') :
    s'.Owned := by
  obtain ⟨stage,queues,batch,hsound⟩ := reachable_sound hreach
  cases a with
  | post k u =>
    cases hstep
    by_cases href : (s.task u).active = true ∨ (s.tp k).maxQueue ≤ (s.tp k).waiting
    · rw [taskPost_refused href]
      exact h
    · rw [not_or,not_le,Bool.not_eq_true] at href
      exact h.posted hsound.staged href.1 href.2
  | work i =>
    obtain ⟨w,hi,hwork⟩ := Option.bind_eq_some_iff.mp hstep
    cases hw : w.phase with
    | start =>
      rw [hw] at hwork
      cases hwork
      exact h.worked .decremented hi rfl rfl fun t ht => by cases ht
    | decremented =>
      rw [hw] at hwork
      obtain ⟨u,hfirst,rfl⟩ := Option.map_eq_some_iff.mp hwork
      obtain ⟨-,hworkers,-,hhistory,-⟩ := pop_spec s i w u
      refine h.worked _ hi hworkers (by rw [hhistory]) fun t ht => ?_
      cases ht
      have hhead := (hsound.linked.queue (.pool w.pool)).1.head
      have hzero := hhead.symm.trans hfirst
      rw [List.head?_eq_getElem?] at hzero
      rw [hsound.logged.order w.pool 0 u hzero]
    | popped u =>
      rw [hw] at hwork
      cases hwork
      exact h.worked (.ran u) hi rfl rfl fun t ht => h i w t hi (by rw [hw]; exact ht)
    | ran u =>
      rw [hw] at hwork
      cases hwork
      exact h.worked _ hi (finish_workers s i w u) rfl fun t ht => by cases ht
  | drain =>
    simp only [Process.step] at hstep
    split at hstep
    · cases hstep; exact h
    · cases hstep
  | deliver =>
    obtain ⟨u,-,rfl⟩ := Option.map_eq_some_iff.mp hstep
    exact h

/-- A worker has a task of its own pool. -/
theorem job_pool (h : (posting κ τ).Reachable s) {i : ℕ} {w : Worker κ τ} {t : τ} (hi : s.workers[i]? = some w)
    (ht : w.phase.task = some t) : (s.history.job t).1 = w.pool := by
  have howned : s.Owned := by
    refine h.invariant (fun s hinit i w t hi ht => ?_) fun s a s' hreach ih hstep => Owned.step ih hreach hstep
    obtain ⟨-,-,-,hworkers,-⟩ := hinit
    rw [hworkers w (List.mem_of_getElem? hi)] at ht
    cases ht
  exact howned i w t hi ht

end

end Process

namespace Shutdown
open ThreadPool.Process

/-- The task that a worker has in its hands, unless it has exited. -/
def hand (s : Shutdown κ τ) (i : ℕ) : Option τ :=
  if i ∈ s.exited then none else s.process.workers[i]?.bind fun w => w.phase.task

section
variable {s : Shutdown κ τ}

theorem hand_of {i : ℕ} {w : Worker κ τ} (hlive : i ∉ s.exited) (hi : s.process.workers[i]? = some w) :
    s.hand i = w.phase.task := by simp [hand,hlive,hi]

/-- A live worker goes to another phase. -/
theorem hand_set {p : Process κ τ} {i : ℕ} {w : Worker κ τ} {phase : Phase τ} (takers : List ℕ)
    (hlive : i ∉ s.exited) (hi : s.process.workers[i]? = some w)
    (hworkers : p.workers = s.process.workers.set i { w with phase := phase }) :
    { s with process := p, takers := takers }.hand = Function.update s.hand i phase.task := by
  have hlt := (List.getElem?_eq_some_iff.mp hi).1
  funext j
  by_cases hj : j = i
  · subst hj
    simp [hand,hworkers,hlive,hlt]
  · simp [hand,hworkers,Function.update_of_ne hj,List.getElem?_set_ne (Ne.symm hj)]

/-- A worker exits. -/
theorem hand_exit (i : ℕ) (lock : Bool) :
    { s with lock := lock, exited := insert i s.exited }.hand = Function.update s.hand i none := by
  funext j
  by_cases hj : j = i
  · subst hj
    simp [hand]
  · simp [hand,hj]

/-- Who has a task after a worker has taken one. -/
theorem hand_taken {i j : ℕ} {t u : τ} (hj : Function.update s.hand i (some t) j = some u) :
    j = i ∧ u = t ∨ j ≠ i ∧ s.hand j = some u := by
  by_cases hji : j = i
  · subst hji
    rw [Function.update_self] at hj
    exact .inl ⟨rfl,(Option.some.inj hj).symm⟩
  · rw [Function.update_of_ne hji] at hj
    exact .inr ⟨hji,hj⟩

theorem hand_kept {i j : ℕ} {t u : τ} (hhas : s.hand i = some t) (hne : u ≠ t) (hj : s.hand j = some u) :
    Function.update s.hand i none j = some u := by
  rw [Function.update_of_ne]
  · exact hj
  · rintro rfl
    rw [hhas] at hj
    exact hne (Option.some.inj hj).symm

end

section
variable {s : Shutdown κ τ} {stage : Job κ → Stage κ} {queues : QueueName κ → List τ} {batch : List τ} {i j : ℕ} {t : τ}
  (hstaged : s.process.Staged stage queues batch) (hexited : s.exited = ∅)
include hexited

/-- Before the shutdown a worker has what the stages of the jobs say. -/
theorem hand_occupies (hi : s.hand i = some t) :
    ∃ st, s.process.Occupies queues batch st t ∧ (st = .popped i ∨ st = .ran i) := by
  simp only [hand,hexited,Finset.notMem_empty,if_false] at hi
  obtain ⟨w,hi,ht⟩ := Option.bind_eq_some_iff.mp hi
  exact occupies_hand queues batch hi ht

include hstaged

/-- What a worker has in its hands is in no list. -/
theorem held_init (hi : s.hand i = some t) : (∀ name, t ∉ queues name) ∧ t ∉ batch := by
  obtain ⟨st,hocc,hst⟩ := hand_occupies hexited hi
  refine ⟨fun name hmem => ?_,fun hmem => ?_⟩
  · exact hstaged.ne hocc (show s.process.Occupies queues batch (.queued name) t from hmem)
      (by rcases hst with rfl | rfl <;> simp) rfl
  · exact hstaged.ne hocc (show s.process.Occupies queues batch .drained t from hmem)
      (by rcases hst with rfl | rfl <;> simp) rfl

theorem held_inj_init (hi : s.hand i = some t) (hj : s.hand j = some t) : i = j := by
  obtain ⟨st,hocc,hst⟩ := hand_occupies hexited hi
  obtain ⟨st',hocc',hst'⟩ := hand_occupies hexited hj
  have heq := (hstaged.active hocc).2.symm.trans (hstaged.active hocc').2
  rcases hst with rfl | rfl <;> rcases hst' with rfl | rfl <;> simp_all

end

variable [DecidableEq κ]

/-- How many workers of a pool have exited. -/
def stopped (s : Shutdown κ τ) (k : κ) : ℕ := (s.exited ∩ s.process.crew k).card

/-- How far the main thread has come with its pool. -/
def Progress (threads : κ → ℕ) (s : Shutdown κ τ) : Prop :=
  match s.main with
  | .exitWorker => True
  | .loop k n => k ∉ s.pools ∧ s.stopped k = n ∧ n ≤ threads k
  | .spin k n => k ∉ s.pools ∧ (s.stopped k = if s.lock then n else n+1) ∧ n < threads k
  | .destroyed k => s.stopped k = threads k

/-- The numbers of exited workers and of posts. -/
structure Counts (threads : κ → ℕ) (s : Shutdown κ τ) : Prop where
  progress : s.Progress threads
  pools : s.pools.Nodup
  uncalled : ∀ k ∈ s.pools, s.stopped k = 0 ∧ (s.process.history.posts k).length = s.before k
  sized : ∀ k, 1 ≤ threads k ∧ (s.process.crew k).card ≤ threads k

/-- The exit task is in no list and in no hands. -/
def Away (e : τ) (s : Shutdown κ τ) (queues : QueueName κ → List τ) : Prop :=
  (∀ name, e ∉ queues name) ∧ ∀ i, s.hand i ≠ some e

/-- The invariant of the shutdown. -/
structure Orderly (threads : κ → ℕ) (e : τ) (s : Shutdown κ τ) (queues : QueueName κ → List τ)
    (batch : List τ) : Prop where
  linked : s.process.Linked queues batch
  held : ∀ i t, s.hand i = some t → (∀ name, t ∉ queues name) ∧ t ∉ batch
  held_inj : ∀ i j t, s.hand i = some t → s.hand j = some t → i = j
  ran : ∀ i w t, i ∉ s.exited → s.process.workers[i]? = some w → w.phase = .ran t →
    t ≠ e ∧ s.process.history.job t ∈ s.process.history.runs.map (·.2)
  dones : ∀ j ∈ s.process.history.dones, j ∈ s.process.history.runs.map (·.2)
  exit_batch : e ∉ batch
  exit_queue : ∀ name, e ∈ queues name → s.lock = true ∧
    ∃ k n xs, s.main = .spin k n ∧ name = .pool k ∧ queues name = xs ++ [e]
  exit_held : ∀ i, s.hand i = some e → s.lock = true ∧ ∃ k n, s.main = .spin k n ∧ i ∈ s.process.crew k
  takers : ∀ i, i ∈ s.takers ↔ i ∈ s.exited ∨ s.hand i = some e
  takers_nodup : s.takers.Nodup
  emptied : ∀ k, ∀ i ∈ s.takers, i ∈ s.process.crew k → ∀ t ∈ queues (.pool k), t = e
  jobs : ∀ k m, m < s.before k → (k,m) ∈ s.process.history.dones ∨
    ∃ t ≠ e, s.process.history.job t = (k,m) ∧ (t ∈ queues (.pool k) ∨ ∃ i ∈ s.process.crew k, s.hand i = some t)
  counts : s.Counts threads

variable {threads : κ → ℕ} {e : τ} {s s' : Shutdown κ τ} {queues : QueueName κ → List τ} {batch : List τ}

theorem mem_enqueued {name other : QueueName κ} {x t : τ}
    (ht : t ∈ Function.update queues name (queues name ++ [x]) other) :
    t ∈ queues other ∨ t = x ∧ other = name := by
  by_cases hother : other = name
  · subst hother
    simpa [or_comm] using ht
  · rw [Function.update_of_ne hother] at ht
    exact .inl ht

/-- When a worker gives its task away, the others keep theirs, which are other tasks. -/
theorem Orderly.hand_emptied (h : s.Orderly threads e queues batch) {i j : ℕ} {t u : τ} (hhas : s.hand i = some t)
    (hj : Function.update s.hand i none j = some u) : s.hand j = some u ∧ u ≠ t := by
  by_cases hji : j = i
  · subst hji
    rw [Function.update_self] at hj
    cases hj
  · rw [Function.update_of_ne hji] at hj
    refine ⟨hj,?_⟩
    rintro rfl
    exact hji (h.held_inj j i u hj hhas)

/-- Only the worker that takes a step can come to have run another task. -/
theorem Orderly.ran_set (h : s.Orderly threads e queues batch) {i : ℕ} {w : Worker κ τ} {phase : Phase τ}
    {jobs : List (κ × ℕ)} (hi : s.process.workers[i]? = some w)
    (hruns : ∀ j ∈ s.process.history.runs.map (·.2), j ∈ jobs)
    (hran : ∀ t, phase = .ran t → t ≠ e ∧ s.process.history.job t ∈ jobs) (j : ℕ) (v : Worker κ τ) (t : τ)
    (hj : j ∉ s.exited) (hv : (s.process.workers.set i { w with phase := phase })[j]? = some v)
    (hphase : v.phase = .ran t) : t ≠ e ∧ s.process.history.job t ∈ jobs := by
  by_cases hji : j = i
  · subst hji
    rw [List.getElem?_set_self (List.getElem?_eq_some_iff.mp hi).1] at hv
    cases hv
    exact hran t hphase
  · rw [List.getElem?_set_ne (Ne.symm hji)] at hv
    exact (h.ran j v t hj hv hphase).imp id (hruns _)

/-- Outside `while (lock)` the exit task is nowhere, and after its handler neither. -/
theorem Orderly.away (h : s.Orderly threads e queues batch) (hidle : s.lock = false ∨ ∀ k n, s.main ≠ .spin k n) :
    s.Away e queues := by
  refine ⟨fun name hmem => ?_,fun i hi => ?_⟩
  · obtain ⟨hlock,k,n,xs,hmain,-⟩ := h.exit_queue name hmem
    rcases hidle with hidle | hidle
    · rw [hlock] at hidle; cases hidle
    · exact hidle k n hmain
  · obtain ⟨hlock,k,n,hmain,-⟩ := h.exit_held i hi
    rcases hidle with hidle | hidle
    · rw [hlock] at hidle; cases hidle
    · exact hidle k n hmain

/-- A step that moves nobody to another pool and posts nothing keeps the numbers. -/
theorem Counts.congr {p : Process κ τ} {takers : List ℕ} (h : s.Counts threads) (hcrew : p.crew = s.process.crew)
    (hposts : p.history.posts = s.process.history.posts) :
    Counts threads { s with process := p, takers := takers } where
  progress := by
    have hprogress := h.progress
    unfold Progress stopped at hprogress ⊢
    rw [← hcrew] at hprogress
    exact hprogress
  pools := h.pools
  uncalled k hk := by
    rw [stopped,hcrew,hposts]
    exact h.uncalled k hk
  sized k := by
    rw [hcrew]
    exact h.sized k

/-! ### Taking a task -/

section
variable {i : ℕ} {w : Worker κ τ} {t : τ} {xs : List τ} {name : QueueName κ} (h : s.Orderly threads e queues batch)
include h

/-- A task that is taken is in no list any more. -/
theorem Orderly.held_taken (hxs : queues name = t::xs) {j : ℕ} {u : τ} (hj : Function.update s.hand i (some t) j = some u) :
    (∀ other, u ∉ Function.update queues name xs other) ∧ u ∉ batch := by
  rcases hand_taken hj with ⟨-,rfl⟩ | ⟨-,hold⟩
  · exact ⟨fun other hu => (h.linked.mem_dequeued hxs hu).2 rfl,h.linked.disjoint_batch name u (hxs ▸ List.mem_cons_self)⟩
  · exact ⟨fun other hu => (h.held j u hold).1 other (h.linked.mem_dequeued hxs hu).1,(h.held j u hold).2⟩

/-- A queued task was in nobody's hands. -/
theorem Orderly.held_inj_taken (hmem : t ∈ queues name) {j j' : ℕ} {u : τ}
    (hj : Function.update s.hand i (some t) j = some u) (hj' : Function.update s.hand i (some t) j' = some u) : j = j' := by
  rcases hand_taken hj with ⟨rfl,rfl⟩ | ⟨-,hold⟩
  · rcases hand_taken hj' with ⟨rfl,-⟩ | ⟨-,hold'⟩
    · rfl
    · exact absurd hmem ((h.held j' u hold').1 name)
  · rcases hand_taken hj' with ⟨-,rfl⟩ | ⟨-,hold'⟩
    · exact absurd hmem ((h.held j u hold).1 name)
    · exact h.held_inj j j' u hold hold'

/-- The exit task stays the last one of its queue. -/
theorem Orderly.exit_queue_taken (hxs : queues name = t::xs) {other : QueueName κ}
    (hmem : e ∈ Function.update queues name xs other) : s.lock = true ∧
      ∃ k n ys, s.main = .spin k n ∧ other = .pool k ∧ Function.update queues name xs other = ys ++ [e] := by
  obtain ⟨hold,hne⟩ := h.linked.mem_dequeued hxs hmem
  obtain ⟨hlock,k,n,ys,hmain,hother,hys⟩ := h.exit_queue other hold
  by_cases hname : other = name
  · subst hname
    rw [hxs] at hys
    rw [Function.update_self]
    cases ys with
    | nil => exact absurd (List.cons.inj hys).1.symm hne
    | cons y ys => exact ⟨hlock,k,n,ys,hmain,hother,(List.cons.inj hys).2⟩
  · exact ⟨hlock,k,n,ys,hmain,hother,by rw [Function.update_of_ne hname,hys]⟩

/-- Nothing is behind the exit task. -/
theorem Orderly.exit_last (hxs : queues name = e::xs) : xs = [] := by
  obtain ⟨-,-,-,ys,-,-,hys⟩ := h.exit_queue name (hxs ▸ List.mem_cons_self)
  have hnodup := h.linked.nodup name
  rw [hxs] at hys hnodup
  cases ys with
  | nil => exact (List.cons.inj hys).2
  | cons y ys =>
    obtain ⟨rfl,hrest⟩ := List.cons.inj hys
    exact absurd (by rw [hrest]; simp) (List.nodup_cons.mp hnodup).1

/-- The exit task goes to a worker of the pool that is destroyed. -/
theorem Orderly.exit_held_taken (hi : s.process.workers[i]? = some w) (hmem : t ∈ queues (.pool w.pool)) {j : ℕ}
    (hj : Function.update s.hand i (some t) j = some e) :
    s.lock = true ∧ ∃ k n, s.main = .spin k n ∧ j ∈ s.process.crew k := by
  rcases hand_taken hj with ⟨rfl,rfl⟩ | ⟨-,hold⟩
  · obtain ⟨hlock,k,n,ys,hmain,hname,-⟩ := h.exit_queue _ hmem
    exact ⟨hlock,k,n,hmain,(mem_crew hi).mpr (QueueName.pool.inj hname)⟩
  · exact h.exit_held j hold

/-- The jobs of the pool that are not finished are in its queue or in hands. -/
theorem Orderly.jobs_taken (hi : s.process.workers[i]? = some w) (hxs : queues (.pool w.pool) = t::xs)
    (hidle : s.hand i = none) {k : κ} {m : ℕ} (hm : m < s.before k) :
    (k,m) ∈ s.process.history.dones ∨ ∃ u ≠ e, s.process.history.job u = (k,m) ∧
      (u ∈ Function.update queues (.pool w.pool) xs (.pool k) ∨
        ∃ j ∈ s.process.crew k, Function.update s.hand i (some t) j = some u) := by
  refine (h.jobs k m hm).imp id ?_
  rintro ⟨u,hne,hjob,hplace⟩
  refine ⟨u,hne,hjob,?_⟩
  rcases hplace with hu | ⟨j,hj,hhold⟩
  · by_cases hk : k = w.pool
    · subst hk
      rw [hxs] at hu
      rcases List.mem_cons.mp hu with rfl | hu
      · exact .inr ⟨i,(mem_crew hi).mpr rfl,Function.update_self ..⟩
      · exact .inl (by rw [Function.update_self]; exact hu)
    · exact .inl (by rw [Function.update_of_ne (by simpa using hk)]; exact hu)
  · refine .inr ⟨j,hj,?_⟩
    rw [Function.update_of_ne]
    · exact hhold
    · rintro rfl
      rw [hidle] at hhold
      cases hhold

variable [DecidableEq τ]

/-- Who takes the exit task is recorded. -/
theorem Orderly.mem_takers_taken (hlive : i ∉ s.exited) (hidle : s.hand i = none) (t : τ) (j : ℕ) :
    j ∈ (if t = e then s.takers ++ [i] else s.takers) ↔
      j ∈ s.exited ∨ Function.update s.hand i (some t) j = some e := by
  by_cases hji : j = i
  · subst hji
    have hnot : j ∉ s.takers := by rw [h.takers,hidle]; simp [hlive]
    split
    · rename_i heq
      simp [heq]
    · rename_i hne
      simp [hnot,hlive,hne]
  · rw [Function.update_of_ne hji,← h.takers]
    split <;> simp [hji]

theorem Orderly.takers_nodup_taken (hlive : i ∉ s.exited) (hidle : s.hand i = none) (t : τ) :
    (if t = e then s.takers ++ [i] else s.takers).Nodup := by
  have hnot : i ∉ s.takers := by rw [h.takers,hidle]; simp [hlive]
  split
  · exact List.nodup_append'.mpr ⟨h.takers_nodup,List.nodup_singleton i,List.disjoint_singleton.mpr hnot⟩
  · exact h.takers_nodup

/-- A worker that has just taken the exit task leaves an empty queue. -/
theorem Orderly.emptied_taken (hi : s.process.workers[i]? = some w) (hxs : queues (.pool w.pool) = t::xs) {k : κ} {j : ℕ}
    (hj : j ∈ if t = e then s.takers ++ [i] else s.takers) (hjk : j ∈ s.process.crew k) {u : τ}
    (hu : u ∈ Function.update queues (.pool w.pool) xs (.pool k)) : u = e := by
  have hold := (h.linked.mem_dequeued hxs hu).1
  split at hj
  · rename_i heq
    rcases List.mem_append.mp hj with hj | hj
    · exact h.emptied k j hj hjk u hold
    · obtain rfl := List.mem_singleton.mp hj
      obtain rfl : w.pool = k := (mem_crew hi).mp hjk
      have hlast : xs = [] := h.exit_last (by rw [hxs,heq])
      rw [Function.update_self,hlast] at hu
      cases hu
  · exact h.emptied k j hj hjk u hold

end

/-! ### The main thread -/

variable [DecidableEq τ]

/-- The main thread goes on while the exit task is nowhere; all it may write is this task. -/
theorem Orderly.goOn (h : s.Orderly threads e queues batch) (haway : s.Away e queues) (task : Task τ)
    (pools : List κ) (main : Main κ) (lock : Bool) (hpools : pools.Sublist s.pools)
    (hprogress : Progress threads { s with process := s.process.setTask e task, pools := pools, main := main, lock := lock }) :
    Orderly threads e { s with process := s.process.setTask e task, pools := pools, main := main, lock := lock }
      queues batch where
  linked := h.linked.clear haway.1 h.exit_batch task
  held := h.held
  held_inj := h.held_inj
  ran := h.ran
  dones := h.dones
  exit_batch := h.exit_batch
  exit_queue name hmem := absurd hmem (haway.1 name)
  exit_held i hi := absurd hi (haway.2 i)
  takers := h.takers
  takers_nodup := h.takers_nodup
  emptied := h.emptied
  jobs := h.jobs
  counts := ⟨hprogress,h.counts.pools.sublist hpools,fun k hk => h.counts.uncalled k (hpools.subset hk),h.counts.sized⟩

/-- The exit task is posted. -/
theorem Orderly.post (h : s.Orderly threads e queues batch) {k : κ} {n : ℕ} (hmain : s.main = .loop k n)
    (hn : n < threads k) (hactive : (s.process.task e).active = false)
    (hroom : (s.process.tp k).waiting < (s.process.tp k).maxQueue) :
    Orderly threads e { s with process := (s.process.taskPost k e).2, lock := true, main := .spin k n }
      (Function.update queues (.pool k) (queues (.pool k) ++ [e])) batch := by
  have haway := h.away (.inr fun k' n' => by rw [hmain]; simp)
  obtain ⟨-,-,-,-,-,-,-,hworkers,-,-,hhistory⟩ := taskPost_ok hactive hroom
  have hcrew := crew_congr (s := s.process) (pools_step (a := .post k e) rfl)
  have hhand : { s with process := (s.process.taskPost k e).2, lock := true, main := .spin k n }.hand = s.hand := by
    funext i
    simp only [hand,hworkers]
  have hprogress := h.counts.progress
  simp only [Progress,hmain] at hprogress
  refine ⟨h.linked.post haway.1 h.exit_batch hactive hroom,?_,?_,?_,?_,h.exit_batch,?_,?_,?_,h.takers_nodup,?_,?_,?_⟩
  · intro i t hi
    rw [hhand] at hi
    refine ⟨fun name ht => ?_,(h.held i t hi).2⟩
    rcases mem_enqueued ht with ht | ⟨rfl,-⟩
    · exact (h.held i t hi).1 name ht
    · exact haway.2 i hi
  · intro i j t
    rw [hhand]
    exact h.held_inj i j t
  · intro i w t hi hw hphase
    rw [hworkers] at hw
    obtain ⟨hne,hrun⟩ := h.ran i w t hi hw hphase
    refine ⟨hne,?_⟩
    rw [hhistory]
    simpa [hne] using hrun
  · rw [hhistory]
    exact h.dones
  · intro name ht
    rcases mem_enqueued ht with ht | ⟨-,hname⟩
    · exact absurd ht (haway.1 name)
    · subst hname
      exact ⟨rfl,k,n,_,rfl,rfl,Function.update_self ..⟩
  · intro i hi
    rw [hhand] at hi
    exact absurd hi (haway.2 i)
  · intro i
    rw [hhand]
    exact h.takers i
  · intro k' i hi hcrew' t ht
    rw [hcrew] at hcrew'
    rcases mem_enqueued ht with ht | ⟨rfl,-⟩
    · exact h.emptied k' i hi hcrew' t ht
    · rfl
  · intro k' m hm
    rw [hhistory]
    refine (h.jobs k' m hm).imp id ?_
    rintro ⟨t,hne,hjob,hplace⟩
    refine ⟨t,hne,by simpa [hne] using hjob,?_⟩
    rw [hhand,hcrew]
    refine hplace.imp (fun ht => ?_) id
    by_cases hk : k' = k
    · subst hk; simp [ht]
    · rw [Function.update_of_ne (by simpa using hk)]
      exact ht
  · refine ⟨⟨hprogress.1,?_,hn⟩,h.counts.pools,fun k' hk' => ?_,fun k' => by rw [hcrew]; exact h.counts.sized k'⟩
    · rw [stopped,hcrew]
      exact hprogress.2.1
    · rw [stopped,hcrew,hhistory]
      have hne : k' ≠ k := fun heq => hprogress.1 (heq ▸ hk')
      refine ⟨(h.counts.uncalled k' hk').1,?_⟩
      simpa [hne] using (h.counts.uncalled k' hk').2

/-! ### The workers -/

section
variable {i : ℕ} {w : Worker κ τ} (h : s.Orderly threads e queues batch) (hlive : i ∉ s.exited)
  (hi : s.process.workers[i]? = some w)
include h hlive hi

/-- A worker goes on with the task that it has, or without one. -/
theorem Orderly.keep {p : Process κ τ} (phase : Phase τ) (hstep : s.process.step (.work i) = some p)
    (hworkers : p.workers = s.process.workers.set i { w with phase := phase }) (hsame : phase.task = w.phase.task)
    (hlinked : p.Linked queues batch) (hposts : p.history.posts = s.process.history.posts)
    (hjob : p.history.job = s.process.history.job) (hdones : p.history.dones = s.process.history.dones)
    (hruns : ∀ j ∈ s.process.history.runs.map (·.2), j ∈ p.history.runs.map (·.2))
    (hran : ∀ t, phase = .ran t → t ≠ e ∧ s.process.history.job t ∈ p.history.runs.map (·.2)) :
    Orderly threads e { s with process := p } queues batch := by
  have hcrew : p.crew = s.process.crew := funext fun k => crew_congr (pools_step hstep) k
  have hhand : { s with process := p }.hand = s.hand := by
    refine (hand_set s.takers hlive hi hworkers).trans ?_
    rw [hsame,← hand_of hlive hi,Function.update_eq_self]
  refine ⟨hlinked,?_,?_,?_,?_,h.exit_batch,h.exit_queue,?_,?_,h.takers_nodup,?_,?_,h.counts.congr hcrew hposts⟩
  · rw [hhand]
    exact h.held
  · rw [hhand]
    exact h.held_inj
  · rw [hworkers,hjob]
    exact h.ran_set hi hruns hran
  · rw [hdones]
    exact fun j hj => hruns j (h.dones j hj)
  · rw [hhand,hcrew]
    exact h.exit_held
  · rw [hhand]
    exact h.takers
  · rw [hcrew]
    exact h.emptied
  · rw [hhand,hcrew,hjob,hdones]
    exact h.jobs

/-- A worker takes the first task. When this is the exit task, it was the only one. -/
theorem Orderly.pop {t : τ} {xs : List τ} (hw : w.phase = .decremented) (hxs : queues (.pool w.pool) = t::xs) :
    Orderly threads e { s with
        process := s.process.pop i w t
        takers := if t = e then s.takers ++ [i] else s.takers }
      (Function.update queues (.pool w.pool) xs) batch := by
  have hhead : t ∈ queues (.pool w.pool) := hxs ▸ List.mem_cons_self
  have hfirst : (s.process.tp w.pool).queue.first = some t := by
    rw [show (s.process.tp w.pool).queue.first = _ from (h.linked.queue (.pool w.pool)).1.head,hxs]
    rfl
  have hstep : s.process.step (.work i) = some (s.process.pop i w t) := by
    simp [Process.step,Process.work,hi,hw,hfirst]
  have hcrew : (s.process.pop i w t).crew = s.process.crew := funext fun k => crew_congr (pools_step hstep) k
  obtain ⟨htask,hworkers,hdrained,hhistory,hqueue⟩ := pop_spec s.process i w t
  have hhand : Shutdown.hand { s with
      process := s.process.pop i w t
      takers := if t = e then s.takers ++ [i] else s.takers } = Function.update s.hand i (some t) :=
    hand_set _ hlive hi hworkers
  have hidle : s.hand i = none := by rw [hand_of hlive hi,hw]; rfl
  refine ⟨h.linked.dequeue hxs rfl rfl hqueue htask hdrained,?_,?_,?_,?_,h.exit_batch,
    fun name => h.exit_queue_taken hxs,?_,?_,h.takers_nodup_taken hlive hidle t,?_,?_,h.counts.congr hcrew (by rw [hhistory])⟩
  · rw [hhand]
    exact fun j u => h.held_taken hxs
  · rw [hhand]
    exact fun j j' u => h.held_inj_taken hhead
  · rw [hworkers,hhistory]
    exact h.ran_set hi (fun _ hj => hj) fun u hu => by cases hu
  · rw [hhistory]
    exact h.dones
  · rw [hhand,hcrew]
    exact fun j => h.exit_held_taken hi hhead
  · rw [hhand]
    exact h.mem_takers_taken hlive hidle t
  · rw [hcrew]
    exact fun k j hj hjk u => h.emptied_taken hi hxs hj hjk
  · rw [hhistory,hhand,hcrew]
    exact fun k m => h.jobs_taken hi hxs hidle

/-- A worker adds its task to the finished ones. -/
theorem Orderly.finish {t : τ} (hw : w.phase = .ran t) :
    Orderly threads e { s with process := s.process.finish i w t }
      (Function.update queues .done (queues .done ++ [t])) batch := by
  have hhas : s.hand i = some t := by rw [hand_of hlive hi,hw]; rfl
  obtain ⟨hnot,hnotb⟩ := h.held i t hhas
  obtain ⟨hne,hrun⟩ := h.ran i w t hlive hi hw
  have hstep : s.process.step (.work i) = some (s.process.finish i w t) := by
    simp [Process.step,Process.work,hi,hw]
  have hcrew : (s.process.finish i w t).crew = s.process.crew := funext fun k => crew_congr (pools_step hstep) k
  have hworkers := finish_workers s.process i w t
  have hhand : { s with process := s.process.finish i w t }.hand = Function.update s.hand i none :=
    hand_set s.takers hlive hi hworkers
  have hpool : ∀ k, Function.update queues .done (queues .done ++ [t]) (.pool k) = queues (.pool k) :=
    fun k => Function.update_of_ne (by simp) ..
  refine ⟨h.linked.finish hnot hnotb i w,?_,?_,?_,?_,h.exit_batch,?_,?_,?_,h.takers_nodup,?_,?_,
    h.counts.congr hcrew rfl⟩
  · intro j u hj
    rw [hhand] at hj
    obtain ⟨hj,hne⟩ := h.hand_emptied hhas hj
    refine ⟨fun name hu => ?_,(h.held j u hj).2⟩
    rcases mem_enqueued hu with hu | ⟨heq,-⟩
    · exact (h.held j u hj).1 name hu
    · exact hne heq
  · intro j j' u hj hj'
    rw [hhand] at hj hj'
    exact h.held_inj j j' u (h.hand_emptied hhas hj).1 (h.hand_emptied hhas hj').1
  · rw [hworkers]
    exact h.ran_set hi (fun _ hj => hj) fun u hu => by cases hu
  · intro j hj
    rcases List.mem_append.mp hj with hj | hj
    · exact h.dones j hj
    · rw [List.mem_singleton] at hj
      exact hj ▸ hrun
  · intro name hname
    rcases mem_enqueued hname with hold | ⟨heq,-⟩
    · obtain ⟨hlock,k,n,xs,hmain,rfl,hxs⟩ := h.exit_queue name hold
      exact ⟨hlock,k,n,xs,hmain,rfl,by rw [hpool]; exact hxs⟩
    · exact absurd heq.symm hne
  · intro j hj
    rw [hhand] at hj
    rw [hcrew]
    exact h.exit_held j (h.hand_emptied hhas hj).1
  · intro j
    rw [hhand,h.takers]
    by_cases hji : j = i
    · subst hji
      simp [hhas,hne]
    · rw [Function.update_of_ne hji]
  · intro k j hj hjk u hu
    rw [hpool] at hu
    rw [hcrew] at hjk
    exact h.emptied k j hj hjk u hu
  · intro k m hm
    rw [hhand,hcrew,hpool]
    rcases h.jobs k m hm with hdone | ⟨u,hue,hjob,hplace⟩
    · exact .inl (List.mem_append_left _ hdone)
    · by_cases hut : u = t
      · subst hut
        exact .inl (List.mem_append_right _ (by simp [hjob]))
      · refine .inr ⟨u,hue,hjob,hplace.imp id ?_⟩
        rintro ⟨j,hj,hhold⟩
        exact ⟨j,hj,hand_kept hhas hut hhold⟩

omit [DecidableEq τ] in
/-- A worker runs the handler of the exit task. -/
theorem Orderly.exit (hw : w.phase = .popped e) :
    Orderly threads e { s with lock := false, exited := insert i s.exited } queues batch := by
  have hhas : s.hand i = some e := by rw [hand_of hlive hi,hw]; rfl
  have hhand : Shutdown.hand { s with lock := false, exited := insert i s.exited } = Function.update s.hand i none :=
    hand_exit i false
  obtain ⟨hlock,k,n,hmain,hcrew⟩ := h.exit_held i hhas
  refine ⟨h.linked,?_,?_,?_,h.dones,h.exit_batch,?_,?_,?_,h.takers_nodup,h.emptied,?_,?_⟩
  · intro j u hj
    rw [hhand] at hj
    exact h.held j u (h.hand_emptied hhas hj).1
  · intro j j' u hj hj'
    rw [hhand] at hj hj'
    exact h.held_inj j j' u (h.hand_emptied hhas hj).1 (h.hand_emptied hhas hj').1
  · intro j v u hj
    exact h.ran j v u fun hmem => hj (Finset.mem_insert_of_mem hmem)
  · intro name hname
    exact absurd hname ((h.held i e hhas).1 name)
  · intro j hj
    rw [hhand] at hj
    exact absurd rfl (h.hand_emptied hhas hj).2
  · intro j
    rw [hhand,h.takers]
    by_cases hji : j = i
    · subst hji
      simp [hhas]
    · rw [Function.update_of_ne hji]
      simp [hji]
  · intro k' m hm
    rw [hhand]
    refine (h.jobs k' m hm).imp id ?_
    rintro ⟨u,hue,hjob,hplace⟩
    refine ⟨u,hue,hjob,hplace.imp id ?_⟩
    rintro ⟨j,hj,hhold⟩
    exact ⟨j,hj,hand_kept hhas hue hhold⟩
  · have hprogress := h.counts.progress
    simp only [Progress,hmain,hlock,if_true] at hprogress
    have hpool : ∀ k', i ∈ s.process.crew k' → k' = k := by
      intro k' hk'
      exact ((mem_crew hi).mp hk').symm.trans ((mem_crew hi).mp hcrew)
    refine ⟨?_,h.counts.pools,fun k' hk' => ?_,h.counts.sized⟩
    · simp only [Progress,hmain,stopped,Bool.false_eq_true,if_false]
      refine ⟨hprogress.1,?_,hprogress.2.2⟩
      rw [Finset.insert_inter_of_mem hcrew,Finset.card_insert_of_notMem (by simp [hlive])]
      exact congrArg (· + 1) hprogress.2.1
    · have hne : i ∉ s.process.crew k' := fun hmem => hprogress.1 (hpool k' hmem ▸ hk')
      rw [stopped,Finset.insert_inter_of_notMem hne]
      exact h.counts.uncalled k' hk'

end

/-! ### The beginning of the shutdown -/

/-- Each job of a pool is finished, or its task is in the queue or in the hands of a worker of the pool. -/
theorem jobs_init {stage : Job κ → Stage κ} (hreach : (posting κ τ).Reachable s.process)
    (hsound : s.process.Sound stage queues batch) (hexited : s.exited = ∅) {k : κ} {m : ℕ}
    (hm : m < (s.process.history.posts k).length) : (k,m) ∈ s.process.history.dones ∨
      ∃ t, (s.process.task t).active = true ∧ s.process.history.job t = (k,m) ∧
        (t ∈ queues (.pool k) ∨ ∃ i ∈ s.process.crew k, s.hand i = some t) := by
  have hposted : 1 ≤ (stage (k,m)).rank := (hsound.logged.posted (k,m)).mpr hm
  by_cases hdone : 4 ≤ (stage (k,m)).rank
  · exact .inl (hsound.logged.mem_dones.mpr hdone)
  obtain ⟨t,hactive,hjob⟩ := hsound.staged.inFlight (k,m) hposted (by omega)
  have hocc := (hsound.staged.place (stage (k,m)) t).mpr ⟨hactive,by rw [hjob]⟩
  refine .inr ⟨t,hactive,hjob,?_⟩
  have hheld : ∀ (i : ℕ) (w : Worker κ τ), s.process.workers[i]? = some w → w.phase.task = some t →
      ∃ i ∈ s.process.crew k, s.hand i = some t := by
    intro i w hi hw
    refine ⟨i,(mem_crew hi).mpr ?_,?_⟩
    · rw [← job_pool hreach hi hw,hjob]
    · rw [hand_of (by simp [hexited]) hi,hw]
  cases hst : stage (k,m) with
  | unposted => rw [hst] at hposted; simp [Stage.rank] at hposted
  | queued name =>
    rw [hst] at hocc hdone
    cases name with
    | done => simp [Stage.rank] at hdone
    | pool k' =>
      obtain ⟨n,hn⟩ := List.mem_iff_getElem?.mp (show t ∈ queues (.pool k') from hocc)
      obtain rfl : k' = k := by
        have := hsound.logged.order k' n t hn
        rw [hjob] at this
        exact (congrArg Prod.fst this).symm
      exact .inl hocc
  | popped i =>
    rw [hst] at hocc
    obtain ⟨w,hi,hw⟩ := hocc
    exact .inr (hheld i w hi (by rw [hw]; rfl))
  | ran i =>
    rw [hst] at hocc
    obtain ⟨w,hi,hw⟩ := hocc
    exact .inr (hheld i w hi (by rw [hw]; rfl))
  | drained => rw [hst] at hdone; simp [Stage.rank] at hdone
  | called => rw [hst] at hdone; simp [Stage.rank] at hdone

theorem Orderly.init (hreach : (posting κ τ).Reachable s.process) (hactive : (s.process.task e).active = false)
    (hpools : s.pools.Nodup) (hmain : s.main = .exitWorker) (hexited : s.exited = ∅) (htakers : s.takers = [])
    (hbefore : ∀ k, s.before k = (s.process.history.posts k).length)
    (hsized : ∀ k, 1 ≤ threads k ∧ (s.process.crew k).card ≤ threads k) :
    ∃ queues batch, s.Orderly threads e queues batch := by
  obtain ⟨stage,queues,batch,hsound⟩ := reachable_sound hreach
  obtain ⟨hlinked,hstaged,hlogged⟩ := id hsound
  have hnot := hstaged.unoccupied hactive
  have haway : ∀ i, s.hand i ≠ some e := fun i hi => by
    obtain ⟨st,hocc,-⟩ := hand_occupies hexited hi
    exact hnot st hocc
  refine ⟨queues,batch,hlinked,fun i t => held_init hstaged hexited,fun i j t => held_inj_init hstaged hexited,?_,?_,
    hnot .drained,fun name hmem => absurd hmem (hnot (.queued name)),fun i hi => absurd hi (haway i),?_,?_,?_,?_,?_⟩
  · rintro i w t - hi hw
    have hocc : s.process.Occupies queues batch (.ran i) t := ⟨w,hi,hw⟩
    refine ⟨?_,hlogged.ran ?_⟩
    · rintro rfl
      exact hnot _ hocc
    · rw [(hstaged.active hocc).2]
      exact le_rfl
  · intro j hj
    exact hlogged.ran (Nat.le_of_succ_le (hlogged.mem_dones.mp hj))
  · intro i
    simp [htakers,hexited,haway]
  · rw [htakers]
    exact List.nodup_nil
  · intro k i hi
    rw [htakers] at hi
    cases hi
  · intro k m hm
    rw [hbefore] at hm
    refine (jobs_init hreach hsound hexited hm).imp id ?_
    rintro ⟨t,hactivet,hjob,hplace⟩
    refine ⟨t,?_,hjob,hplace⟩
    rintro rfl
    exact Bool.false_ne_true (hactive.symm.trans hactivet)
  · refine ⟨by simp [Progress,hmain],hpools,fun k _ => ⟨?_,(hbefore k).symm⟩,hsized⟩
    simp [stopped,hexited]

/-! ### Whole runs -/

theorem Orderly.main (h : s.Orderly threads e queues batch) (hstep : s.mainStep threads e = some s') :
    ∃ queues, s'.Orderly threads e queues batch := by
  have hkeep : s.process.setTask e (s.process.task e) = s.process := by simp [setTask]
  have hprogress := h.counts.progress
  unfold mainStep at hstep
  cases hmain : s.main with
  | exitWorker =>
    have haway := h.away (.inr fun k n => by rw [hmain]; simp)
    simp only [hmain] at hstep
    cases hpools : s.pools with
    | nil => rw [hpools] at hstep; cases hstep
    | cons k ks =>
      rw [hpools] at hstep
      cases hstep
      have hfresh := h.counts.pools
      rw [hpools] at hfresh
      obtain ⟨hstopped,hbefore⟩ := h.counts.uncalled k (by rw [hpools]; exact List.mem_cons_self)
      rw [hbefore,Function.update_eq_self]
      refine ⟨queues,h.goOn haway _ _ _ _ (hpools ▸ List.sublist_cons_self k ks) ?_⟩
      exact ⟨(List.nodup_cons.mp hfresh).1,hstopped,Nat.zero_le _⟩
  | loop k n =>
    have haway := h.away (.inr fun k n => by rw [hmain]; simp)
    simp only [hmain] at hstep
    simp only [Progress,hmain] at hprogress
    split at hstep
    · rename_i hn
      by_cases href : (s.process.task e).active = true ∨ (s.process.tp k).maxQueue ≤ (s.process.tp k).waiting
      · rw [taskPost_refused href] at hstep
        cases hstep
        have := h.goOn haway (s.process.task e) s.pools .exitWorker true (List.Sublist.refl _) trivial
        rw [hkeep] at this
        exact ⟨queues,this⟩
      · rw [not_or,not_le,Bool.not_eq_true] at href
        have hok : s.process.taskPost k e = (.ok,(s.process.taskPost k e).2) := by
          simp [taskPost,href.1,not_le.mpr href.2]
        rw [hok] at hstep
        cases hstep
        exact ⟨_,h.post hmain hn href.1 href.2⟩
    · rename_i hn
      cases hstep
      have := h.goOn haway (s.process.task e) s.pools (.destroyed k) s.lock (List.Sublist.refl _)
        (show s.stopped k = threads k by omega)
      rw [hkeep] at this
      exact ⟨queues,this⟩
  | spin k n =>
    simp only [hmain] at hstep
    simp only [Progress,hmain] at hprogress
    split at hstep
    · cases hstep
    · rename_i hlock
      cases hstep
      have haway := h.away (.inl (by simpa using hlock))
      rw [if_neg hlock] at hprogress
      exact ⟨queues,h.goOn haway _ _ _ _ (List.Sublist.refl _) ⟨hprogress.1,hprogress.2.1,hprogress.2.2⟩⟩
  | destroyed k =>
    have haway := h.away (.inr fun k n => by rw [hmain]; simp)
    simp only [hmain] at hstep
    cases hstep
    have := h.goOn haway (s.process.task e) s.pools .exitWorker s.lock (List.Sublist.refl _) trivial
    rw [hkeep] at this
    exact ⟨queues,this⟩

theorem Orderly.work {i : ℕ} (h : s.Orderly threads e queues batch) (hstep : s.work e i = some s') :
    ∃ queues, s'.Orderly threads e queues batch := by
  unfold Shutdown.work at hstep
  rw [Option.ite_none_left_eq_some] at hstep
  obtain ⟨hlive,hstep⟩ := hstep
  obtain ⟨w,hi,hstep⟩ := Option.bind_eq_some_iff.mp hstep
  by_cases hexit : w.phase = .popped e
  · rw [if_pos hexit] at hstep
    cases hstep
    exact ⟨queues,h.exit hlive hi hexit⟩
  · rw [if_neg hexit] at hstep
    obtain ⟨p,hp,rfl⟩ := Option.map_eq_some_iff.mp hstep
    have hwork := hp
    simp only [Process.work,hi,Option.bind_some] at hwork
    cases hw : w.phase with
    | start =>
      rw [hw] at hwork
      cases hwork
      simp only [reduceCtorEq,false_and,if_false]
      refine ⟨queues,h.keep hlive hi .decremented hp rfl (by rw [hw]; rfl) ?_ rfl rfl rfl
        (fun j hj => hj) fun t ht => by cases ht⟩
      refine h.linked.congr (fun name => ?_) rfl fun _ _ => rfl
      cases name with
      | done => rfl
      | pool k =>
        by_cases hk : k = w.pool
        · subst hk; simp [Process.decrement,setWorker,setPool,queue]
        · simp [Process.decrement,setWorker,setPool,queue,hk]
    | decremented =>
      rw [hw] at hwork
      obtain ⟨t,hfirst,rfl⟩ := Option.map_eq_some_iff.mp hwork
      have hhead := (h.linked.queue (.pool w.pool)).1.head
      obtain ⟨xs,hxs⟩ := List.head?_eq_some_iff.mp (hhead.symm.trans hfirst)
      have := h.pop hlive hi hw hxs
      simp only [hfirst,Option.some.injEq,true_and]
      exact ⟨_,this⟩
    | popped t =>
      rw [hw] at hwork
      cases hwork
      simp only [reduceCtorEq,false_and,if_false]
      have hne : t ≠ e := by
        rintro rfl
        exact hexit hw
      refine ⟨queues,h.keep hlive hi (.ran t) hp rfl (by rw [hw]; rfl)
        (h.linked.congr (fun name => by cases name <;> rfl) rfl fun _ _ => rfl) rfl rfl rfl (fun j hj => ?_) fun u hu => ?_⟩
      · simp only [Process.run,List.map_append]
        exact List.mem_append_left _ hj
      · cases hu
        exact ⟨hne,by simp [Process.run]⟩
    | ran t =>
      rw [hw] at hwork
      cases hwork
      simp only [reduceCtorEq,false_and,if_false]
      exact ⟨_,h.finish hlive hi hw⟩

end Shutdown

open Shutdown
variable [DecidableEq κ] [DecidableEq τ]

theorem reachable_orderly {threads : κ → ℕ} {e : τ} {s : Shutdown κ τ} (h : (shutting threads e).Reachable s) :
    ∃ queues batch, s.Orderly threads e queues batch := by
  refine h.invariant (I := fun s => ∃ queues batch, s.Orderly threads e queues batch) (fun s hinit => ?_) ?_
  · obtain ⟨hreach,hactive,hpools,hmain,hexited,htakers,hbefore,hsized⟩ := hinit
    exact Orderly.init hreach hactive hpools hmain hexited htakers hbefore hsized
  · rintro s a s' - ⟨queues,batch,ih⟩ hstep
    cases a with
    | main =>
      obtain ⟨queues,hs'⟩ := ih.main hstep
      exact ⟨queues,batch,hs'⟩
    | work i =>
      obtain ⟨queues,hs'⟩ := ih.work hstep
      exact ⟨queues,batch,hs'⟩

/-- When the main thread gets past the loop for a pool, its queue is empty, all that was posted to
it before has been run and added to the finished tasks, each of its workers has taken one exit
task and gone, and the exit task is in no list. -/
theorem destroyed_drained {threads : κ → ℕ} {e : τ} {s : Shutdown κ τ} (h : (shutting threads e).Reachable s) {k : κ}
    (hmain : s.main = .destroyed k) :
    s.process.Queued (.pool k) [] ∧
    (∀ m < s.before k, (k,m) ∈ s.process.history.runs.map (·.2) ∧ (k,m) ∈ s.process.history.dones) ∧
    (∀ i ∈ s.process.crew k, s.takers.count i = 1 ∧ i ∈ s.exited) ∧
    (∀ name xs, s.process.Queued name xs → e ∉ xs) ∧ ∀ xs, Path s.process.load s.process.drained xs → e ∉ xs := by
  obtain ⟨queues,batch,horderly⟩ := reachable_orderly h
  have haway := horderly.away (.inr fun k n => by rw [hmain]; simp)
  have hstopped := horderly.counts.progress
  simp only [Progress,hmain] at hstopped
  obtain ⟨hone,hcard⟩ := horderly.counts.sized k
  -- as many workers have exited as there can be
  have hall : s.process.crew k ⊆ s.exited := by
    have heq : s.exited ∩ s.process.crew k = s.process.crew k :=
      Finset.eq_of_subset_of_card_le Finset.inter_subset_right (by rw [← hstopped] at hcard; exact hcard)
    exact Finset.inter_eq_right.mp heq
  have htaker : ∀ i ∈ s.process.crew k, i ∈ s.takers := fun i hi => (horderly.takers i).mpr (.inl (hall hi))
  have hempty : queues (.pool k) = [] := by
    obtain ⟨i,hi⟩ : (s.exited ∩ s.process.crew k).Nonempty := by
      rw [← Finset.card_pos]
      exact hone.trans_eq hstopped.symm
    have hi := (Finset.mem_inter.mp hi).2
    refine List.eq_nil_iff_forall_not_mem.mpr fun t ht => haway.1 (.pool k) ?_
    rw [← horderly.emptied k i (htaker i hi) hi t ht]
    exact ht
  refine ⟨hempty ▸ horderly.linked.queue (.pool k),fun m hm => ?_,fun i hi => ?_,fun name xs hxs => ?_,fun xs hxs => ?_⟩
  · rcases horderly.jobs k m hm with hdone | ⟨t,-,-,hplace⟩
    · exact ⟨horderly.dones _ hdone,hdone⟩
    · rcases hplace with ht | ⟨i,hi,hhold⟩
      · rw [hempty] at ht
        cases ht
      · simp only [hand,hall hi,if_true] at hhold
        cases hhold
  · exact ⟨List.count_eq_one_of_mem horderly.takers_nodup (htaker i hi),hall hi⟩
  · rw [hxs.1.unique (horderly.linked.queue name).1]
    exact haway.1 name
  · rw [hxs.unique horderly.linked.drained]
    exact horderly.exit_batch

/-- One queued task and two workers that have not started. -/
def shutdownActions : List ShutdownAction :=
  [.main,.main,.work 0,.work 0,.work 1,.work 1,.work 1,.main,.main,.work 0,.work 0,.work 0,.work 0,.work 0,.main,.main]

theorem destroyed_drained_two : ∃ s : Shutdown Unit ℕ, (shutting (fun _ => 2) 9).Reachable s ∧
    s.main = .destroyed () ∧ s.before () = 1 ∧ ((),0) ∈ s.process.history.dones ∧ s.takers.count 0 = 1 ∧
    s.takers.count 1 = 1 := by
  let p := (idleProcess.taskPost () 7).2
  let s₀ : Shutdown Unit ℕ := ⟨p,[()],.exitWorker,false,∅,[],fun k => (p.history.posts k).length⟩
  have hreach : (posting Unit ℕ).Reachable p := (TransitionSystem.Reachable.init idleProcess_init).step
    (show idleProcess.step (.post () 7) = some p from rfl)
  have hinit : (shutting (fun _ => 2) 9).init s₀ :=
    ⟨hreach,by decide,List.nodup_singleton (),rfl,rfl,rfl,fun _ => rfl,by decide⟩
  have hrun : (TransitionSystem.replay (Shutdown.step (fun _ => 2) 9) s₀ shutdownActions).map (fun s =>
      (s.main,s.before (),decide (0 ∈ s.process.crew () ∧ 1 ∈ s.process.crew ()))) =
      some (.destroyed (),1,true) := by decide +kernel
  obtain ⟨s,hs,heq⟩ := Option.map_eq_some_iff.mp hrun
  simp only [Prod.mk.injEq,decide_eq_true_eq] at heq
  obtain ⟨hmain,hbefore,hcrew⟩ := heq
  have hshut : (shutting (fun _ => 2) 9).Reachable s := TransitionSystem.Reachable.of_replay (.init hinit) hs
  obtain ⟨-,hjobs,hworkers,-⟩ := destroyed_drained hshut hmain
  exact ⟨s,hshut,hmain,hbefore,(hjobs 0 (by rw [hbefore]; exact Nat.one_pos)).2,(hworkers 0 hcrew.1).1,
    (hworkers 1 hcrew.2).1⟩

end InsideNginx.ThreadPool
