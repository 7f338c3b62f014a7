import InsideNginx.ThreadPool.Waiting

/-! The condition variable of a pool as the set of the workers that are blocked on it. A section
under the mutex is one step: a worker that finds the queue empty blocks in the same step, and
takes no step before a signal or a spurious wake-up has unblocked it. -/
namespace InsideNginx.ThreadPool
open TailQueue
variable {κ τ : Type} [DecidableEq κ]

/-- The workers of a pool. -/
def Process.crew (s : Process κ τ) (k : κ) : Finset ℕ :=
  (Finset.range s.workers.length).filter fun i => s.workers[i]?.map Worker.pool = some k

theorem Process.crew_congr {s s' : Process κ τ} (h : s'.workers.map Worker.pool = s.workers.map Worker.pool) (k : κ) :
    s'.crew k = s.crew k := by
  have hlength : s'.workers.length = s.workers.length := by
    simpa using congrArg List.length h
  have hget : ∀ i : ℕ, s'.workers[i]?.map Worker.pool = s.workers[i]?.map Worker.pool := by
    intro i
    rw [← List.getElem?_map,← List.getElem?_map,h]
  simp only [crew,hlength,hget]

theorem Process.mem_crew {s : Process κ τ} {k : κ} {i : ℕ} {w : Worker κ τ} (hi : s.workers[i]? = some w) :
    i ∈ s.crew k ↔ w.pool = k := by
  obtain ⟨hlt,rfl⟩ := List.getElem?_eq_some_iff.mp hi
  simp [crew,hlt]

variable [DecidableEq τ]

/-- The process and the workers in `ngx_thread_cond_wait`. -/
structure Sleepers (κ τ : Type) where
  process : Process κ τ
  blocked : Finset ℕ

/-- A post names the worker that its signal unblocks; `wake` is a spurious wake-up. -/
inductive WakeAction (κ τ : Type)
  | post (tp : κ) (task : τ) (woken : Option ℕ)
  | work (worker : ℕ)
  | wake (worker : ℕ)
  | drain
  | deliver
  deriving DecidableEq, Repr

namespace Sleepers

def asleep (s : Sleepers κ τ) (k : κ) : Finset ℕ := s.process.crew k ∩ s.blocked

def awake (s : Sleepers κ τ) (k : κ) : Finset ℕ := s.process.crew k \ s.blocked

/-- `ngx_thread_task_post`: a post that is not refused signals the condition variable. -/
def post (s : Sleepers κ τ) (k : κ) (t : τ) (woken : Option ℕ) : Option (Sleepers κ τ) :=
  let s' := { s with process := (s.process.taskPost k t).2 }
  match (s.process.taskPost k t).1,woken with
  | .error,none => some s'
  | .error,some _ => none
  | .ok,none => if s.asleep k = ∅ then some s' else none
  | .ok,some i => if i ∈ s.asleep k then some { s' with blocked := s.blocked.erase i } else none

/-- `while (tp->queue.first == NULL)` up to the task or to the next wait. -/
def take (s : Sleepers κ τ) (i : ℕ) (w : Worker κ τ) : Sleepers κ τ :=
  match (s.process.tp w.pool).queue.first with
  | some t => { s with process := s.process.pop i w t }
  | none => { s with blocked := insert i s.blocked }

/-- The next section of worker `i`. -/
def work (s : Sleepers κ τ) (i : ℕ) : Option (Sleepers κ τ) :=
  if i ∈ s.blocked then none
  else s.process.workers[i]?.map fun w =>
    match w.phase with
    | .start => { s with process := s.process.decrement i w }.take i { w with phase := .decremented }
    | .decremented => s.take i w
    | .popped t => { s with process := s.process.run i w t }
    | .ran t => { s with process := s.process.finish i w t }

def step (s : Sleepers κ τ) : WakeAction κ τ → Option (Sleepers κ τ)
  | .post k t woken => s.post k t woken
  | .work i => s.work i
  | .wake i => if i ∈ s.blocked then some { s with blocked := s.blocked.erase i } else none
  | .drain => (s.process.step .drain).map fun p => { s with process := p }
  | .deliver => (s.process.step .deliver).map fun p => { s with process := p }

end Sleepers

/-- The runs of a process with blocking workers. -/
def sleeping (κ τ : Type) [DecidableEq κ] [DecidableEq τ] : TransitionSystem (Sleepers κ τ) (WakeAction κ τ) :=
  .ofFunction (fun s => (posting κ τ).init s.process ∧ s.blocked = ∅) Sleepers.step

namespace Process
variable {s s' : Process κ τ} {k : κ}

/-- No step moves a worker to another pool. -/
theorem pools_step {a : Action κ τ} (h : s.step a = some s') :
    s'.workers.map Worker.pool = s.workers.map Worker.pool := by
  have hset : ∀ {i : ℕ} {w : Worker κ τ} (phase : Phase τ), s.workers[i]? = some w →
      s'.workers = s.workers.set i { w with phase := phase } →
      s'.workers.map Worker.pool = s.workers.map Worker.pool := by
    intro i w phase hi hw
    obtain ⟨hlt,rfl⟩ := List.getElem?_eq_some_iff.mp hi
    rw [hw,List.map_set]
    exact List.ext_getElem (by simp) fun j hj _ => by
      by_cases heq : i = j
      · subst heq; simp
      · simp [heq]
  cases a with
  | post k t =>
    cases h
    by_cases href : (s.task t).active = true ∨ (s.tp k).maxQueue ≤ (s.tp k).waiting
    · rw [taskPost_refused href]
    · rw [not_or,not_le,Bool.not_eq_true] at href
      obtain ⟨-,-,-,-,-,-,-,hworkers,-⟩ := taskPost_ok href.1 href.2
      rw [hworkers]
  | work i =>
    obtain ⟨w,hi,hwork⟩ := Option.bind_eq_some_iff.mp h
    cases hw : w.phase with
    | start => rw [hw] at hwork; cases hwork; exact hset .decremented hi rfl
    | decremented =>
      rw [hw] at hwork
      obtain ⟨t,-,rfl⟩ := Option.map_eq_some_iff.mp hwork
      exact hset (.popped t) hi (pop_spec s i w t).2.1
    | popped t => rw [hw] at hwork; cases hwork; exact hset (.ran t) hi rfl
    | ran t =>
      rw [hw] at hwork
      cases hwork
      exact hset .start hi (finish_workers s i w t)
  | drain =>
    simp only [step] at h
    split at h
    · cases h; rfl
    · cases h
  | deliver =>
    obtain ⟨t,-,rfl⟩ := Option.map_eq_some_iff.mp h
    rfl

end Process

namespace Sleepers
open ThreadPool.Process
variable {s s' : Sleepers κ τ} {k : κ}

/-- Unless all its workers are awake, a pool has at most as many queued tasks as workers that are. -/
def Attended (s : Sleepers κ τ) (k : κ) : Prop :=
  s.asleep k = ∅ ∨ (s.process.history.posts k).length ≤ (s.process.history.pops k).length + (s.awake k).card

section
omit [DecidableEq τ]

/-- More awake workers and fewer queued tasks do no harm. -/
theorem Attended.mono (h : s.Attended k) (hcrew : s'.process.crew k = s.process.crew k)
    (hblocked : ∀ i ∈ s.process.crew k, i ∈ s'.blocked → i ∈ s.blocked)
    (hposts : s'.process.history.posts k = s.process.history.posts k)
    (hpops : (s.process.history.pops k).length ≤ (s'.process.history.pops k).length) : s'.Attended k := by
  rcases h with hasleep | hle
  · refine .inl (Finset.eq_empty_iff_forall_notMem.mpr fun i hi => ?_)
    obtain ⟨hmem,hi⟩ := Finset.mem_inter.mp hi
    rw [hcrew] at hmem
    exact Finset.eq_empty_iff_forall_notMem.mp hasleep i (Finset.mem_inter.mpr ⟨hmem,hblocked i hmem hi⟩)
  · refine .inr ?_
    have hawake : s.awake k ⊆ s'.awake k := fun i hi => by
      obtain ⟨hmem,hi⟩ := Finset.mem_sdiff.mp hi
      exact Finset.mem_sdiff.mpr ⟨hcrew ▸ hmem,fun hi' => hi (hblocked i hmem hi')⟩
    have := Finset.card_le_card hawake
    rw [hposts]
    omega

/-- A successful post: the signal wakes a worker of the pool, or there is none to wake. -/
theorem Attended.post {p : Process κ τ} {k k' : κ} {t : τ} {blocked : Finset ℕ} (h : s.Attended k)
    (hcrew : p.crew k = s.process.crew k)
    (hposts : p.history.posts = Function.update s.process.history.posts k' (s.process.history.posts k' ++ [t]))
    (hpops : p.history.pops = s.process.history.pops)
    (hblocked : (s.asleep k' = ∅ ∧ blocked = s.blocked) ∨ ∃ i ∈ s.asleep k', blocked = s.blocked.erase i) :
    (⟨p,blocked⟩ : Sleepers κ τ).Attended k := by
  have hsub : blocked ⊆ s.blocked := by
    rcases hblocked with ⟨-,rfl⟩ | ⟨i,-,rfl⟩
    · exact Finset.Subset.refl _
    · exact Finset.erase_subset _ _
  by_cases hk : k = k'
  · subst hk
    rcases hblocked with ⟨hnone,rfl⟩ | ⟨i,hi,rfl⟩
    · refine .inl ?_
      rw [asleep,hcrew]
      exact hnone
    · obtain ⟨hmem,hi⟩ := Finset.mem_inter.mp hi
      rcases h with hasleep | hle
      · exact absurd (Finset.mem_inter.mpr ⟨hmem,hi⟩) (Finset.eq_empty_iff_forall_notMem.mp hasleep i)
      · have hawake : (⟨p,s.blocked.erase i⟩ : Sleepers κ τ).awake k = insert i (s.awake k) := by
          rw [awake,hcrew]
          ext j
          by_cases hj : j = i
          · subst hj; simp [hmem]
          · simp [awake,hj]
        have hnew : i ∉ s.awake k := fun hawake => (Finset.mem_sdiff.mp hawake).2 hi
        refine .inr ?_
        rw [hawake,Finset.card_insert_of_notMem hnew,hposts,hpops,Function.update_self,List.length_append,
          List.length_singleton]
        omega
  · exact h.mono hcrew (fun i _ hi => hsub hi) (by rw [hposts,Function.update_of_ne hk]) (by rw [hpops])

/-- A worker that finds the queue empty blocks; no task waits for it. -/
theorem Attended.block {i : ℕ} {w : Worker κ τ} (h : s.Attended k) (hi : s.process.workers[i]? = some w)
    (hempty : s.process.history.posts w.pool = s.process.history.pops w.pool) :
    (⟨s.process,insert i s.blocked⟩ : Sleepers κ τ).Attended k := by
  by_cases hk : k = w.pool
  · subst hk
    refine .inr ?_
    change (s.process.history.posts w.pool).length ≤ (s.process.history.pops w.pool).length + _
    rw [hempty]
    exact Nat.le_add_right _ _
  · refine h.mono rfl (fun j hj hmem => ?_) rfl le_rfl
    rcases Finset.mem_insert.mp hmem with rfl | hmem
    · exact absurd ((mem_crew hi).mp hj).symm hk
    · exact hmem

end

/-- The queue of a pool is empty exactly when all its tasks have been taken. -/
theorem posts_eq_pops {p : Process κ τ} (h : (posting κ τ).Reachable p) (hempty : (p.tp k).queue.first = none) :
    p.history.posts k = p.history.pops k := by
  obtain ⟨stage,queues,batch,hlinked,-,hlogged⟩ := reachable_sound h
  have hhead := (hlinked.queue (.pool k)).1.head
  have hqueue : queues (.pool k) = [] := List.head?_eq_none_iff.mp (hhead.symm.trans hempty)
  rw [hlogged.posts k,hqueue,List.append_nil]

/-- What holds in every state: the process runs as it does without the condition variable, and
every pool is attended. -/
structure Sound (s : Sleepers κ τ) : Prop where
  posting : (posting κ τ).Reachable s.process
  attended : ∀ k, s.Attended k

/-- A step of the process that posts nothing. -/
theorem Sound.move {p : Process κ τ} {a : Action κ τ} (h : s.Sound) (hstep : s.process.step a = some p)
    (hposts : p.history.posts = s.process.history.posts)
    (hpops : ∀ k, (s.process.history.pops k).length ≤ (p.history.pops k).length) :
    (⟨p,s.blocked⟩ : Sleepers κ τ).Sound where
  posting := h.posting.step hstep
  attended k := (h.attended k).mono (crew_congr (pools_step hstep) k) (fun _ _ hi => hi) (by rw [hposts]) (hpops k)

theorem Sound.take {i : ℕ} {w : Worker κ τ} (h : s.Sound) (hi : s.process.workers[i]? = some w)
    (hw : w.phase = .decremented) : (s.take i w).Sound := by
  unfold Sleepers.take
  cases hfirst : (s.process.tp w.pool).queue.first with
  | none => exact ⟨h.posting,fun k => (h.attended k).block hi (posts_eq_pops h.posting hfirst)⟩
  | some t =>
    have hstep : s.process.step (.work i) = some (s.process.pop i w t) := by
      simp [Process.step,Process.work,hi,hw,hfirst]
    have hhistory := (Process.pop_spec s.process i w t).2.2.2.1
    refine h.move hstep (by rw [hhistory]) fun k => ?_
    rw [hhistory]
    by_cases hk : k = w.pool
    · subst hk; simp
    · simp [hk]

theorem Sound.post {t : τ} {woken : Option ℕ} (h : s.Sound) (hpost : s.post k t woken = some s') : s'.Sound := by
  have hstep : s.process.step (.post k t) = some (s.process.taskPost k t).2 := rfl
  by_cases href : (s.process.task t).active = true ∨ (s.process.tp k).maxQueue ≤ (s.process.tp k).waiting
  · simp only [Sleepers.post,Process.taskPost_refused href] at hpost
    cases woken with
    | some i => cases hpost
    | none => cases hpost; exact h
  · rw [not_or,not_le,Bool.not_eq_true] at href
    obtain ⟨-,-,-,-,-,-,-,-,-,-,hhistory⟩ := Process.taskPost_ok href.1 href.2
    have hok : (s.process.taskPost k t).1 = .ok := by
      simp [Process.taskPost,href.1,not_le.mpr href.2]
    simp only [Sleepers.post,hok] at hpost
    have hcrew := crew_congr (pools_step hstep)
    have hposts := congrArg History.posts hhistory
    have hpops := congrArg History.pops hhistory
    cases woken with
    | none =>
      rw [Option.ite_none_right_eq_some] at hpost
      obtain ⟨hnone,hs⟩ := hpost
      cases hs
      exact ⟨h.posting.step hstep,fun k' => (h.attended k').post (hcrew k') hposts hpops (.inl ⟨hnone,rfl⟩)⟩
    | some i =>
      rw [Option.ite_none_right_eq_some] at hpost
      obtain ⟨hi,hs⟩ := hpost
      cases hs
      exact ⟨h.posting.step hstep,fun k' => (h.attended k').post (hcrew k') hposts hpops (.inr ⟨i,hi,rfl⟩)⟩

theorem Sound.step {a : WakeAction κ τ} (h : s.Sound) (hstep : s.step a = some s') : s'.Sound := by
  cases a with
  | post k t woken => exact h.post hstep
  | work i =>
    simp only [Sleepers.step,Sleepers.work] at hstep
    rw [Option.ite_none_left_eq_some] at hstep
    obtain ⟨w,hi,hwork⟩ := Option.map_eq_some_iff.mp hstep.2
    cases hw : w.phase with
    | start =>
      rw [hw] at hwork
      subst hwork
      have hdec : s.process.step (.work i) = some (s.process.decrement i w) := by
        simp [Process.step,Process.work,hi,hw]
      refine (h.move hdec rfl fun _ => le_rfl).take ?_ rfl
      simp [Process.decrement,Process.setWorker,Process.setPool,(List.getElem?_eq_some_iff.mp hi).1]
    | decremented =>
      rw [hw] at hwork
      subst hwork
      exact h.take hi hw
    | popped t =>
      rw [hw] at hwork
      subst hwork
      exact h.move (a := .work i) (by simp [Process.step,Process.work,hi,hw]) rfl fun _ => le_rfl
    | ran t =>
      rw [hw] at hwork
      subst hwork
      exact h.move (a := .work i) (by simp [Process.step,Process.work,hi,hw]) rfl fun _ => le_rfl
  | wake i =>
    simp only [Sleepers.step,Option.ite_none_right_eq_some] at hstep
    obtain ⟨-,hs⟩ := hstep
    cases hs
    exact ⟨h.posting,fun k => (h.attended k).mono rfl (fun _ _ hj => Finset.mem_of_mem_erase hj) rfl le_rfl⟩
  | drain =>
    obtain ⟨p,hp,rfl⟩ := Option.map_eq_some_iff.mp hstep
    have hhistory : p.history = s.process.history := by
      simp only [Process.step] at hp
      split at hp
      · cases hp; rfl
      · cases hp
    exact h.move hp (by rw [hhistory]) fun k => by rw [hhistory]
  | deliver =>
    obtain ⟨p,hp,rfl⟩ := Option.map_eq_some_iff.mp hstep
    obtain ⟨t,-,ht⟩ := Option.map_eq_some_iff.mp hp
    subst ht
    exact h.move hp rfl fun _ => le_rfl

end Sleepers

/-- No lost wake-up: of the workers of a pool, at least as many are not blocked as there are
queued tasks, or all of them. -/
theorem awake_ge {s : Sleepers κ τ} (h : (sleeping κ τ).Reachable s) (k : κ) {queued : List τ}
    (hqueued : s.process.Queued (.pool k) queued) : min queued.length (s.process.crew k).card ≤ (s.awake k).card := by
  have hsound : s.Sound := h.invariant (I := Sleepers.Sound)
    (fun s (hinit : (posting κ τ).init s.process ∧ s.blocked = ∅) =>
      ⟨.init hinit.1,fun k => .inl (by simp [Sleepers.asleep,hinit.2])⟩)
    fun _ _ _ _ ih hstep => ih.step hstep
  obtain ⟨stage,queues,batch,hlinked,-,hlogged⟩ := reachable_sound hsound.posting
  obtain rfl : queues (.pool k) = queued := (hlinked.queue (.pool k)).1.unique hqueued.1
  rcases hsound.attended k with hasleep | hle
  · have hall : s.awake k = s.process.crew k := by
      rw [Sleepers.awake,Finset.sdiff_eq_self_iff_disjoint,Finset.disjoint_iff_inter_eq_empty]
      exact hasleep
    rw [hall]
    exact Nat.min_le_right _ _
  · rw [hlogged.posts k,List.length_append] at hle
    exact (Nat.min_le_left _ _).trans (Nat.le_of_add_le_add_left hle)

/-- Both workers block; a post wakes the second, the first wakes by chance and takes the task, and
the second finds the queue empty and blocks again. Then a second post. -/
def staleWakeup : List (WakeAction Unit ℕ) :=
  [.work 0,.work 1,.post () 7 (some 1),.wake 0,.work 0,.work 1,.post () 8 (some 1)]

theorem awake_ge_stale : ∃ s : Sleepers Unit ℕ, (sleeping Unit ℕ).Reachable s ∧
    s.blocked = ∅ ∧ s.process.Queued (.pool ()) [8] ∧ min [8].length (s.process.crew ()).card ≤ (s.awake ()).card := by
  obtain ⟨s,hs⟩ : ∃ s, TransitionSystem.replay Sleepers.step ⟨idleProcess,∅⟩ staleWakeup = some s := ⟨_,rfl⟩
  have hreach : (sleeping Unit ℕ).Reachable s :=
    TransitionSystem.Reachable.of_replay (.init ⟨idleProcess_init,rfl⟩) hs
  have hqueued : s.process.Queued (.pool ()) [8] := by cases hs; exact ⟨⟨rfl,rfl⟩,rfl⟩
  refine ⟨s,hreach,?_,hqueued,awake_ge hreach () hqueued⟩
  cases hs
  decide

end InsideNginx.ThreadPool
