import InsideNginx.ThreadPool.Links

/-! The way of every successful post: it is queued, taken by one worker in the order of the posts,
run once, finished once and completed once. A job stands for one successful post, and its stage
says how far it has come. -/
namespace InsideNginx.ThreadPool
open TailQueue
variable {κ τ : Type}

/-- How far a job has come. -/
inductive Stage (κ : Type)
  | unposted
  | queued (name : QueueName κ)
  | popped (worker : ℕ)
  | ran (worker : ℕ)
  | drained
  | called
  deriving DecidableEq

/-- The stages in their order. -/
def Stage.rank : Stage κ → ℕ
  | .unposted => 0
  | .queued (.pool _) => 1
  | .popped _ => 2
  | .ran _ => 3
  | .queued .done => 4
  | .drained => 5
  | .called => 6

/-- The stages after all finished tasks have become the batch. -/
def Stage.drain : Stage κ → Stage κ
  | .queued .done => .drained
  | st => st

theorem Stage.drain_eq_iff {st st' : Stage κ} (h : st' ≠ .queued .done) (h' : st' ≠ .drained) :
    st.drain = st' ↔ st = st' := by
  unfold Stage.drain
  split
  · exact ⟨fun heq => absurd heq.symm h',fun heq => absurd heq.symm h⟩
  · rfl

theorem Stage.drain_eq_drained {st : Stage κ} : st.drain = .drained ↔ st = .queued .done ∨ st = .drained := by
  unfold Stage.drain
  split
  · simp
  · rename_i hne
    exact ⟨.inr,fun h => h.resolve_left hne⟩

theorem Stage.drain_ne_done (st : Stage κ) : st.drain ≠ .queued .done := by
  unfold Stage.drain
  split
  · simp
  · assumption

/-- The task that a worker has in its hands. -/
def Phase.task : Phase τ → Option τ
  | .popped t => some t
  | .ran t => some t
  | _ => none

theorem Phase.task_eq_some {phase : Phase τ} {t : τ} : phase.task = some t ↔ phase = .popped t ∨ phase = .ran t := by
  cases phase <;> simp [Phase.task]

namespace Process

/-- Worker `i` is in the given phase. -/
def Holds (s : Process κ τ) (i : ℕ) (phase : Phase τ) : Prop := ∃ w, s.workers[i]? = some w ∧ w.phase = phase

/-- The task is where its job's stage puts it. -/
def Occupies (s : Process κ τ) (queues : QueueName κ → List τ) (batch : List τ) : Stage κ → τ → Prop
  | .queued name,t => t ∈ queues name
  | .popped i,t => s.Holds i (.popped t)
  | .ran i,t => s.Holds i (.ran t)
  | .drained,t => t ∈ batch
  | .unposted,_ => False
  | .called,_ => False

/-- The task is active, and its last post has come to the stage. -/
def At (s : Process κ τ) (stage : Job κ → Stage κ) (st : Stage κ) (t : τ) : Prop :=
  (s.task t).active = true ∧ stage (s.history.job t) = st

/-- Stages, lists, workers and flags agree. -/
structure Staged (s : Process κ τ) (stage : Job κ → Stage κ) (queues : QueueName κ → List τ)
    (batch : List τ) : Prop where
  place : ∀ st t, s.Occupies queues batch st t ↔ s.At stage st t
  job : ∀ t, (s.task t).active = true → (s.history.posts (s.history.job t).1)[(s.history.job t).2]? = some t
  inFlight : ∀ j, 1 ≤ (stage j).rank → (stage j).rank < 6 → ∃ t, (s.task t).active = true ∧ s.history.job t = j

variable {s : Process κ τ} {stage : Job κ → Stage κ} {queues : QueueName κ → List τ} {batch : List τ}

theorem holds_setWorker (s' : Process κ τ) {i : ℕ} {w w' : Worker κ τ} (hi : s.workers[i]? = some w)
    (hw : s'.workers = s.workers.set i w') (i' : ℕ) (phase : Phase τ) :
    s'.Holds i' phase ↔ if i' = i then w'.phase = phase else s.Holds i' phase := by
  have hlt : i < s.workers.length := (List.getElem?_eq_some_iff.mp hi).1
  unfold Holds
  rw [hw]
  by_cases h : i' = i
  · subst h; simp [hlt]
  · simp [h,Ne.symm h]

theorem holds_other (s' : Process κ τ) {i : ℕ} {w w' : Worker κ τ} (hi : s.workers[i]? = some w)
    (hw : s'.workers = s.workers.set i w') {i' : ℕ} {phase : Phase τ}
    (hphase : i' = i → w.phase ≠ phase ∧ w'.phase ≠ phase) : s'.Holds i' phase ↔ s.Holds i' phase := by
  rw [holds_setWorker s' hi hw]
  split
  · rename_i heq
    obtain ⟨hne,hne'⟩ := hphase heq
    subst heq
    refine ⟨fun heq => absurd heq hne',?_⟩
    rintro ⟨v,hv,hp⟩
    cases hi.symm.trans hv
    exact absurd hp hne
  · rfl

/-- A worker is in one phase. -/
theorem Holds.eq {i : ℕ} {w : Worker κ τ} (hi : s.workers[i]? = some w) {phase : Phase τ}
    (h : s.Holds i phase) : w.phase = phase := by
  obtain ⟨w',hw',hphase⟩ := h
  cases hi.symm.trans hw'
  exact hphase

/-- Two active tasks are two jobs. -/
theorem Staged.job_inj (h : s.Staged stage queues batch) {t u : τ} (ht : (s.task t).active = true)
    (hu : (s.task u).active = true) (heq : s.history.job u = s.history.job t) : u = t := by
  have hjob := h.job u hu
  rw [heq,h.job t ht] at hjob
  exact (Option.some.inj hjob).symm

/-- A task in a list or at a worker is active. -/
theorem Staged.active (h : s.Staged stage queues batch) {st : Stage κ} {t : τ}
    (ht : s.Occupies queues batch st t) : (s.task t).active = true ∧ stage (s.history.job t) = st :=
  (h.place st t).mp ht

/-- A task that is not active is nowhere. -/
theorem Staged.unoccupied (h : s.Staged stage queues batch) {t : τ} (ht : (s.task t).active = false) (st : Stage κ) :
    ¬ s.Occupies queues batch st t :=
  fun hocc => Bool.false_ne_true (ht.symm.trans (h.active hocc).1)

/-- A task is at one place. -/
theorem Staged.ne (h : s.Staged stage queues batch) {st st' : Stage κ} {t u : τ}
    (ht : s.Occupies queues batch st t) (hu : s.Occupies queues batch st' u) (hne : st' ≠ st) : u ≠ t := by
  rintro rfl
  exact hne ((h.active hu).2.symm.trans (h.active ht).2)

variable [DecidableEq κ]

/-- Stages and history agree. -/
structure Logged (h : History κ τ) (stage : Job κ → Stage κ) (queues : QueueName κ → List τ) : Prop where
  posts : ∀ k, h.posts k = h.pops k ++ queues (.pool k)
  order : ∀ k i t, (queues (.pool k))[i]? = some t → h.job t = (k,(h.pops k).length + i)
  posted : ∀ j : Job κ, 1 ≤ (stage j).rank ↔ j.2 < (h.posts j.1).length
  taken : ∀ j : Job κ, 2 ≤ (stage j).rank ↔ j.2 < (h.pops j.1).length
  runs : ∀ j, (h.runs.map (·.2)).count j = if 3 ≤ (stage j).rank then 1 else 0
  dones : ∀ j, h.dones.count j = if 4 ≤ (stage j).rank then 1 else 0
  calls : ∀ j, h.calls.count j = if 6 ≤ (stage j).rank then 1 else 0

/-- From its stage on a job is in the lists of those that have been run and finished. -/
theorem Logged.ran {h : History κ τ} (hlogged : Logged h stage queues) {j : Job κ} (hj : 3 ≤ (stage j).rank) :
    j ∈ h.runs.map (·.2) := by
  have hcount := hlogged.runs j
  rw [if_pos hj] at hcount
  exact List.count_pos_iff.mp (hcount ▸ Nat.one_pos)

theorem Logged.mem_dones {h : History κ τ} (hlogged : Logged h stage queues) {j : Job κ} :
    j ∈ h.dones ↔ 4 ≤ (stage j).rank := by
  rw [← List.count_pos_iff,hlogged.dones]
  split <;> simp_all

/-- The invariant of the process. -/
structure Sound (s : Process κ τ) (stage : Job κ → Stage κ) (queues : QueueName κ → List τ)
    (batch : List τ) : Prop where
  linked : s.Linked queues batch
  staged : s.Staged stage queues batch
  logged : Logged s.history stage queues

/-- A move does not change on which side of `n` a job is when both stages are on one side. -/
theorem rank_update {stage : Job κ → Stage κ} {j : Job κ} {new : Stage κ} {n : ℕ}
    (h : n ≤ new.rank ↔ n ≤ (stage j).rank) (j' : Job κ) :
    n ≤ (Function.update stage j new j').rank ↔ n ≤ (stage j').rank := by
  by_cases hj : j' = j
  · subst hj; simpa using h
  · rw [Function.update_of_ne hj]

/-! ### Moving one job -/

/-- When a task moves from one place to another, every other task stays where it is. -/
theorem Staged.move (h : s.Staged stage queues batch) (s' : Process κ τ) {t : τ} {old new : Stage κ}
    (ht : s.Occupies queues batch old t) (hne : new ≠ old)
    (hactive : ∀ u, (s'.task u).active = (s.task u).active) (hjob : s'.history.job = s.history.job)
    (hposts : s'.history.posts = s.history.posts) {queues' : QueueName κ → List τ} {batch' : List τ}
    (hold : ∀ u, s'.Occupies queues' batch' old u ↔ u ≠ t ∧ s.Occupies queues batch old u)
    (hnew : ∀ u, s'.Occupies queues' batch' new u ↔ u = t ∨ s.Occupies queues batch new u)
    (hother : ∀ st, st ≠ old → st ≠ new → ∀ u, s'.Occupies queues' batch' st u ↔ s.Occupies queues batch st u) :
    s'.Staged (Function.update stage (s.history.job t) new) queues' batch' where
  place st u := by
    have hactivet := (h.active ht).1
    have hplace : s'.Occupies queues' batch' st u ↔ u = t ∧ st = new ∨ u ≠ t ∧ s.Occupies queues batch st u := by
      by_cases hst : st = old
      · subst hst
        rw [hold]
        simp [Ne.symm hne]
      by_cases hst' : st = new
      · subst hst'
        rw [hnew]
        exact ⟨fun hu => hu.imp (fun hu => ⟨hu,rfl⟩) fun hu => ⟨h.ne ht hu hst,hu⟩,
          fun hu => hu.imp (fun hu => hu.1) fun hu => hu.2⟩
      · rw [hother st hst hst']
        exact ⟨fun hu => .inr ⟨h.ne ht hu hst,hu⟩,fun hu => (hu.resolve_left fun hu => hst' hu.2).2⟩
    rw [hplace]
    unfold At
    rw [hactive,hjob]
    by_cases hu : u = t
    · subst hu
      simp [hactivet,eq_comm]
    · rw [h.place]
      unfold At
      constructor
      · rintro (⟨heq,-⟩ | ⟨-,hactive,hstage⟩)
        · exact absurd heq hu
        · refine ⟨hactive,?_⟩
          rw [Function.update_of_ne fun heq => hu (h.job_inj hactivet hactive heq)]
          exact hstage
      · rintro ⟨hactive,hstage⟩
        rw [Function.update_of_ne fun heq => hu (h.job_inj hactivet hactive heq)] at hstage
        exact .inr ⟨hu,hactive,hstage⟩
  job u hu := by
    rw [hactive] at hu
    rw [hjob,hposts]
    exact h.job u hu
  inFlight j hlow hhigh := by
    by_cases hj : j = s.history.job t
    · exact ⟨t,by rw [hactive]; exact (h.active ht).1,by rw [hjob,hj]⟩
    · rw [Function.update_of_ne hj] at hlow hhigh
      obtain ⟨u,hu,hju⟩ := h.inFlight j hlow hhigh
      exact ⟨u,by rw [hactive]; exact hu,by rw [hjob]; exact hju⟩

/-! ### The steps of a worker -/

theorem pop_spec (s : Process κ τ) (i : ℕ) (w : Worker κ τ) (t : τ) :
    (s.pop i w t).task = s.task ∧ (s.pop i w t).workers = s.workers.set i { w with phase := .popped t } ∧
    (s.pop i w t).drained = s.drained ∧ (s.pop i w t).history = { s.history with
      pops := Function.update s.history.pops w.pool (s.history.pops w.pool ++ [t]) } ∧
    ∀ other, (s.pop i w t).queue other = if other = .pool w.pool then
      ⟨(s.task t).next,if (s.task t).next = none then .root (.pool w.pool) else (s.queue (.pool w.pool)).last⟩
      else s.queue other := by
  have hset : ∀ (s : Process κ τ) (w : Worker κ τ) (h : History κ τ) name,
      queue { s.setWorker i w with history := h } name = s.queue name := by
    intro s w h name; cases name <;> rfl
  refine ⟨?_,?_,?_,?_,fun other => ?_⟩
  · simp only [Process.pop]; split <;> simp [setWorker]
  · simp only [Process.pop]; split <;> simp [setWorker,setQueue,setPool]
  · simp only [Process.pop]; split <;> simp [setWorker,setQueue,setPool]
  · rfl
  · simp only [Process.pop,hset]
    split <;> simp_all

theorem Linked.decrement (h : s.Linked queues batch) (i : ℕ) (w : Worker κ τ) :
    (s.decrement i w).Linked queues batch := by
  refine h.congr (fun name => ?_) rfl fun _ _ => rfl
  cases name with
  | done => rfl
  | pool k =>
    by_cases hk : k = w.pool
    · subst hk; simp [Process.decrement,setWorker,setPool,Process.queue]
    · simp [Process.decrement,setWorker,setPool,Process.queue,hk]

section
variable {i : ℕ} {w : Worker κ τ} (h : s.Sound stage queues batch) (hi : s.workers[i]? = some w)
include h hi

theorem Sound.decrement (hw : w.phase = .start) : (s.decrement i w).Sound stage queues batch where
  linked := h.linked.decrement i w
  staged := by
    refine ⟨fun st t => (Iff.trans ?_ (h.staged.place st t)),h.staged.job,h.staged.inFlight⟩
    cases st with
    | popped i' => exact holds_other (s.decrement i w) hi rfl fun _ => ⟨by simp [hw],by simp⟩
    | ran i' => exact holds_other (s.decrement i w) hi rfl fun _ => ⟨by simp [hw],by simp⟩
    | _ => rfl
  logged := h.logged

theorem Sound.pop (hw : w.phase = .decremented) {t : τ} {xs : List τ}
    (hxs : queues (.pool w.pool) = t::xs) :
    (s.pop i w t).Sound (Function.update stage (s.history.job t) (.popped i))
      (Function.update queues (.pool w.pool) xs) batch := by
  have hocc : s.Occupies queues batch (.queued (.pool w.pool)) t := by
    change t ∈ queues (.pool w.pool)
    rw [hxs]
    exact List.mem_cons_self
  obtain ⟨hactive,hstage⟩ := h.staged.active hocc
  have hjob : s.history.job t = (w.pool,(s.history.pops w.pool).length) := by
    simpa using h.logged.order w.pool 0 t (by rw [hxs]; rfl)
  have hnodup := h.linked.nodup (.pool w.pool)
  rw [hxs] at hnodup
  obtain ⟨htask,hworkers,hdrained,hhistory,hqueue⟩ := pop_spec s i w t
  have hholds := holds_setWorker (s.pop i w t) hi hworkers
  refine ⟨h.linked.dequeue hxs rfl rfl hqueue htask hdrained,?_,?_⟩
  · refine h.staged.move (s.pop i w t) hocc (by simp) (fun u => by rw [htask]) (by rw [hhistory])
      (by rw [hhistory]) (fun u => ?_) (fun u => ?_) fun st hold hnew u => ?_
    · simp only [Occupies,Function.update_self,hxs,List.mem_cons]
      have := (List.nodup_cons.mp hnodup).1
      exact ⟨fun hu => ⟨fun heq => this (heq ▸ hu),.inr hu⟩,fun hu => hu.2.resolve_left hu.1⟩
    · simp only [Occupies,holds_setWorker (s.pop i w t) hi hworkers,if_true,Phase.popped.injEq]
      refine ⟨fun heq => .inl heq.symm,fun hu => (hu.resolve_right fun hu => ?_).symm⟩
      exact absurd (hw.symm.trans (Holds.eq hi hu)) (by simp)
    · cases st with
      | queued other => simp only [Occupies,Function.update_of_ne (fun heq : other = _ => hold (congrArg _ heq))]
      | popped i' => exact holds_other (s.pop i w t) hi hworkers fun heq => absurd (heq ▸ rfl) hnew
      | ran i' => exact holds_other (s.pop i w t) hi hworkers fun _ => ⟨by simp [hw],by simp⟩
      | _ => rfl
  · rw [hhistory]
    have hlogged := h.logged
    have hrank : ∀ n, n ≠ 2 → ∀ j, n ≤ (Function.update stage (s.history.job t) (.popped i) j).rank ↔
        n ≤ (stage j).rank := fun n hn => rank_update (by rw [hstage]; simp only [Stage.rank]; omega)
    refine ⟨fun k => ?_,fun k i' u hu => ?_,fun j => ?_,fun j => ?_,fun j => ?_,fun j => ?_,fun j => ?_⟩
    · by_cases hk : k = w.pool
      · subst hk
        simp [hlogged.posts,hxs]
      · simp [hk,hlogged.posts]
    · by_cases hk : k = w.pool
      · subst hk
        simp only [Function.update_self] at hu ⊢
        have := hlogged.order w.pool (i'+1) u (by rw [hxs]; exact hu)
        simp [this]
        omega
      · rw [Function.update_of_ne (by simpa using hk)] at hu
        simpa [hk] using hlogged.order k i' u hu
    · rw [hrank 1 (by decide)]
      exact hlogged.posted j
    · by_cases hj : j = s.history.job t
      · subst hj
        simp [hjob,Stage.rank]
      · rw [Function.update_of_ne hj,hlogged.taken j]
        by_cases hk : j.1 = w.pool
        · have hne : j.2 ≠ (s.history.pops w.pool).length := fun heq =>
            hj ((Prod.ext hk heq : j = (w.pool,_)).trans hjob.symm)
          simp only [hk,Function.update_self,List.length_append,List.length_singleton]
          omega
        · simp [hk]
    · simp only [hrank 3 (by decide)]
      exact hlogged.runs j
    · simp only [hrank 4 (by decide)]
      exact hlogged.dones j
    · simp only [hrank 6 (by decide)]
      exact hlogged.calls j

theorem Sound.run {t : τ} (hw : w.phase = .popped t) :
    (s.run i w t).Sound (Function.update stage (s.history.job t) (.ran i)) queues batch := by
  have hocc : s.Occupies queues batch (.popped i) t := ⟨w,hi,hw⟩
  obtain ⟨hactive,hstage⟩ := h.staged.active hocc
  refine ⟨h.linked.congr (fun name => by cases name <;> rfl) rfl fun _ _ => rfl,?_,?_⟩
  · refine h.staged.move (s.run i w t) hocc (by simp) (fun u => rfl) rfl rfl (fun u => ?_) (fun u => ?_)
      fun st hold hnew u => ?_
    · simp only [Occupies,holds_setWorker (s.run i w t) hi rfl,if_true,reduceCtorEq,false_iff,not_and]
      intro hne hu
      exact hne (Phase.popped.inj (hw.symm.trans (Holds.eq hi hu))).symm
    · simp only [Occupies,holds_setWorker (s.run i w t) hi rfl,if_true,Phase.ran.injEq]
      refine ⟨fun heq => .inl heq.symm,fun hu => (hu.resolve_right fun hu => ?_).symm⟩
      exact absurd (hw.symm.trans (Holds.eq hi hu)) (by simp)
    · cases st with
      | popped i' => exact holds_other (s.run i w t) hi rfl fun heq => absurd (heq ▸ rfl) hold
      | ran i' => exact holds_other (s.run i w t) hi rfl fun heq => absurd (heq ▸ rfl) hnew
      | _ => rfl
  · have hlogged := h.logged
    have hrank : ∀ n, n ≠ 3 → ∀ j, n ≤ (Function.update stage (s.history.job t) (.ran i) j).rank ↔
        n ≤ (stage j).rank := fun n hn => rank_update (by rw [hstage]; simp only [Stage.rank]; omega)
    refine ⟨hlogged.posts,hlogged.order,fun j => ?_,fun j => ?_,fun j => ?_,fun j => ?_,fun j => ?_⟩
    · rw [hrank 1 (by decide)]; exact hlogged.posted j
    · rw [hrank 2 (by decide)]; exact hlogged.taken j
    · have hruns := hlogged.runs j
      simp only [Process.run,List.map_append,List.count_append,hruns]
      by_cases hj : j = s.history.job t
      · subst hj; simp [hstage,Stage.rank]
      · simp [hj,Ne.symm hj]
    · simp only [hrank 4 (by decide)]; exact hlogged.dones j
    · simp only [hrank 6 (by decide)]; exact hlogged.calls j

end

variable [DecidableEq τ]

theorem finish_workers (s : Process κ τ) (i : ℕ) (w : Worker κ τ) (t : τ) :
    (s.finish i w t).workers = s.workers.set i { w with phase := .start } :=
  congrArg (fun r => r.2.2.1.set i { w with phase := .start })
    (rest_append (s.setTask t { s.task t with next := none }) .done t)

theorem finish_active (s : Process κ τ) (i : ℕ) (w : Worker κ τ) (t u : τ) :
    ((s.finish i w t).task u).active = (s.task u).active := by
  have hflags := congrArg (fun r => (r.2.2.2.2.2 u).1) (rest_append (s.setTask t { s.task t with next := none }) .done t)
  refine Eq.trans hflags ?_
  simp only [rest,task_setTask]
  split <;> simp_all

/-- The finished task has a fresh link and goes to the end of the finished ones. -/
theorem Linked.finish (h : s.Linked queues batch) {t : τ} (ht : ∀ name, t ∉ queues name) (htb : t ∉ batch)
    (i : ℕ) (w : Worker κ τ) :
    (s.finish i w t).Linked (Function.update queues .done (queues .done ++ [t])) batch :=
  ((h.clear ht htb { s.task t with next := none }).append ht htb (by simp) .done).congr
    (fun name => by cases name <;> rfl) rfl fun _ _ => rfl

section
variable {i : ℕ} {w : Worker κ τ} (h : s.Sound stage queues batch) (hi : s.workers[i]? = some w)
include h hi

theorem Sound.finish {t : τ} (hw : w.phase = .ran t) :
    (s.finish i w t).Sound (Function.update stage (s.history.job t) (.queued .done))
      (Function.update queues .done (queues .done ++ [t])) batch := by
  have hocc : s.Occupies queues batch (.ran i) t := ⟨w,hi,hw⟩
  obtain ⟨hactive,hstage⟩ := h.staged.active hocc
  have hnot : ∀ name, t ∉ queues name := fun name hm =>
    h.staged.ne hocc (show s.Occupies queues batch (.queued name) t from hm) (by simp) rfl
  have hnotb : t ∉ batch := fun hm =>
    h.staged.ne hocc (show s.Occupies queues batch .drained t from hm) (by simp) rfl
  have hworkers := finish_workers s i w t
  refine ⟨h.linked.finish hnot hnotb i w,?_,?_⟩
  · refine h.staged.move (s.finish i w t) hocc (by simp) (fun u => ?_) rfl rfl (fun u => ?_) (fun u => ?_)
      fun st hold hnew u => ?_
    · exact finish_active s i w t u
    · simp only [Occupies,holds_setWorker (s.finish i w t) hi hworkers,if_true,reduceCtorEq,false_iff,not_and]
      intro hne hu
      exact hne (Phase.ran.inj (hw.symm.trans (Holds.eq hi hu))).symm
    · simp [Occupies,or_comm]
    · cases st with
      | queued other => simp only [Occupies,Function.update_of_ne (fun heq : other = _ => hnew (congrArg _ heq))]
      | popped i' => exact holds_other (s.finish i w t) hi hworkers fun _ => ⟨by simp [hw],by simp⟩
      | ran i' => exact holds_other (s.finish i w t) hi hworkers fun heq => absurd (heq ▸ rfl) hold
      | _ => rfl
  · have hlogged := h.logged
    have hrank : ∀ n, n ≠ 4 → ∀ j, n ≤ (Function.update stage (s.history.job t) (.queued .done) j).rank ↔
        n ≤ (stage j).rank := fun n hn => rank_update (by rw [hstage]; simp only [Stage.rank]; omega)
    refine ⟨fun k => by simpa [Process.finish] using hlogged.posts k,fun k n u hu => hlogged.order k n u (by simpa using hu),
      fun j => ?_,fun j => ?_,fun j => ?_,fun j => ?_,fun j => ?_⟩
    · rw [hrank 1 (by decide)]; exact hlogged.posted j
    · rw [hrank 2 (by decide)]; exact hlogged.taken j
    · simp only [hrank 3 (by decide)]; exact hlogged.runs j
    · have hdones := hlogged.dones j
      simp only [Process.finish,List.count_append,hdones]
      by_cases hj : j = s.history.job t
      · subst hj; simp [hstage,Stage.rank]
      · simp [hj,Ne.symm hj]
    · simp only [hrank 6 (by decide)]; exact hlogged.calls j

end

/-! ### Posts and completions -/

omit [DecidableEq κ] in
theorem deliver_active (s : Process κ τ) (t u : τ) :
    ((s.deliver t).task u).active = if u = t then false else (s.task u).active := by
  simp only [Process.deliver,task_setTask]
  split <;> rfl

theorem Sound.deliver {t : τ} {ts : List τ} (h : s.Sound stage queues (t::ts)) :
    (s.deliver t).Sound (Function.update stage (s.history.job t) .called) queues ts := by
  have hocc : s.Occupies queues (t::ts) .drained t := List.mem_cons_self
  obtain ⟨hactive,hstage⟩ := h.staged.active hocc
  have htask := deliver_active s t
  refine ⟨h.linked.deliver,⟨fun st u => ?_,fun u hu => ?_,fun j hlow hhigh => ?_⟩,?_⟩
  · have hplace : (s.deliver t).Occupies queues ts st u ↔ u ≠ t ∧ s.Occupies queues (t::ts) st u := by
      have hother : ∀ st, st ≠ .drained → (s.Occupies queues (t::ts) st u ↔
          u ≠ t ∧ s.Occupies queues (t::ts) st u) :=
        fun st hst => ⟨fun hu => ⟨h.staged.ne hocc hu hst,hu⟩,fun hu => hu.2⟩
      cases st with
      | drained =>
        have hnot := (List.nodup_cons.mp h.linked.nodup_batch).1
        simp only [Occupies,List.mem_cons]
        exact ⟨fun hu => ⟨fun heq => hnot (heq ▸ hu),.inr hu⟩,fun hu => hu.2.resolve_left hu.1⟩
      | queued name => exact hother (.queued name) (by simp)
      | popped i => exact hother (.popped i) (by simp)
      | ran i => exact hother (.ran i) (by simp)
      | unposted => simp [Occupies]
      | called => simp [Occupies]
    rw [hplace,h.staged.place]
    unfold At
    rw [htask]
    by_cases hu : u = t
    · simp [hu]
    · simp only [hu,if_false,ne_eq,not_false_eq_true,true_and,Process.deliver]
      refine and_congr_right fun hactiveu => ?_
      rw [Function.update_of_ne fun heq => hu (h.staged.job_inj hactive hactiveu heq)]
  · rw [htask] at hu
    split at hu
    · cases hu
    · exact h.staged.job u hu
  · by_cases hj : j = s.history.job t
    · subst hj; simp [Stage.rank] at hhigh
    · rw [Function.update_of_ne hj] at hlow hhigh
      obtain ⟨u,hu,hju⟩ := h.staged.inFlight j hlow hhigh
      have hne : u ≠ t := by rintro rfl; exact hj hju.symm
      exact ⟨u,by rw [htask,if_neg hne]; exact hu,hju⟩
  · have hlogged := h.logged
    have hrank : ∀ n, n ≠ 6 → ∀ j, n ≤ (Function.update stage (s.history.job t) .called j).rank ↔
        n ≤ (stage j).rank := fun n hn => rank_update (by rw [hstage]; simp only [Stage.rank]; omega)
    refine ⟨hlogged.posts,hlogged.order,fun j => ?_,fun j => ?_,fun j => ?_,fun j => ?_,fun j => ?_⟩
    · rw [hrank 1 (by decide)]; exact hlogged.posted j
    · rw [hrank 2 (by decide)]; exact hlogged.taken j
    · simp only [hrank 3 (by decide)]; exact hlogged.runs j
    · simp only [hrank 4 (by decide)]; exact hlogged.dones j
    · have hcalls := hlogged.calls j
      simp only [Process.deliver,List.count_append,hcalls]
      by_cases hj : j = s.history.job t
      · subst hj; simp [hstage,Stage.rank]
      · simp [hj,Ne.symm hj]

omit [DecidableEq τ] in
theorem Sound.drain (h : s.Sound stage queues []) :
    s.drain.Sound (fun j => (stage j).drain) (Function.update queues .done []) (queues .done) := by
  have hrank : ∀ n, n ≠ 5 → ∀ st : Stage κ, n ≤ st.drain.rank ↔ n ≤ st.rank := by
    intro n hn st
    unfold Stage.drain
    split
    · simp only [Stage.rank]; omega
    · rfl
  refine ⟨h.linked.drain,⟨fun st t => ?_,h.staged.job,fun j hlow hhigh => ?_⟩,?_⟩
  · have hat : ∀ st, (s.task t).active = true ∧ stage (s.history.job t) = st ↔ s.Occupies queues [] st t :=
      fun st => (h.staged.place st t).symm
    change _ ↔ (s.task t).active = true ∧ (stage (s.history.job t)).drain = st
    have hsame : ∀ st, st ≠ .queued .done → st ≠ .drained → (s.Occupies queues [] st t ↔
        (s.task t).active = true ∧ (stage (s.history.job t)).drain = st) :=
      fun st hst hst' => (hat st).symm.trans (and_congr_right fun _ => (Stage.drain_eq_iff hst hst').symm)
    cases st with
    | drained =>
      have hnone := hat .drained
      simp only [Occupies,List.not_mem_nil,iff_false,not_and] at hnone
      refine (hat (.queued .done)).symm.trans (and_congr_right fun hactive => ?_)
      rw [Stage.drain_eq_drained]
      exact ⟨.inl,fun hst => hst.resolve_right (hnone hactive)⟩
    | queued name =>
      cases name with
      | done => simp [Occupies,Stage.drain_ne_done]
      | pool k => exact Iff.trans (by simp [Occupies]) (hsame (.queued (.pool k)) (by simp) (by simp))
    | popped i => exact hsame (.popped i) (by simp) (by simp)
    | ran i => exact hsame (.ran i) (by simp) (by simp)
    | unposted => exact hsame .unposted (by simp) (by simp)
    | called => exact hsame .called (by simp) (by simp)
  · rw [hrank 1 (by decide)] at hlow
    rw [← Nat.not_le,hrank 6 (by decide),Nat.not_le] at hhigh
    exact h.staged.inFlight j hlow hhigh
  · have hlogged := h.logged
    refine ⟨fun k => by simpa [Process.drain] using hlogged.posts k,
      fun k n u hu => hlogged.order k n u (by simpa using hu),fun j => ?_,fun j => ?_,fun j => ?_,fun j => ?_,fun j => ?_⟩
    · rw [hrank 1 (by decide)]; exact hlogged.posted j
    · rw [hrank 2 (by decide)]; exact hlogged.taken j
    · simp only [hrank 3 (by decide)]; exact hlogged.runs j
    · simp only [hrank 4 (by decide)]; exact hlogged.dones j
    · simp only [hrank 6 (by decide)]; exact hlogged.calls j

/-- What a post that returns NGX_OK does, with the queue operation kept as it is. -/
theorem taskPost_ok {k : κ} {t : τ} (ht : (s.task t).active = false)
    (hroom : (s.tp k).waiting < (s.tp k).maxQueue) :
    ∃ s₁ : Process κ τ, (∀ name, s₁.queue name = s.queue name) ∧ s₁.drained = s.drained ∧
      (∀ u, s₁.task u = if u = t then { s.task t with active := true, id := s.taskId, next := none } else s.task u) ∧
      (s.taskPost k t).2.task = (s₁.append (.pool k) t).task ∧
      (∀ name, (s.taskPost k t).2.queue name = (s₁.append (.pool k) t).queue name) ∧
      (s.taskPost k t).2.drained = (s₁.append (.pool k) t).drained ∧
      (s.taskPost k t).2.workers = s.workers ∧
      (∀ k', ((s.taskPost k t).2.tp k').waiting = (s.tp k').waiting + if k' = k then 1 else 0) ∧
      (∀ k', ((s.taskPost k t).2.tp k').maxQueue = (s.tp k').maxQueue) ∧
      (s.taskPost k t).2.history = { s.history with
        posts := Function.update s.history.posts k (s.history.posts k ++ [t])
        job := Function.update s.history.job t (k,(s.history.posts k).length) } := by
  have hroom : ¬ (s.tp k).maxQueue ≤ (s.tp k).waiting := not_le.mpr hroom
  set s₁ : Process κ τ := { s.setTask t { s.task t with active := true, id := s.taskId, next := none } with
    taskId := (s.taskId + 1)%2^64 } with hs₁
  have hrest := rest_append s₁ (.pool k) t
  have hpost : (s.taskPost k t).2 =
      { (s₁.append (.pool k) t).setPool k { (s₁.append (.pool k) t).tp k with
          waiting := ((s₁.append (.pool k) t).tp k).waiting + 1 } with
        history := { s.history with
          posts := Function.update s.history.posts k (s.history.posts k ++ [t])
          job := Function.update s.history.job t (k,(s.history.posts k).length) } } := by
    simp [taskPost,ht,hroom,hs₁,setTask]
  have hcounts : ∀ k', ((s₁.append (.pool k) t).tp k').waiting = (s.tp k').waiting ∧
      ((s₁.append (.pool k) t).tp k').maxQueue = (s.tp k').maxQueue := fun k' => by
    have hpair := congrArg (fun r => r.1 k') hrest
    exact ⟨congrArg Prod.fst hpair,congrArg Prod.snd hpair⟩
  refine ⟨s₁,fun name => by cases name <;> rfl,rfl,fun u => task_setTask .., ?_⟩
  rw [hpost]
  refine ⟨rfl,fun name => ?_,rfl,congrArg (fun r => r.2.2.1) hrest,fun k' => ?_,fun k' => ?_,rfl⟩
  · cases name with
    | done => rfl
    | pool k' =>
      by_cases hk : k' = k
      · subst hk; simp [queue,setPool]
      · simp [queue,setPool,hk]
  · by_cases hk : k' = k
    · subst hk; simp [setPool,(hcounts k').1]
    · simp [setPool,hk,(hcounts k').1]
  · by_cases hk : k' = k
    · subst hk; simp [setPool,(hcounts k').2]
    · simp [setPool,hk,(hcounts k').2]

/-- A successful post sets the flag of its task. -/
theorem taskPost_active {k : κ} {t : τ} (ht : (s.task t).active = false)
    (hroom : (s.tp k).waiting < (s.tp k).maxQueue) (u : τ) :
    ((s.taskPost k t).2.task u).active = if u = t then true else (s.task u).active := by
  obtain ⟨s₁,-,-,htask₁,htask,-⟩ := taskPost_ok ht hroom
  have hflags := congrArg (fun r => (r.2.2.2.2.2 u).1) (rest_append s₁ (.pool k) t)
  rw [htask]
  refine Eq.trans hflags ?_
  simp only [rest,htask₁]
  split <;> rfl

/-- A post of a task that is in no list puts it at the end of the queue. -/
theorem Linked.post (h : s.Linked queues batch) {k : κ} {t : τ} (hnot : ∀ name, t ∉ queues name)
    (hnotb : t ∉ batch) (ht : (s.task t).active = false) (hroom : (s.tp k).waiting < (s.tp k).maxQueue) :
    (s.taskPost k t).2.Linked (Function.update queues (.pool k) (queues (.pool k) ++ [t])) batch := by
  obtain ⟨s₁,hqueue₁,hdrained₁,htask₁,htask,hqueue,hdrained,-⟩ := taskPost_ok ht hroom
  have hlinked₁ : s₁.Linked queues batch := h.congr hqueue₁ hdrained₁ fun u hu => by
    have hne : u ≠ t := by
      rintro rfl
      rcases hu with ⟨name,hm⟩ | hm
      · exact hnot name hm
      · exact hnotb hm
    rw [htask₁,if_neg hne]
  have happend := hlinked₁.append hnot hnotb (by rw [htask₁,if_pos rfl]) (.pool k)
  exact happend.congr hqueue hdrained fun u _ => by rw [htask]

/-- Only the posted task comes to another place. -/
theorem occupies_posted {k : κ} {t : τ} (hnot : ∀ st, ¬ s.Occupies queues batch st t) (ht : (s.task t).active = false)
    (hroom : (s.tp k).waiting < (s.tp k).maxQueue) (st : Stage κ) (u : τ) :
    (s.taskPost k t).2.Occupies (Function.update queues (.pool k) (queues (.pool k) ++ [t])) batch st u ↔
      u = t ∧ st = .queued (.pool k) ∨ u ≠ t ∧ s.Occupies queues batch st u := by
  obtain ⟨-,-,-,-,-,-,-,hworkers,-⟩ := taskPost_ok ht hroom
  have hother : ∀ st, st ≠ .queued (.pool k) → (s.Occupies queues batch st u ↔
      u = t ∧ st = .queued (.pool k) ∨ u ≠ t ∧ s.Occupies queues batch st u) := by
    intro st hst
    refine ⟨fun hu => .inr ⟨fun heq => hnot st (heq ▸ hu),hu⟩,fun hu => ?_⟩
    exact (hu.resolve_left fun hu => hst hu.2).2
  have hholds : ∀ i phase, (s.taskPost k t).2.Holds i phase ↔ s.Holds i phase := fun i phase => by
    simp only [Holds,hworkers]
  cases st with
  | queued name =>
    by_cases hname : name = .pool k
    · subst hname
      simp only [Occupies,Function.update_self,List.mem_append,List.mem_singleton,and_true]
      exact ⟨fun hu => hu.elim (fun hu => .inr ⟨fun heq => hnot (.queued _) (heq ▸ hu),hu⟩) .inl,
        fun hu => hu.elim .inr fun hu => .inl hu.2⟩
    · refine Iff.trans ?_ (hother (.queued name) (by simpa using hname))
      simp [Occupies,hname]
  | popped i => exact (hholds i _).trans (hother (.popped i) (by simp))
  | ran i => exact (hholds i _).trans (hother (.ran i) (by simp))
  | drained => exact hother .drained (by simp)
  | unposted => exact hother .unposted (by simp)
  | called => exact hother .called (by simp)

/-- The new job is the last one of its pool. -/
theorem Staged.post (h : s.Staged stage queues batch) {k : κ} {t : τ} (ht : (s.task t).active = false)
    (hroom : (s.tp k).waiting < (s.tp k).maxQueue) :
    (s.taskPost k t).2.Staged (Function.update stage (k,(s.history.posts k).length) (.queued (.pool k)))
      (Function.update queues (.pool k) (queues (.pool k) ++ [t])) batch := by
  obtain ⟨-,-,-,-,-,-,-,-,-,-,hhistory⟩ := taskPost_ok ht hroom
  have hactive := taskPost_active ht hroom
  have hnew : ∀ u, (s.task u).active = true → s.history.job u ≠ (k,(s.history.posts k).length) := by
    intro u hu heq
    have hget := h.job u hu
    rw [heq] at hget
    simp at hget
  refine ⟨fun st u => ?_,fun u hu => ?_,fun j hlow hhigh => ?_⟩
  · rw [occupies_posted (h.unoccupied ht) ht hroom,h.place]
    unfold At
    rw [hactive,hhistory]
    by_cases hu : u = t
    · subst hu
      simp only [true_and,ne_eq,not_true,false_and,or_false,if_true,Function.update_self]
      exact eq_comm
    · simp only [hu,false_and,false_or,ne_eq,not_false_eq_true,true_and,if_false,Function.update_of_ne hu]
      refine and_congr_right fun hactiveu => ?_
      rw [Function.update_of_ne (hnew u hactiveu)]
  · rw [hactive] at hu
    rw [hhistory]
    by_cases heq : u = t
    · subst heq
      simp
    · simp only [heq,if_false] at hu
      have hget := h.job u hu
      simp only [Function.update_of_ne heq]
      by_cases hk : (s.history.job u).1 = k
      · rw [hk] at hget ⊢
        rw [Function.update_self,List.getElem?_append_left (List.getElem?_eq_some_iff.mp hget).1]
        exact hget
      · rw [Function.update_of_ne hk]
        exact hget
  · by_cases hj : j = (k,(s.history.posts k).length)
    · exact ⟨t,by rw [hactive,if_pos rfl],by rw [hhistory,hj]; simp⟩
    · rw [Function.update_of_ne hj] at hlow hhigh
      obtain ⟨u,hu,hju⟩ := h.inFlight j hlow hhigh
      have hne : u ≠ t := by rintro rfl; rw [hu] at ht; cases ht
      exact ⟨u,by rw [hactive,if_neg hne]; exact hu,by rw [hhistory]; simpa [hne] using hju⟩

/-- The record of a post of a task that is in no queue. -/
theorem Logged.post {h : History κ τ} (hlogged : Logged h stage queues) {k : κ} {t : τ} (hnot : ∀ name, t ∉ queues name) :
    Logged { h with
        posts := Function.update h.posts k (h.posts k ++ [t])
        job := Function.update h.job t (k,(h.posts k).length) }
      (Function.update stage (k,(h.posts k).length) (.queued (.pool k)))
      (Function.update queues (.pool k) (queues (.pool k) ++ [t])) := by
  have hzero : ¬ 1 ≤ (stage (k,(h.posts k).length)).rank := by
    rw [hlogged.posted]
    simp
  have hrank : ∀ n, 2 ≤ n → ∀ j, n ≤ (Function.update stage (k,(h.posts k).length)
      (.queued (.pool k)) j).rank ↔ n ≤ (stage j).rank :=
    fun n hn => rank_update (by rw [show (Stage.queued (.pool k)).rank = 1 from rfl]; omega)
  refine ⟨fun k' => ?_,fun k' i u hu => ?_,fun j => ?_,fun j => ?_,fun j => ?_,fun j => ?_,fun j => ?_⟩
  · by_cases hk : k' = k
    · subst hk; simp [hlogged.posts]
    · simp [hk,hlogged.posts]
  · by_cases hk : k' = k
    · subst hk
      rw [Function.update_self] at hu
      by_cases hi : i < (queues (.pool k')).length
      · rw [List.getElem?_append_left hi] at hu
        have hne : u ≠ t := fun heq => hnot _ (heq ▸ List.mem_of_getElem? hu)
        simpa [hne] using hlogged.order k' i u hu
      · have hlast : i = (queues (.pool k')).length := by
          have := (List.getElem?_eq_some_iff.mp hu).1
          simp at this
          omega
        subst hlast
        obtain rfl : t = u := by simpa using hu
        simp [hlogged.posts]
    · rw [Function.update_of_ne (by simpa using hk)] at hu
      have hne : u ≠ t := fun heq => hnot _ (heq ▸ List.mem_of_getElem? hu)
      simpa [hne] using hlogged.order k' i u hu
  · by_cases hj : j = (k,(h.posts k).length)
    · subst hj; simp [Stage.rank]
    · rw [Function.update_of_ne hj,hlogged.posted]
      by_cases hk : j.1 = k
      · have hne : j.2 ≠ (h.posts k).length := fun heq => hj (Prod.ext hk heq)
        simp only [hk,Function.update_self,List.length_append,List.length_singleton]
        omega
      · simp [hk]
  · rw [hrank 2 le_rfl]; exact hlogged.taken j
  · simp only [hrank 3 (by decide)]; exact hlogged.runs j
  · simp only [hrank 4 (by decide)]; exact hlogged.dones j
  · simp only [hrank 6 (by decide)]; exact hlogged.calls j

/-- A post of an inactive task below the limit. -/
theorem Sound.post (h : s.Sound stage queues batch) {k : κ} {t : τ} (ht : (s.task t).active = false)
    (hroom : (s.tp k).waiting < (s.tp k).maxQueue) :
    (s.taskPost k t).2.Sound (Function.update stage (k,(s.history.posts k).length) (.queued (.pool k)))
      (Function.update queues (.pool k) (queues (.pool k) ++ [t])) batch := by
  have hnot := h.staged.unoccupied ht
  obtain ⟨-,-,-,-,-,-,-,-,-,-,hhistory⟩ := taskPost_ok ht hroom
  refine ⟨h.linked.post (fun name => hnot (.queued name)) (hnot .drained) ht hroom,h.staged.post ht hroom,?_⟩
  rw [hhistory]
  exact h.logged.post fun name => hnot (.queued name)

/-- A refused post changes nothing. -/
theorem taskPost_refused {k : κ} {t : τ}
    (h : (s.task t).active = true ∨ (s.tp k).maxQueue ≤ (s.tp k).waiting) : s.taskPost k t = (.error,s) := by
  unfold taskPost
  rcases h with h | h
  · rw [if_pos h]
  · rw [if_pos h]
    split <;> rfl

theorem Sound.init (h : (posting κ τ).init s) : s.Sound (fun _ => .unposted) (fun _ => []) [] := by
  obtain ⟨hidle,hpools,hdone,hworkers,hdrained,hhistory,hruns,hdones,hcalls⟩ := h
  have hqueue : ∀ name, s.queue name = queueInit name := fun name => by
    cases name with
    | pool k => exact (hpools k).1
    | done => exact hdone
  have hnone : ∀ i phase, s.Holds i phase → phase = .start := by
    rintro i phase ⟨w,hw,rfl⟩
    exact hworkers w (List.mem_of_getElem? hw)
  refine ⟨⟨fun name => ?_,by simp,hdrained,by simp,by simp,by simp⟩,⟨fun st t => ?_,?_,?_⟩,?_⟩
  · unfold Queued
    rw [hqueue]
    exact ⟨rfl,rfl⟩
  · unfold At
    rw [hidle t]
    simp only [Bool.false_eq_true,false_and,iff_false]
    cases st with
    | popped i => exact fun hp => by cases hnone i _ hp
    | ran i => exact fun hp => by cases hnone i _ hp
    | _ => simp [Occupies]
  · intro t ht
    rw [hidle t] at ht
    cases ht
  · intro j hlow
    simp [Stage.rank] at hlow
  · refine ⟨fun k => by simp [hhistory k],by simp,fun j => ?_,fun j => ?_,?_,?_,?_⟩
    · simp [hhistory j.1,Stage.rank]
    · simp [hhistory j.1,Stage.rank]
    · simp [hruns,Stage.rank]
    · simp [hdones,Stage.rank]
    · simp [hcalls,Stage.rank]

/-- One step keeps the invariant. -/
theorem Sound.step {s' : Process κ τ} {a : Action κ τ} (h : s.Sound stage queues batch)
    (hstep : s.step a = some s') : ∃ stage queues batch, s'.Sound stage queues batch := by
  cases a with
  | post k t =>
    cases hstep
    by_cases href : (s.task t).active = true ∨ (s.tp k).maxQueue ≤ (s.tp k).waiting
    · rw [taskPost_refused href]
      exact ⟨_,_,_,h⟩
    · rw [not_or,not_le,Bool.not_eq_true] at href
      exact ⟨_,_,_,h.post href.1 href.2⟩
  | work i =>
    obtain ⟨w,hi,hwork⟩ := Option.bind_eq_some_iff.mp hstep
    cases hw : w.phase with
    | start =>
      rw [hw] at hwork
      cases hwork
      exact ⟨_,_,_,h.decrement hi hw⟩
    | decremented =>
      rw [hw] at hwork
      obtain ⟨t,hfirst,rfl⟩ := Option.map_eq_some_iff.mp hwork
      have hhead := (h.linked.queue (.pool w.pool)).1.head
      obtain ⟨xs,hxs⟩ := List.head?_eq_some_iff.mp (hhead.symm.trans hfirst)
      exact ⟨_,_,_,h.pop hi hw hxs⟩
    | popped t =>
      rw [hw] at hwork
      cases hwork
      exact ⟨_,_,_,h.run hi hw⟩
    | ran t =>
      rw [hw] at hwork
      cases hwork
      exact ⟨_,_,_,h.finish hi hw⟩
  | drain =>
    simp only [Process.step] at hstep
    split at hstep
    · rename_i hidle
      cases hstep
      have hhead := h.linked.drained.head
      obtain rfl : batch = [] := List.head?_eq_none_iff.mp (hhead.symm.trans hidle)
      exact ⟨_,_,_,h.drain⟩
    · cases hstep
  | deliver =>
    obtain ⟨t,ht,rfl⟩ := Option.map_eq_some_iff.mp hstep
    have hhead := h.linked.drained.head
    obtain ⟨ts,rfl⟩ := List.head?_eq_some_iff.mp (hhead.symm.trans ht)
    exact ⟨_,_,_,h.deliver⟩

end Process

variable [DecidableEq κ] [DecidableEq τ]

open ThreadPool.Process

theorem reachable_sound {s : Process κ τ} (h : (posting κ τ).Reachable s) :
    ∃ stage queues batch, s.Sound stage queues batch := by
  refine h.invariant (I := fun s => ∃ stage queues batch, s.Sound stage queues batch) (fun s hinit => ?_) ?_
  · exact ⟨_,_,_,Sound.init hinit⟩
  · rintro s a s' - ⟨stage,queues,batch,ih⟩ hstep
    exact ih.step hstep

/-- Thread pool tasks run exactly once and in order. Every successful post has a stage; a task
that is on its way is in one place, and the logs of runs, of finished tasks and of completion
handlers have a job once from its stage on. -/
theorem tasks_once {s : Process κ τ} (h : (posting κ τ).Reachable s) :
    ∃ (stage : Job κ → Stage κ) (queues : QueueName κ → List τ) (batch : List τ),
      -- the links of each queue, its tail pointer, and the links of the drained batch
      (∀ name, Path s.load (s.queue name).first (queues name) ∧
        (s.queue name).last = lastLink (.root name) (queues name)) ∧ Path s.load s.drained batch ∧
      -- a task is in at most one of the lists and held by at most one worker, and there once
      (∀ name, (queues name).Nodup) ∧ batch.Nodup ∧
      (∀ st st' t, s.Occupies queues batch st t → s.Occupies queues batch st' t → st = st') ∧
      -- tasks are taken in the order of their posts
      (∀ k, s.history.posts k = s.history.pops k ++ queues (.pool k)) ∧
      -- a post that is on its way is where its stage says
      (∀ j, 1 ≤ (stage j).rank → (stage j).rank < 6 →
        ∃ t, (s.history.posts j.1)[j.2]? = some t ∧ s.history.job t = j ∧ s.Occupies queues batch (stage j) t) ∧
      -- posted, taken, run, finished and completed: each once
      (∀ j : Job κ, 1 ≤ (stage j).rank ↔ j.2 < (s.history.posts j.1).length) ∧
      (∀ j : Job κ, 2 ≤ (stage j).rank ↔ j.2 < (s.history.pops j.1).length) ∧
      (∀ j, (s.history.runs.map (·.2)).count j = if 3 ≤ (stage j).rank then 1 else 0) ∧
      (∀ j, s.history.dones.count j = if 4 ≤ (stage j).rank then 1 else 0) ∧
      ∀ j, s.history.calls.count j = if 6 ≤ (stage j).rank then 1 else 0 := by
  obtain ⟨stage,queues,batch,hlinked,hstaged,hlogged⟩ := reachable_sound h
  refine ⟨stage,queues,batch,hlinked.queue,hlinked.drained,hlinked.nodup,hlinked.nodup_batch,fun st st' t ht ht' => ?_,
    hlogged.posts,fun j hlow hhigh => ?_,hlogged.posted,hlogged.taken,hlogged.runs,hlogged.dones,hlogged.calls⟩
  · exact (hstaged.active ht).2.symm.trans (hstaged.active ht').2
  · obtain ⟨t,hactive,rfl⟩ := hstaged.inFlight j hlow hhigh
    exact ⟨t,hstaged.job t hactive,rfl,(hstaged.place _ t).mpr ⟨hactive,rfl⟩⟩

/-- Two workers, a task that is posted again after its completion, and another one. -/
def twiceActions : List (Action Unit ℕ) :=
  [.work 0,.post () 7,.work 1,.work 1,.post () 8,.work 0,.work 0,.work 0,.work 1,.work 1,.drain,.deliver,
    .post () 8,.deliver,.work 0]

def idleProcess : Process Unit ℕ where
  task _ := ⟨none,0,false,false⟩
  tp _ := ⟨queueInit (.pool ()),0,4⟩
  done := queueInit .done
  taskId := 0
  workers := [⟨(),.start⟩,⟨(),.start⟩]
  drained := none
  history := ⟨fun _ => [],fun _ => [],fun _ => ((),0),[],[],[]⟩

lemma idleProcess_init : (posting Unit ℕ).init idleProcess :=
  ⟨fun _ => rfl,fun _ => ⟨rfl,rfl⟩,rfl,by simp [idleProcess],rfl,fun _ => ⟨rfl,rfl⟩,rfl,rfl,rfl⟩

theorem tasks_once_twice : ∃ s : Process Unit ℕ, (posting Unit ℕ).Reachable s ∧
    s.history.posts () = [7,8,8] ∧ s.history.calls = [((),1),((),0)] ∧
    ∃ queues : QueueName Unit → List ℕ, s.history.posts () = s.history.pops () ++ queues (.pool ()) := by
  obtain ⟨s,hs⟩ : ∃ s, TransitionSystem.replay Process.step idleProcess twiceActions = some s := ⟨_,rfl⟩
  have hreach : (posting Unit ℕ).Reachable s :=
    TransitionSystem.Reachable.of_replay (.init idleProcess_init) hs
  obtain ⟨stage,queues,batch,-,-,-,-,-,horder,-⟩ := tasks_once hreach
  refine ⟨s,hreach,?_,?_,queues,horder ()⟩
  · cases hs; decide
  · cases hs; decide

end InsideNginx.ThreadPool
