import InsideNginx.ThreadPool.Tasks

/-! Posts whose primitives may fail. A refused post can be repeated, unless it is the signal that has
failed: the flag of the task is set before it. -/
namespace InsideNginx.ThreadPool
open TailQueue
variable {κ τ : Type} [DecidableEq κ] [DecidableEq τ]

/-- Whether `ngx_thread_mutex_lock` and `ngx_thread_cond_signal` return NGX_OK. -/
structure Primitives where
  lock : Bool
  signal : Bool
  deriving DecidableEq, Repr

namespace Process

/-- What a post does to its task before the signal. -/
def mark (s : Process κ τ) (t : τ) : Process κ τ :=
  let s₁ := s.setTask t { s.task t with active := true, id := s.taskId, next := none }
  { s₁ with taskId := (s₁.taskId + 1)%2^64 }

/-- `ngx_thread_task_post`, with the results of its primitives. -/
def taskPostWith (s : Process κ τ) (k : κ) (t : τ) (p : Primitives) : Rc × Process κ τ :=
  if (s.task t).active then (.error,s)
  else if !p.lock then (.error,s)
  else if (s.tp k).maxQueue ≤ (s.tp k).waiting then (.error,s)
  else
    let s₁ := s.mark t
    if !p.signal then (.error,s₁)
    else
      let s₂ := s₁.append (.pool k) t
      let s₃ := s₂.setPool k { s₂.tp k with waiting := (s₂.tp k).waiting + 1 }
      (.ok,{ s₃ with history := { s.history with
        posts := Function.update s.history.posts k (s.history.posts k ++ [t])
        job := Function.update s.history.job t (k,(s.history.posts k).length) } })

/-- When the primitives succeed, this is the post of the other modules. -/
theorem taskPostWith_all (s : Process κ τ) (k : κ) (t : τ) : s.taskPostWith k t ⟨true,true⟩ = s.taskPost k t := rfl

end Process

/-- A step of the process, where a post comes with the results of its primitives. -/
inductive PostAction (κ τ : Type)
  | post (tp : κ) (task : τ) (p : Primitives)
  | work (worker : ℕ)
  | drain
  | deliver
  deriving DecidableEq, Repr

def Process.stepWith (s : Process κ τ) : PostAction κ τ → Option (Process κ τ)
  | .post k t p => some (s.taskPostWith k t p).2
  | .work i => s.step (.work i)
  | .drain => s.step .drain
  | .deliver => s.step .deliver

/-- The runs of a process where posts may be refused. -/
def refusing (κ τ : Type) [DecidableEq κ] [DecidableEq τ] : TransitionSystem (Process κ τ) (PostAction κ τ) :=
  .ofFunction (posting κ τ).init Process.stepWith

namespace Process

/-- Worker `i` has the task in its hands. -/
def Carries (s : Process κ τ) (i : ℕ) (t : τ) : Prop := ∃ w, s.workers[i]? = some w ∧ w.phase.task = some t

/-- The lists of the process have only active tasks, as have the hands of the workers, and a task in
the hands of one worker is nowhere else. -/
structure Filed (s : Process κ τ) (queues : QueueName κ → List τ) (batch : List τ) : Prop where
  linked : s.Linked queues batch
  queued : ∀ name, ∀ t ∈ queues name, (s.task t).active = true
  drained : ∀ t ∈ batch, (s.task t).active = true
  carried : ∀ i t, s.Carries i t → (s.task t).active = true ∧ (∀ name, t ∉ queues name) ∧ t ∉ batch
  once : ∀ i j t, s.Carries i t → s.Carries j t → i = j

variable {s s' : Process κ τ} {queues : QueueName κ → List τ} {batch : List τ} {k : κ} {t : τ} {p : Primitives}

/-! ### The tasks in their lists -/

section
omit [DecidableEq κ] [DecidableEq τ]

theorem carries_setWorker {i : ℕ} {w w' : Worker κ τ} (hi : s.workers[i]? = some w)
    (hw : s'.workers = s.workers.set i w') {j : ℕ} {u : τ} (h : s'.Carries j u) :
    j = i ∧ w'.phase.task = some u ∨ j ≠ i ∧ s.Carries j u := by
  obtain ⟨v,hv,htask⟩ := h
  rw [hw] at hv
  by_cases hj : j = i
  · subst hj
    rw [List.getElem?_set_self (List.getElem?_eq_some_iff.mp hi).1] at hv
    cases hv
    exact .inl ⟨rfl,htask⟩
  · rw [List.getElem?_set_ne (Ne.symm hj)] at hv
    exact .inr ⟨hj,v,hv,htask⟩

/-- A task that is not active is in no list. -/
theorem Filed.unlisted (h : s.Filed queues batch) (ht : (s.task t).active = false) :
    (∀ name, t ∉ queues name) ∧ t ∉ batch := by
  constructor
  · intro name hm
    exact Bool.false_ne_true (ht.symm.trans (h.queued name t hm))
  · intro hm
    exact Bool.false_ne_true (ht.symm.trans (h.drained t hm))

/-- A worker's step keeps the flags; it leaves what it has in its hands, takes the head of a queue, or
adds what it has to a queue. -/
theorem Filed.work {i : ℕ} {w w' : Worker κ τ} (h : s.Filed queues batch) (hi : s.workers[i]? = some w)
    {queues' : QueueName κ → List τ} (hlinked : s'.Linked queues' batch) (hworkers : s'.workers = s.workers.set i w')
    (hactive : ∀ u, (s'.task u).active = (s.task u).active)
    (hqueues : ∀ name, ∀ u ∈ queues' name, u ∈ queues name ∨ s.Carries i u ∧ w'.phase.task = none)
    (hhands : ∀ u, w'.phase.task = some u →
      s.Carries i u ∨ (∃ name, u ∈ queues name) ∧ ∀ name, u ∉ queues' name) : s'.Filed queues' batch := by
  have hnotq : ∀ j u, s'.Carries j u → ∀ name, u ∉ queues' name := by
    intro j u hu name hm
    rcases carries_setWorker hi hworkers hu with ⟨-,hw'⟩ | ⟨hj,hold⟩
    · rcases hqueues name u hm with hm | ⟨-,hnone⟩
      · rcases hhands u hw' with hold | ⟨-,hnot⟩
        · exact (h.carried i u hold).2.1 name hm
        · exact hnot name ‹_›
      · rw [hnone] at hw'
        cases hw'
    · rcases hqueues name u hm with hm | ⟨hcarry,-⟩
      · exact (h.carried j u hold).2.1 name hm
      · exact hj (h.once j i u hold hcarry)
  refine ⟨hlinked,fun name u hu => ?_,fun u hu => by rw [hactive]; exact h.drained u hu,fun j u hu => ⟨?_,hnotq j u hu,?_⟩,
    fun j j' u hj hj' => ?_⟩
  · rw [hactive]
    rcases hqueues name u hu with hm | ⟨hcarry,-⟩
    · exact h.queued name u hm
    · exact (h.carried i u hcarry).1
  · rw [hactive]
    rcases carries_setWorker hi hworkers hu with ⟨-,hw'⟩ | ⟨-,hold⟩
    · rcases hhands u hw' with hold | ⟨⟨name,hm⟩,-⟩
      · exact (h.carried i u hold).1
      · exact h.queued name u hm
    · exact (h.carried j u hold).1
  · rcases carries_setWorker hi hworkers hu with ⟨-,hw'⟩ | ⟨-,hold⟩
    · rcases hhands u hw' with hold | ⟨⟨name,hm⟩,-⟩
      · exact (h.carried i u hold).2.2
      · exact h.linked.disjoint_batch name u hm
    · exact (h.carried j u hold).2.2
  · have hother : ∀ j, j ≠ i → s.Carries j u → w'.phase.task ≠ some u := by
      intro j hj hold hw'
      rcases hhands u hw' with hcarry | ⟨⟨name,hm⟩,-⟩
      · exact hj (h.once j i u hold hcarry)
      · exact (h.carried j u hold).2.1 name hm
    rcases carries_setWorker hi hworkers hj with ⟨rfl,hw'⟩ | ⟨hne,hold⟩
    · rcases carries_setWorker hi hworkers hj' with ⟨rfl,-⟩ | ⟨hne',hold'⟩
      · rfl
      · exact absurd hw' (hother j' hne' hold')
    · rcases carries_setWorker hi hworkers hj' with ⟨rfl,hw'⟩ | ⟨-,hold'⟩
      · exact absurd hw' (hother j hne hold)
      · exact h.once j j' u hold hold'

end

section
omit [DecidableEq κ]

/-- A post, or its beginning, of a task that is not active. -/
theorem Filed.activate (h : s.Filed queues batch) {queues' : QueueName κ → List τ}
    (hlinked : s'.Linked queues' batch) (hworkers : s'.workers = s.workers)
    (hactive : ∀ u, (s'.task u).active = if u = t then true else (s.task u).active)
    (hqueues : ∀ name, ∀ u ∈ queues' name, u = t ∨ u ∈ queues name) (ht : (s.task t).active = false) :
    s'.Filed queues' batch := by
  have hkeep : ∀ u, (s.task u).active = true → (s'.task u).active = true := by
    intro u hu
    rw [hactive,hu]
    split <;> rfl
  have hcarries : ∀ i u, s'.Carries i u → s.Carries i u := by
    intro i u hu
    unfold Carries at hu
    rwa [hworkers] at hu
  refine ⟨hlinked,fun name u hu => ?_,fun u hu => hkeep u (h.drained u hu),fun i u hu => ?_,
    fun i j u hi hj => h.once i j u (hcarries i u hi) (hcarries j u hj)⟩
  · rcases hqueues name u hu with rfl | hold
    · rw [hactive,if_pos rfl]
    · exact hkeep u (h.queued name u hold)
  · obtain ⟨hu',hnot,hnotb⟩ := h.carried i u (hcarries i u hu)
    refine ⟨hkeep u hu',fun name hm => ?_,hnotb⟩
    rcases hqueues name u hm with rfl | hold
    · exact Bool.false_ne_true (ht.symm.trans hu')
    · exact hnot name hold

theorem Filed.mark (h : s.Filed queues batch) (ht : (s.task t).active = false) : (s.mark t).Filed queues batch := by
  obtain ⟨hnot,hnotb⟩ := h.unlisted ht
  refine h.activate ((h.linked.clear hnot hnotb _).congr (fun name => ?_) rfl fun _ _ => rfl) rfl (fun u => ?_)
    (fun name u hu => .inr hu) ht
  · cases name <;> rfl
  · simp only [Process.mark,task_setTask]
    split <;> rfl

theorem Filed.deliver {ts : List τ} (h : s.Filed queues (t::ts)) : (s.deliver t).Filed queues ts := by
  have hkeep : ∀ u, u ≠ t → ((s.deliver t).task u).active = (s.task u).active := fun u hu => by
    rw [deliver_active,if_neg hu]
  refine ⟨h.linked.deliver,fun name u hu => ?_,fun u hu => ?_,fun i u hu => ?_,h.once⟩
  · rw [hkeep u fun heq => h.linked.disjoint_batch name u hu (heq ▸ List.mem_cons_self)]
    exact h.queued name u hu
  · rw [hkeep u fun heq => (List.nodup_cons.mp h.linked.nodup_batch).1 (heq ▸ hu)]
    exact h.drained u (List.mem_cons_of_mem _ hu)
  · obtain ⟨hactive,hnot,hnotb⟩ := h.carried i u hu
    refine ⟨?_,hnot,fun hm => hnotb (List.mem_cons_of_mem _ hm)⟩
    rw [hkeep u fun heq => hnotb (heq ▸ List.mem_cons_self)]
    exact hactive

end

/-! ### One step -/

/-- A post is refused at once, or after its task has been marked, or it is one without failures. -/
theorem taskPostWith_cases (s : Process κ τ) (k : κ) (t : τ) (p : Primitives) :
    s.taskPostWith k t p = (.error,s) ∨
    ((s.task t).active = false ∧ p.lock = true ∧ (s.tp k).waiting < (s.tp k).maxQueue) ∧
      (p.signal = false ∧ s.taskPostWith k t p = (.error,s.mark t) ∨
        p.signal = true ∧ s.taskPostWith k t p = s.taskPost k t) := by
  unfold taskPostWith
  by_cases hactive : (s.task t).active = true
  · exact .inl (if_pos hactive)
  by_cases hlock : p.lock = true
  · by_cases hfull : (s.tp k).maxQueue ≤ (s.tp k).waiting
    · left
      simp [hlock,hfull]
    · right
      refine ⟨⟨Bool.not_eq_true _ ▸ hactive,hlock,not_le.mp hfull⟩,?_⟩
      cases hsignal : p.signal with
      | false => exact .inl ⟨rfl,by simp [hactive,hlock,hfull]⟩
      | true => exact .inr ⟨rfl,by simp [hactive,hlock,hfull,taskPost,mark]⟩
  · left
    simp [hlock]

theorem Filed.post (h : s.Filed queues batch) (ht : (s.task t).active = false)
    (hroom : (s.tp k).waiting < (s.tp k).maxQueue) :
    (s.taskPost k t).2.Filed (Function.update queues (.pool k) (queues (.pool k) ++ [t])) batch := by
  obtain ⟨hnot,hnotb⟩ := h.unlisted ht
  obtain ⟨-,-,-,-,-,-,-,hworkers,-⟩ := taskPost_ok ht hroom
  refine h.activate (h.linked.post hnot hnotb ht hroom) hworkers (taskPost_active ht hroom) (fun name u hu => ?_) ht
  by_cases hname : name = .pool k
  · subst hname
    rw [Function.update_self,List.mem_append,List.mem_singleton] at hu
    exact hu.symm
  · rw [Function.update_of_ne hname] at hu
    exact .inr hu

theorem Filed.postWith (h : s.Filed queues batch) (k : κ) (t : τ) (p : Primitives) :
    ∃ queues', (s.taskPostWith k t p).2.Filed queues' batch := by
  rcases taskPostWith_cases s k t p with hsame | ⟨⟨ht,-,hroom⟩,⟨-,hmark⟩ | ⟨-,hpost⟩⟩
  · rw [hsame]
    exact ⟨_,h⟩
  · rw [hmark]
    exact ⟨_,h.mark ht⟩
  · rw [hpost]
    exact ⟨_,h.post ht hroom⟩

section
variable {i : ℕ} {w : Worker κ τ} (h : s.Filed queues batch) (hi : s.workers[i]? = some w)
include h hi

omit [DecidableEq τ] in
theorem Filed.pop {xs : List τ} (hxs : queues (.pool w.pool) = t::xs) :
    (s.pop i w t).Filed (Function.update queues (.pool w.pool) xs) batch := by
  obtain ⟨htask,hworkers,hdrained,-,hqueue⟩ := pop_spec s i w t
  refine h.work hi (h.linked.dequeue hxs rfl rfl hqueue htask hdrained) hworkers (fun u => by rw [htask])
    (fun name u hu => .inl (h.linked.mem_dequeued hxs hu).1) fun u hu => .inr ?_
  cases hu
  exact ⟨⟨_,hxs ▸ List.mem_cons_self⟩,fun name hm => (h.linked.mem_dequeued hxs hm).2 rfl⟩

theorem Filed.finish (hw : w.phase = .ran t) :
    (s.finish i w t).Filed (Function.update queues .done (queues .done ++ [t])) batch := by
  have hcarry : s.Carries i t := ⟨w,hi,by rw [hw]; rfl⟩
  obtain ⟨-,hnot,hnotb⟩ := h.carried i t hcarry
  refine h.work hi (h.linked.finish hnot hnotb i w) (finish_workers s i w t) (finish_active s i w t)
    (fun name u hu => ?_) fun u hu => by cases hu
  by_cases hname : name = .done
  · subst hname
    rw [Function.update_self,List.mem_append,List.mem_singleton] at hu
    rcases hu with hu | rfl
    · exact .inl hu
    · exact .inr ⟨hcarry,rfl⟩
  · rw [Function.update_of_ne hname] at hu
    exact .inl hu

end

omit [DecidableEq τ] in
theorem Filed.drain (h : s.Filed queues []) : s.drain.Filed (Function.update queues .done []) (queues .done) where
  linked := h.linked.drain
  queued name u hu := by
    by_cases hname : name = .done
    · subst hname
      simp at hu
    · rw [Function.update_of_ne hname] at hu
      exact h.queued name u hu
  drained := h.queued .done
  carried i u hu := by
    obtain ⟨hactive,hnot,-⟩ := h.carried i u hu
    refine ⟨hactive,fun name hm => ?_,hnot .done⟩
    by_cases hname : name = .done
    · subst hname
      simp at hm
    · rw [Function.update_of_ne hname] at hm
      exact hnot name hm
  once := h.once

/-- One step keeps the tasks in their lists. -/
theorem Filed.step {a : PostAction κ τ} (h : s.Filed queues batch) (hstep : s.stepWith a = some s') :
    ∃ queues batch, s'.Filed queues batch := by
  cases a with
  | post k t p =>
    cases hstep
    obtain ⟨queues',hpost⟩ := h.postWith k t p
    exact ⟨_,_,hpost⟩
  | work i =>
    obtain ⟨w,hi,hwork⟩ := Option.bind_eq_some_iff.mp hstep
    cases hw : w.phase with
    | start =>
      rw [hw] at hwork
      cases hwork
      exact ⟨_,_,h.work hi (h.linked.decrement i w) rfl (fun _ => rfl) (fun _ _ => .inl) fun u hu => by cases hu⟩
    | decremented =>
      rw [hw] at hwork
      obtain ⟨t,hfirst,rfl⟩ := Option.map_eq_some_iff.mp hwork
      have hhead := (h.linked.queue (.pool w.pool)).1.head
      obtain ⟨xs,hxs⟩ := List.head?_eq_some_iff.mp (hhead.symm.trans hfirst)
      exact ⟨_,_,h.pop hi hxs⟩
    | popped t =>
      rw [hw] at hwork
      cases hwork
      have hcarry : s.Carries i t := ⟨w,hi,by rw [hw]; rfl⟩
      refine ⟨_,_,h.work hi (h.linked.congr (fun name => ?_) rfl fun _ _ => rfl) rfl (fun _ => rfl)
        (fun _ _ => .inl) fun u hu => .inl ?_⟩
      · cases name <;> rfl
      · cases hu
        exact hcarry
    | ran t =>
      rw [hw] at hwork
      cases hwork
      exact ⟨_,_,h.finish hi hw⟩
  | drain =>
    simp only [stepWith,Process.step] at hstep
    split at hstep
    · rename_i hidle
      cases hstep
      have hhead := h.linked.drained.head
      obtain rfl : batch = [] := List.head?_eq_none_iff.mp (hhead.symm.trans hidle)
      exact ⟨_,_,h.drain⟩
    · cases hstep
  | deliver =>
    obtain ⟨t,ht,rfl⟩ := Option.map_eq_some_iff.mp hstep
    have hhead := h.linked.drained.head
    obtain ⟨ts,rfl⟩ := List.head?_eq_some_iff.mp (hhead.symm.trans ht)
    exact ⟨_,_,h.deliver⟩

/-! ### Posting again -/

/-- No step but a post of the task activates it. -/
theorem stepWith_inactive {a : PostAction κ τ} (hstep : s.stepWith a = some s') (ha : ∀ k p, a ≠ .post k t p)
    (ht : (s.task t).active = false) : (s'.task t).active = false := by
  cases a with
  | post k u p =>
    cases hstep
    have hne : t ≠ u := fun heq => ha k p (heq ▸ rfl)
    rcases taskPostWith_cases s k u p with hsame | ⟨⟨hu,-,hroom⟩,⟨-,hmark⟩ | ⟨-,hpost⟩⟩
    · rw [hsame]
      exact ht
    · rw [hmark]
      simpa [mark,hne] using ht
    · rw [hpost,taskPost_active hu hroom,if_neg hne]
      exact ht
  | work i =>
    obtain ⟨w,-,hwork⟩ := Option.bind_eq_some_iff.mp hstep
    cases hw : w.phase with
    | start | popped u =>
      rw [hw] at hwork
      cases hwork
      exact ht
    | decremented =>
      rw [hw] at hwork
      obtain ⟨u,-,rfl⟩ := Option.map_eq_some_iff.mp hwork
      rw [(pop_spec s i w u).1]
      exact ht
    | ran u =>
      rw [hw] at hwork
      cases hwork
      rw [finish_active]
      exact ht
  | drain =>
    simp only [stepWith,Process.step] at hstep
    split at hstep
    · cases hstep
      exact ht
    · cases hstep
  | deliver =>
    obtain ⟨u,-,rfl⟩ := Option.map_eq_some_iff.mp hstep
    rw [deliver_active,ht]
    split <;> rfl

/-- The post appends the task to the queue of the pool, where it was in no queue before. -/
def Enqueues (s : Process κ τ) (k : κ) (t : τ) : Prop :=
  (s.taskPostWith k t ⟨true,true⟩).1 = .ok ∧
    ((s.taskPostWith k t ⟨true,true⟩).2.tp k).waiting = (s.tp k).waiting + 1 ∧
    ∃ queues : QueueName κ → List τ, ∀ name, s.Queued name (queues name) ∧ t ∉ queues name ∧
      (s.taskPostWith k t ⟨true,true⟩).2.Queued name
        (if name = .pool k then queues name ++ [t] else queues name)

/-- If the post is refused, nothing has changed for the queues, for the pools and for the flag, and
the task can be posted after any further steps, as long as it is not posted in between. -/
def Retriable (s : Process κ τ) (k : κ) (t : τ) (p : Primitives) : Prop :=
  ∀ s', s.taskPostWith k t p = (.error,s') →
    s'.tp = s.tp ∧ (∀ name xs, s.Queued name xs → s'.Queued name xs) ∧ (s'.task t).active = (s.task t).active ∧
    ∀ moves s'', (refusing κ τ).Run s' moves s'' → (∀ m ∈ moves, ∀ k p, m.label ≠ .post k t p) →
      ∀ k', (s''.tp k').waiting < (s''.tp k').maxQueue → s''.Enqueues k' t

theorem taskPost_rc (ht : (s.task t).active = false) (hroom : (s.tp k).waiting < (s.tp k).maxQueue) :
    (s.taskPost k t).1 = .ok := by
  simp [taskPost,ht,not_le.mpr hroom]

theorem Filed.enqueues (h : s.Filed queues batch) (ht : (s.task t).active = false)
    (hroom : (s.tp k).waiting < (s.tp k).maxQueue) : s.Enqueues k t := by
  have hpost := (h.post ht hroom).linked
  obtain ⟨-,-,-,-,-,-,-,-,hwaiting,-⟩ := taskPost_ok ht hroom
  unfold Enqueues
  rw [taskPostWith_all]
  refine ⟨taskPost_rc ht hroom,by rw [hwaiting,if_pos rfl],queues,fun name => ?_⟩
  refine ⟨h.linked.queue name,(h.unlisted ht).1 name,?_⟩
  have hqueue := hpost.queue name
  rw [Function.update_apply] at hqueue
  split
  · rename_i hname
    subst hname
    rwa [if_pos rfl] at hqueue
  · rename_i hname
    rwa [if_neg hname] at hqueue

end Process

open InsideNginx.ThreadPool.Process

/-- In every reachable state the tasks are in their lists, and there a refused post of a task that is
not active can be repeated exactly when the lock has failed, the queue is full, or the signal succeeds. -/
theorem retriable_iff :
    (∀ s : Process κ τ, (refusing κ τ).Reachable s → ∃ queues batch, s.Filed queues batch) ∧
    ∀ (s : Process κ τ) (k : κ) (t : τ) (p : Primitives), (∃ queues batch, s.Filed queues batch) →
      (s.task t).active = false →
      (s.Retriable k t p ↔ p.lock = false ∨ (s.tp k).maxQueue ≤ (s.tp k).waiting ∨ p.signal = true) := by
  constructor
  · intro s h
    refine h.invariant (I := fun s => ∃ queues batch, s.Filed queues batch) (fun s hinit => ?_) ?_
    · have hsound := Sound.init hinit
      have hnone : ∀ i t, ¬ s.Carries i t := by
        rintro i t ⟨w,hw,htask⟩
        rw [hinit.2.2.2.1 w (List.mem_of_getElem? hw)] at htask
        cases htask
      exact ⟨_,_,hsound.linked,by simp,by simp,fun i t hcarry => absurd hcarry (hnone i t),
        fun i j t hcarry => absurd hcarry (hnone i t)⟩
    · rintro s a s' - ⟨queues,batch,ih⟩ hstep
      exact ih.step hstep
  · intro s k t p hfiled ht
    constructor
    · intro h
      by_contra hno
      obtain ⟨hlock,hfull,hsignal⟩ : p.lock = true ∧ ¬ (s.tp k).maxQueue ≤ (s.tp k).waiting ∧ p.signal = false := by
        simpa using hno
      have hmark : s.taskPostWith k t p = (.error,s.mark t) := by
        simp [taskPostWith,ht,hlock,hfull,hsignal]
      have hactive := (h _ hmark).2.2.1
      rw [ht] at hactive
      simp [mark] at hactive
    · intro h s' hpost
      have hsame : s' = s := by
        rcases taskPostWith_cases s k t p with hsame | ⟨⟨-,hlock,hroom⟩,⟨hsignal,-⟩ | ⟨-,hok⟩⟩
        · exact congrArg Prod.snd (hpost.symm.trans hsame)
        · rcases h with h | h | h
          · simp [hlock] at h
          · exact absurd hroom (not_lt.mpr h)
          · simp [hsignal] at h
        · rw [hok] at hpost
          have hrc := taskPost_rc ht hroom
          rw [hpost] at hrc
          cases hrc
      subst hsame
      refine ⟨rfl,fun _ _ hqueued => hqueued,rfl,fun moves s'' hrun hmoves k' hroom => ?_⟩
      have hinv := hrun.invariant
        (I := fun s => (∃ queues batch, s.Filed queues batch) ∧ (s.task t).active = false)
        (P := fun m => ∀ k p, m.label ≠ .post k t p) (fun m hm hstep hI => ?_) hmoves ⟨hfiled,ht⟩
      · obtain ⟨⟨queues,batch,hfiled⟩,hinactive⟩ := hinv
        exact hfiled.enqueues hinactive hroom
      · obtain ⟨⟨queues,batch,hfiled⟩,hinactive⟩ := hI
        exact ⟨hfiled.step hstep,stepWith_inactive hstep hm hinactive⟩

/-- A full queue refuses the task 7, which stays as it was and can be posted later. -/
theorem retriable_iff_full : ∃ s : Process Unit ℕ, (s.tp ()).maxQueue ≤ (s.tp ()).waiting ∧
    s.Retriable () 7 ⟨true,true⟩ := by
  obtain ⟨s,hs⟩ : ∃ s, TransitionSystem.replay Process.stepWith
      { idleProcess with tp := fun _ => ⟨queueInit (.pool ()),0,1⟩ } [.post () 8 ⟨true,true⟩] = some s := ⟨_,rfl⟩
  have hreach : (refusing Unit ℕ).Reachable s := by
    refine TransitionSystem.Reachable.of_replay (.init ?_) hs
    exact ⟨fun _ => rfl,fun _ => ⟨rfl,rfl⟩,rfl,by simp [idleProcess],rfl,fun _ => ⟨rfl,rfl⟩,rfl,rfl,rfl⟩
  have hfull : (s.tp ()).maxQueue ≤ (s.tp ()).waiting := by
    cases hs
    decide
  refine ⟨s,hfull,(retriable_iff.2 s () 7 ⟨true,true⟩ (retriable_iff.1 s hreach) ?_).mpr (.inr (.inl hfull))⟩
  cases hs
  rfl

/-- After a failed signal the task counts as active, and no later post of it succeeds. -/
theorem signal_failure_disables :
    (idleProcess.task 7).active = false ∧
    (idleProcess.taskPostWith () 7 ⟨true,false⟩).1 = .error ∧
    ((idleProcess.taskPostWith () 7 ⟨true,false⟩).2.task 7).active = true ∧
    ((idleProcess.taskPostWith () 7 ⟨true,false⟩).2.taskPostWith () 7 ⟨true,true⟩).1 = .error ∧
    ¬ idleProcess.Retriable () 7 ⟨true,false⟩ := by
  refine ⟨rfl,rfl,rfl,rfl,fun h => ?_⟩
  exact Bool.false_ne_true (h _ rfl).2.2.1.symm

end InsideNginx.ThreadPool
