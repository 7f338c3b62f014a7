import InsideNginx.General.TailQueue
import InsideNginx.General.TransitionSystem

/-! The thread pools of a process with the list of finished tasks that they share. Every section
under a mutex or the spinlock is one step; a worker decrements `waiting` and takes a task in two
steps, so that all that happens between them while it waits is covered. -/
namespace InsideNginx.ThreadPool

/-- The queues: one for each pool, and `ngx_thread_pool_done`. -/
inductive QueueName (κ : Type)
  | pool (tp : κ)
  | done
  deriving DecidableEq, Repr

/-- `next` and the flags of `event` of a task. -/
structure Task (τ : Type) where
  next : Option τ
  id : ℕ
  active : Bool
  complete : Bool
  deriving DecidableEq, Repr

structure Queue (κ τ : Type) where
  first : Option τ
  last : Link (QueueName κ) τ
  deriving DecidableEq, Repr

structure Pool (κ τ : Type) where
  queue : Queue κ τ
  waiting : ℤ
  maxQueue : ℤ
  deriving DecidableEq, Repr

/-- Where a worker is in `ngx_thread_pool_cycle`: before the decrement, before it takes a task,
before it runs the handler of its task, and before it adds the task to the finished ones. -/
inductive Phase (τ : Type)
  | start
  | decremented
  | popped (task : τ)
  | ran (task : τ)
  deriving DecidableEq, Repr

structure Worker (κ τ : Type) where
  pool : κ
  phase : Phase τ
  deriving DecidableEq, Repr

/-- A successful post, by its pool and its number among the successful posts to it. -/
abbrev Job (κ : Type) := κ × ℕ

/-- What a run records: the successful posts to each pool and the tasks taken from it, the last
post of each task, and by job who ran it, when it became a finished one, and when its completion
handler was called. -/
structure History (κ τ : Type) where
  posts : κ → List τ
  pops : κ → List τ
  job : τ → Job κ
  runs : List (ℕ × Job κ)
  dones : List (Job κ)
  calls : List (Job κ)

/-- The process: `taskId` is `ngx_thread_pool_task_id`, and `drained` the local variable `task` of
`ngx_thread_pool_handler`. -/
structure Process (κ τ : Type) where
  task : τ → Task τ
  tp : κ → Pool κ τ
  done : Queue κ τ
  taskId : ℕ
  workers : List (Worker κ τ)
  drained : Option τ
  history : History κ τ

variable {κ τ : Type} [DecidableEq κ] [DecidableEq τ]

/-- The queue that `ngx_thread_pool_queue_init` leaves. -/
def queueInit (name : QueueName κ) : Queue κ τ := ⟨none,.root name⟩

namespace Process

def setTask (s : Process κ τ) (t : τ) (task : Task τ) : Process κ τ :=
  { s with task := Function.update s.task t task }

def setPool (s : Process κ τ) (k : κ) (tp : Pool κ τ) : Process κ τ :=
  { s with tp := Function.update s.tp k tp }

def setQueue (s : Process κ τ) : QueueName κ → Queue κ τ → Process κ τ
  | .pool k,q => s.setPool k { s.tp k with queue := q }
  | .done,q => { s with done := q }

def queue (s : Process κ τ) : QueueName κ → Queue κ τ
  | .pool k => (s.tp k).queue
  | .done => s.done

/-- What a link points to. -/
def load (s : Process κ τ) : Link (QueueName κ) τ → Option τ
  | .root name => (s.queue name).first
  | .next t => (s.task t).next

/-- Store a pointer in a link. -/
def store (s : Process κ τ) : Link (QueueName κ) τ → Option τ → Process κ τ
  | .root name,p => s.setQueue name { s.queue name with first := p }
  | .next t,p => s.setTask t { s.task t with next := p }

/-- `*q.last = task; q.last = &task->next;` -/
def append (s : Process κ τ) (name : QueueName κ) (t : τ) : Process κ τ :=
  let s := s.store (s.queue name).last (some t)
  s.setQueue name { s.queue name with last := .next t }

inductive Rc
  | ok
  | error
  deriving DecidableEq, Repr

/-- `ngx_thread_task_post`. The test of `event.active`, before the mutex is locked, and the section under it
are one step: no other post of the same task is under way. -/
def taskPost (s : Process κ τ) (k : κ) (t : τ) : Rc × Process κ τ :=
  if (s.task t).active then (.error,s)
  else if (s.tp k).maxQueue ≤ (s.tp k).waiting then (.error,s)
  else
    let s₁ := s.setTask t { s.task t with active := true, id := s.taskId, next := none }
    let s₂ := { s₁ with taskId := (s₁.taskId + 1)%2^64 }.append (.pool k) t
    let s₃ := s₂.setPool k { s₂.tp k with waiting := (s₂.tp k).waiting + 1 }
    (.ok,{ s₃ with history := { s.history with
      posts := Function.update s.history.posts k (s.history.posts k ++ [t])
      job := Function.update s.history.job t (k,(s.history.posts k).length) } })

def setWorker (s : Process κ τ) (i : ℕ) (w : Worker κ τ) : Process κ τ :=
  { s with workers := s.workers.set i w }

/-- `tp->waiting--` at the beginning of a round. -/
def decrement (s : Process κ τ) (i : ℕ) (w : Worker κ τ) : Process κ τ :=
  (s.setPool w.pool { s.tp w.pool with waiting := (s.tp w.pool).waiting - 1 }).setWorker i
    { w with phase := .decremented }

/-- The rest of the section, when the queue is not empty. -/
def pop (s : Process κ τ) (i : ℕ) (w : Worker κ τ) (t : τ) : Process κ τ :=
  let name := QueueName.pool w.pool
  let s₁ := s.setQueue name { s.queue name with first := (s.task t).next }
  let s₂ := if (s₁.queue name).first = none then
      s₁.setQueue name { s₁.queue name with last := .root name } else s₁
  { s₂.setWorker i { w with phase := .popped t } with history := { s.history with
    pops := Function.update s.history.pops w.pool (s.history.pops w.pool ++ [t]) } }

/-- `task->handler(task->ctx, tp->log)`. -/
def run (s : Process κ τ) (i : ℕ) (w : Worker κ τ) (t : τ) : Process κ τ :=
  { s.setWorker i { w with phase := .ran t } with history := { s.history with
    runs := s.history.runs ++ [(i,s.history.job t)] } }

/-- The task is added to the finished ones. -/
def finish (s : Process κ τ) (i : ℕ) (w : Worker κ τ) (t : τ) : Process κ τ :=
  let s₁ := (s.setTask t { s.task t with next := none }).append .done t
  { s₁.setWorker i { w with phase := .start } with history := { s.history with
    dones := s.history.dones ++ [s.history.job t] } }

/-- The section of `ngx_thread_pool_handler`. -/
def drain (s : Process κ τ) : Process κ τ :=
  { s with drained := s.done.first, done := queueInit .done }

/-- One round of the loop of `ngx_thread_pool_handler`, up to the call of `event->handler`. -/
def deliver (s : Process κ τ) (t : τ) : Process κ τ :=
  let s₁ := { s with drained := (s.task t).next }
  { s₁.setTask t { s.task t with complete := true, active := false } with history := { s.history with
    calls := s.history.calls ++ [s.history.job t] } }

end Process

/-- A step of the process: some thread posts a task, a worker goes on, or the event loop calls
`ngx_thread_pool_handler` or goes on in it. Posts of one task do not overlap. -/
inductive Action (κ τ : Type)
  | post (tp : κ) (task : τ)
  | work (worker : ℕ)
  | drain
  | deliver
  deriving DecidableEq, Repr

/-- The next step of worker `i`; `none` while it waits for a task. -/
def Process.work (s : Process κ τ) (i : ℕ) : Option (Process κ τ) :=
  s.workers[i]?.bind fun w =>
    match w.phase with
    | .start => some (s.decrement i w)
    | .decremented => (s.tp w.pool).queue.first.map fun t => s.pop i w t
    | .popped t => some (s.run i w t)
    | .ran t => some (s.finish i w t)

def Process.step (s : Process κ τ) : Action κ τ → Option (Process κ τ)
  | .post k t => some (s.taskPost k t).2
  | .work i => s.work i
  | .drain => if s.drained = none then some s.drain else none
  | .deliver => s.drained.map s.deliver

/-- The runs of a process from the start of its workers on. -/
def posting (κ τ : Type) [DecidableEq κ] [DecidableEq τ] : TransitionSystem (Process κ τ) (Action κ τ) :=
  .ofFunction (fun s => (∀ t, (s.task t).active = false) ∧
      (∀ k, (s.tp k).queue = queueInit (.pool k) ∧ (s.tp k).waiting = 0) ∧ s.done = queueInit .done ∧
      (∀ w ∈ s.workers, w.phase = .start) ∧ s.drained = none ∧
      (∀ k, s.history.posts k = [] ∧ s.history.pops k = []) ∧ s.history.runs = [] ∧
      s.history.dones = [] ∧ s.history.calls = [])
    Process.step

end InsideNginx.ThreadPool
