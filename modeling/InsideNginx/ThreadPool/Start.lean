import InsideNginx.Cycle.OldCycles
import InsideNginx.ThreadPool.Configuration

/-! The start of the thread pools in a process: the main thread creates the workers one after another, and
those that it has created go on meanwhile. Nobody posts a task yet. -/
namespace InsideNginx.ThreadPool
open InsideNginx.Cycle InsideNginx.ThreadPool.Process
variable {κ τ : Type} [DecidableEq κ] [DecidableEq τ]

/-- `NGX_PROCESS_WORKER`. -/
def processWorker : ℕ := 3

/-- What the calls in `ngx_thread_pool_init` find: `ngx_notify`, the two creations, the two calls for the
attributes, and `pthread_create`. -/
structure InitAnswers where
  notify : Bool
  mutex : Bool
  cond : Bool
  attrInit : Bool
  detached : Bool
  thread : Bool
  deriving DecidableEq, Repr

/-- Where the main thread is: before `ngx_thread_pool_init_worker`, before its next pool, in the loop of
`ngx_thread_pool_init`, or past it all. -/
inductive StartStage (κ : Type)
  | entry
  | pools (rest : List κ)
  | create (tp : κ) (n : ℕ) (rest : List κ)
  | returned (rc : Rc)
  deriving DecidableEq, Repr

structure Starting (κ τ : Type) where
  process : Process κ τ
  stage : StartStage κ

inductive StartAction
  | main (answers : InitAnswers)
  | work (worker : ℕ)
  deriving DecidableEq, Repr

namespace Starting
section
variable (role : ℕ) (order : List κ) (threads : κ → ℕ)

/-- The main thread goes on; `role` is `ngx_process`, and `order` the array of the pools. -/
def mainStep (s : Starting κ τ) (answers : InitAnswers) : Option (Starting κ τ) :=
  match s.stage with
  | .entry =>
    if role ≠ processWorker ∧ role ≠ processSingle then some { s with stage := .returned .ok }
    else some { process := { s.process with done := queueInit .done }, stage := .pools order }
  | .pools [] => some { s with stage := .returned .ok }
  | .pools (k::rest) =>
    if !answers.notify then some { s with stage := .returned .error }
    else
      let p := s.process.setPool k { s.process.tp k with queue := queueInit (.pool k) }
      if !answers.mutex || !answers.cond || !answers.attrInit || !answers.detached then
        some { process := p, stage := .returned .error }
      else some { process := p, stage := .create k 0 rest }
  | .create k n rest =>
    if n < threads k then
      if answers.thread then some {
        process := { s.process with workers := s.process.workers ++ [⟨k,.start⟩] }
        stage := .create k (n+1) rest }
      else some { s with stage := .returned .error }
    else some { s with stage := .pools rest }
  | .returned _ => none

def step (s : Starting κ τ) : StartAction → Option (Starting κ τ)
  | .main answers => s.mainStep role order threads answers
  | .work i => (s.process.work i).map fun p => { s with process := p }

/-- The pools that are still to be initialized. -/
def untouched : StartStage κ → List κ
  | .entry => order
  | .pools rest | .create _ _ rest => rest
  | .returned _ => []

/-- The workers of a list of pools, in the order of their creation. -/
def crews (pools : List κ) : List (Worker κ τ) :=
  pools.flatMap fun k => List.replicate (threads k) ⟨k,.start⟩

/-- The workers that are still to be created. -/
def ahead : StartStage κ → List (Worker κ τ)
  | .entry => crews threads order
  | .pools rest => crews threads rest
  | .create k n rest => List.replicate (threads k - n) ⟨k,.start⟩ ++ crews threads rest
  | .returned _ => []

/-- The process as if all were created and initialized at once. -/
def eventual (s : Starting κ τ) : Process κ τ :=
  { s.process with
    tp := fun k => if k ∈ untouched order s.stage then { s.process.tp k with queue := queueInit (.pool k) } else s.process.tp k
    done := if s.stage = .entry then queueInit .done else s.process.done
    workers := s.process.workers ++ ahead order threads s.stage }

/-- The invariant of the start. -/
structure Underway (maxQueue : κ → ℤ) (s : Starting κ τ) : Prop where
  reach : (posting κ τ).Reachable (s.eventual order threads)
  crew : (s.eventual order threads).workers.map Worker.pool = (crews (τ := τ) threads order).map Worker.pool
  maxQueue : ∀ k, (s.process.tp k).maxQueue = maxQueue k
  workers : ∀ w ∈ s.process.workers, (w.phase = .start ∨ w.phase = .decremented) ∧ w.pool ∉ untouched order s.stage
  queues : ∀ k ∉ untouched order s.stage, (s.process.tp k).queue = queueInit (.pool k)
  nodup : (untouched order s.stage).Nodup
  current : ∀ k n rest, s.stage = .create k n rest → k ∉ rest

end
end Starting

/-- The start of the workers, from the pools that the configuration has left. -/
def starting (role : ℕ) (order : List κ) (threads : κ → ℕ) (maxQueue : κ → ℤ) :
    TransitionSystem (Starting κ τ) StartAction :=
  .ofFunction (fun s => s.stage = .entry ∧ (∀ t, (s.process.task t).active = false) ∧
      (∀ k, (s.process.tp k).waiting = 0 ∧ (s.process.tp k).maxQueue = maxQueue k) ∧ s.process.workers = [] ∧
      s.process.drained = none ∧ (∀ k, s.process.history.posts k = [] ∧ s.process.history.pops k = []) ∧
      s.process.history.runs = [] ∧ s.process.history.dones = [] ∧ s.process.history.calls = [])
    (Starting.step role order threads)

namespace Starting
variable {role : ℕ} {order : List κ} {threads : κ → ℕ} {maxQueue : κ → ℤ} {s s' : Starting κ τ}

theorem underway_init (hall : ∀ k, k ∈ order) (hnodup : order.Nodup) (h : (starting role order threads maxQueue).init s) :
    s.Underway order threads maxQueue := by
  obtain ⟨hstage,hactive,hpools,hworkers,hdrained,hlogs,hruns,hdones,hcalls⟩ := h
  refine ⟨.init ⟨hactive,fun k => ?_,?_,fun w hw => ?_,hdrained,hlogs,hruns,hdones,hcalls⟩,?_,fun k => (hpools k).2,
    ?_,fun k hk => ?_,?_,fun k n rest hcreate => ?_⟩
  · simp [eventual,hstage,untouched,hall,hpools]
  · simp [eventual,hstage]
  · simp only [eventual,hstage,hworkers,ahead,List.nil_append,crews,List.mem_flatMap,List.mem_replicate] at hw
    obtain ⟨k,-,-,rfl⟩ := hw
    rfl
  · simp [eventual,hstage,hworkers,ahead]
  · simp [hworkers]
  · rw [hstage] at hk
    exact absurd (hall k) hk
  · rw [hstage]
    exact hnodup
  · rw [hstage] at hcreate
    cases hcreate

section
omit [DecidableEq τ]
variable {k : κ} {n : ℕ} {rest : List κ}

theorem eventual_initialize (order : List κ) (threads : κ → ℕ) (p : Process κ τ) (hk : k ∉ rest) :
    eventual order threads ⟨p.setPool k { p.tp k with queue := queueInit (.pool k) },.create k 0 rest⟩ =
      eventual order threads ⟨p,.pools (k::rest)⟩ := by
  simp only [eventual,untouched,ahead,setPool,Nat.sub_zero,crews,List.flatMap_cons,reduceCtorEq,if_false]
  congr 1
  funext k'
  by_cases hk' : k' = k
  · subst hk'
    simp [hk]
  · simp [hk']

theorem eventual_create (order rest : List κ) (p : Process κ τ) (hn : n < threads k) :
    eventual order threads ⟨{ p with workers := p.workers ++ [⟨k,.start⟩] },.create k (n+1) rest⟩ =
      eventual order threads ⟨p,.create k n rest⟩ := by
  simp only [eventual,untouched,ahead,reduceCtorEq,if_false]
  rw [show threads k - n = threads k - (n+1) + 1 by omega,List.replicate_succ]
  simp only [List.append_assoc,List.cons_append,List.nil_append]
  rfl

theorem eventual_next (order rest : List κ) (p : Process κ τ) (hn : ¬n < threads k) :
    eventual order threads ⟨p,.pools rest⟩ = eventual order threads ⟨p,.create k n rest⟩ := by
  simp only [eventual,untouched,ahead,reduceCtorEq,if_false]
  rw [show threads k - n = 0 by omega]
  rfl

end

section
variable {p : Process κ τ} {k : κ} {n : ℕ} {rest : List κ}

theorem Underway.initialize (h : Underway order threads maxQueue ⟨p,.pools (k::rest)⟩) :
    Underway order threads maxQueue
      ⟨p.setPool k { p.tp k with queue := queueInit (.pool k) },.create k 0 rest⟩ := by
  obtain ⟨hk,hrest⟩ := List.nodup_cons.mp h.nodup
  have heq := eventual_initialize order threads p hk
  refine ⟨heq ▸ h.reach,heq ▸ h.crew,fun k' => ?_,fun w hw => ?_,fun k' hk' => ?_,hrest,?_⟩
  · by_cases hk' : k' = k
    · subst hk'
      simpa [setPool] using h.maxQueue k'
    · simpa [setPool,hk'] using h.maxQueue k'
  · obtain ⟨hphase,hpool⟩ := h.workers w hw
    exact ⟨hphase,fun hmem => hpool (List.mem_cons_of_mem _ hmem)⟩
  · by_cases hkk : k' = k
    · subst hkk
      simp [setPool]
    · have hnot : k' ∉ untouched order (.pools (k::rest)) := fun hmem =>
        hk' ((List.mem_cons.mp hmem).resolve_left hkk)
      simpa [setPool,hkk] using h.queues k' hnot
  · intro k' n rest' hcreate
    cases hcreate
    exact hk

theorem Underway.create (h : Underway order threads maxQueue ⟨p,.create k n rest⟩) (hn : n < threads k) :
    Underway order threads maxQueue ⟨{ p with workers := p.workers ++ [⟨k,.start⟩] },.create k (n+1) rest⟩ := by
  have hk := h.current k n rest rfl
  have heq := eventual_create order rest p hn
  refine ⟨heq ▸ h.reach,heq ▸ h.crew,h.maxQueue,fun w hw => ?_,h.queues,h.nodup,?_⟩
  · rcases List.mem_append.mp hw with hw | hw
    · exact h.workers w hw
    · obtain rfl := List.mem_singleton.mp hw
      exact ⟨.inl rfl,hk⟩
  · intro k' n' rest' hcreate
    cases hcreate
    exact hk

end

/-- The main thread goes on without a failure. -/
theorem Underway.main (h : s.Underway order threads maxQueue) {answers : InitAnswers}
    (hstep : s.mainStep role order threads answers = some s') :
    s'.stage = .returned .error ∨ s'.stage = .returned .ok ∧ s.stage = .entry ∨ s'.Underway order threads maxQueue := by
  obtain ⟨p,stage⟩ := s
  cases stage with
  | entry =>
    simp only [mainStep] at hstep
    split at hstep
    · cases hstep
      exact .inr (.inl ⟨rfl,rfl⟩)
    · cases hstep
      exact .inr (.inr ⟨h.reach,h.crew,h.maxQueue,h.workers,h.queues,h.nodup,fun _ _ _ hcreate => by cases hcreate⟩)
  | pools rest =>
    cases rest with
    | nil =>
      cases hstep
      exact .inr (.inr ⟨h.reach,h.crew,h.maxQueue,h.workers,h.queues,h.nodup,fun _ _ _ hcreate => by cases hcreate⟩)
    | cons k rest =>
      simp only [mainStep] at hstep
      split at hstep
      · cases hstep
        exact .inl rfl
      split at hstep
      · cases hstep
        exact .inl rfl
      cases hstep
      exact .inr (.inr h.initialize)
  | create k n rest =>
    simp only [mainStep] at hstep
    split at hstep
    · rename_i hn
      split at hstep
      · cases hstep
        exact .inr (.inr (h.create hn))
      · cases hstep
        exact .inl rfl
    · rename_i hn
      cases hstep
      have heq := eventual_next order rest p hn
      exact .inr (.inr ⟨heq ▸ h.reach,heq ▸ h.crew,h.maxQueue,h.workers,h.queues,h.nodup,
        fun _ _ _ hcreate => by cases hcreate⟩)
  | returned rc => cases hstep

/-- A worker goes on: no task is there, so it can only decrement. -/
theorem Underway.work (h : s.Underway order threads maxQueue) {i : ℕ} {p : Process κ τ}
    (hstep : s.process.work i = some p) : Underway order threads maxQueue ⟨p,s.stage⟩ := by
  obtain ⟨w,hi,hwork⟩ := Option.bind_eq_some_iff.mp hstep
  obtain ⟨hphase,hpool⟩ := h.workers w (List.mem_of_getElem? hi)
  have hlt := (List.getElem?_eq_some_iff.mp hi).1
  rcases hphase with hw | hw
  · rw [hw] at hwork
    cases hwork
    -- the step is one of the whole process
    have heq : (s.eventual order threads).step (.work i) =
        some (eventual order threads ⟨s.process.decrement i w,s.stage⟩) := by
      have hget : (s.eventual order threads).workers[i]? = some w := by
        simp only [eventual]
        rw [List.getElem?_append_left hlt]
        exact hi
      simp only [Process.step,Process.work,hget,Option.bind_some,hw,Option.some.injEq]
      simp only [eventual,decrement,setPool,setWorker,List.set_append_left _ _ hlt]
      congr 1
      funext k
      by_cases hk : k = w.pool
      · subst hk
        simp [hpool]
      · simp [hk]
    have hpools := pools_step heq
    refine ⟨.step h.reach heq,hpools.trans h.crew,fun k => ?_,fun w' hw' => ?_,fun k hk => ?_,h.nodup,h.current⟩
    · by_cases hk : k = w.pool
      · subst hk
        simpa [decrement,setPool,setWorker] using h.maxQueue w.pool
      · simpa [decrement,setPool,setWorker,hk] using h.maxQueue k
    · rcases List.mem_or_eq_of_mem_set hw' with hw' | rfl
      · exact h.workers w' hw'
      · exact ⟨.inr rfl,hpool⟩
    · by_cases hkk : k = w.pool
      · subst hkk
        simpa [decrement,setPool,setWorker] using h.queues w.pool hk
      · simpa [decrement,setPool,setWorker,hkk] using h.queues k hk
  · rw [hw] at hwork
    have hempty := h.queues w.pool hpool
    rw [hempty] at hwork
    cases hwork

theorem reachable_underway (hall : ∀ k, k ∈ order) (hnodup : order.Nodup)
    (hrole : role = processWorker ∨ role = processSingle) (h : (starting role order threads maxQueue).Reachable s) :
    s.stage = .returned .error ∨ s.Underway order threads maxQueue := by
  refine h.invariant (I := fun s => s.stage = .returned .error ∨ s.Underway order threads maxQueue)
    (fun s hinit => .inr (underway_init hall hnodup hinit)) ?_
  intro s a s' hreach ih (hstep : s.step role order threads a = some s')
  cases a with
  | main answers =>
    have hstep : s.mainStep role order threads answers = some s' := hstep
    rcases ih with herror | hs
    · rw [mainStep,herror] at hstep
      cases hstep
    · rcases hs.main hstep with herror | ⟨hok,hentry⟩ | hs'
      · exact .inl herror
      · -- only another role returns from the entry
        rw [mainStep,hentry,if_neg (by omega)] at hstep
        cases hstep
        cases hok
      · exact .inr hs'
  | work i =>
    obtain ⟨p,hwork,rfl⟩ := Option.map_eq_some_iff.mp hstep
    exact ih.imp id fun hs => hs.work hwork

end Starting

section
omit [DecidableEq τ]

/-- The number of workers of a pool. -/
theorem card_crew (s : Process κ τ) (k : κ) : (s.crew k).card = (s.workers.map Worker.pool).count k := by
  have hgeneral : ∀ ws : List (Worker κ τ), ((Finset.range ws.length).filter fun i : ℕ =>
      ws[i]?.map Worker.pool = some k).card = (ws.map Worker.pool).count k := by
    intro ws
    induction ws using List.reverseRecOn with
    | nil => rfl
    | append_singleton ws w ih =>
      have hold : ((Finset.range ws.length).filter fun i : ℕ => (ws ++ [w])[i]?.map Worker.pool = some k) =
          (Finset.range ws.length).filter fun i : ℕ => ws[i]?.map Worker.pool = some k :=
        Finset.filter_congr fun i hi => by rw [List.getElem?_append_left (Finset.mem_range.mp hi)]
      rw [List.length_append,List.length_singleton,Finset.range_add_one,Finset.filter_insert,hold,List.map_append,
        List.count_append,← ih]
      by_cases hw : w.pool = k
      · rw [if_pos (by simp [hw]),Finset.card_insert_of_notMem (by simp)]
        simp [hw]
      · rw [if_neg (by simp [hw])]
        simp [hw]
  exact hgeneral s.workers

theorem count_crews (threads : κ → ℕ) {order : List κ} (hnodup : order.Nodup) (k : κ) :
    ((Starting.crews (τ := τ) threads order).map Worker.pool).count k = if k ∈ order then threads k else 0 := by
  induction order with
  | nil => rfl
  | cons k' order ih =>
    obtain ⟨hk,hrest⟩ := List.nodup_cons.mp hnodup
    rw [Starting.crews,List.flatMap_cons,List.map_append,List.count_append,← Starting.crews,ih hrest,List.map_replicate,
      List.count_replicate]
    by_cases hkk : k' = k
    · subst hkk
      simp [hk]
    · simp [hkk,Ne.symm hkk]

end

/-- The worker processes start with the pools that the configuration describes: when
`ngx_thread_pool_init_worker` has succeeded, however far its first workers have come meanwhile, the process is
in a state that the runs of `posting` reach, each pool has its `threads` workers and its `max_queue`; and from any
later state, the destruction of all pools can begin. -/
theorem pools_started (atoi : Str → Option ℕ) (ds : List Directive) {pools : List PoolConf}
    (hpools : configure atoi ds = .ok pools) {role : ℕ} (hrole : role = processWorker ∨ role = processSingle)
    {s : Starting (Fin pools.length) τ}
    (h : (starting role (List.finRange pools.length) (fun k => (pools.get k).threads) fun k => (pools.get k).maxQueue).Reachable s)
    (hdone : s.stage = .returned .ok) :
    (posting (Fin pools.length) τ).Reachable s.process ∧
    (∀ k : Fin pools.length, settled atoi ds (pools.get k).name = some ((s.process.crew k).card,(s.process.tp k).maxQueue) ∧
      (s.process.crew k).card ≠ 0) ∧
    ∀ moves p, (posting (Fin pools.length) τ).Run s.process moves p → ∀ e lock, (p.task e).active = false →
      (shutting (fun k => (pools.get k).threads) e).init
        ⟨p,List.finRange pools.length,.exitWorker,lock,∅,[],fun k => (p.history.posts k).length⟩ := by
  have hconf := Configured.of_configure hpools
  have hnodup := List.nodup_finRange pools.length
  rcases Starting.reachable_underway List.mem_finRange hnodup hrole h with herror | hs
  · rw [hdone] at herror
    cases herror
  -- nothing is ahead
  have heq : s.eventual (List.finRange pools.length) (fun k => (pools.get k).threads) = s.process := by
    simp [Starting.eventual,hdone,Starting.untouched,Starting.ahead]
  have hreach := hs.reach
  have hcrew := hs.crew
  rw [heq] at hreach hcrew
  have hcard : ∀ k : Fin pools.length, (s.process.crew k).card = (pools.get k).threads := by
    intro k
    rw [card_crew,hcrew,count_crews _ hnodup,if_pos (List.mem_finRange k)]
  refine ⟨hreach,fun k => ?_,fun moves p hrun e lock hactive => ?_⟩
  · have hmem : pools.get k ∈ pools := List.get_mem pools k
    rw [hcard,hs.maxQueue]
    exact ⟨hconf.settings _ hmem,hconf.positive _ hmem⟩
  · have hlast : p.workers.map Worker.pool = s.process.workers.map Worker.pool := by
      refine hrun.invariant (I := fun p => p.workers.map Worker.pool = s.process.workers.map Worker.pool)
        (P := fun _ => True) (fun m _ hstep ih => ?_) (fun _ _ => trivial) rfl
      exact (pools_step hstep).trans ih
    refine ⟨hrun.reachable hreach,hactive,hnodup,rfl,rfl,rfl,fun _ => rfl,fun k => ⟨?_,?_⟩⟩
    · exact Nat.one_le_iff_ne_zero.mpr (hconf.positive _ (List.get_mem pools k))
    · exact (congrArg Finset.card (crew_congr hlast k)).trans (hcard k) |>.le

/-- The pools of `twoPools` before the start. -/
def twoStart : Starting (Fin 2) ℕ :=
  ⟨⟨fun _ => ⟨none,0,false,false⟩,fun k => ⟨queueInit .done,0,![65536,5] k⟩,queueInit .done,0,[],none,
    ⟨fun _ => [],fun _ => [],fun _ => (0,0),[],[],[]⟩⟩,.entry⟩

/-- The first worker of the second pool goes on before the second one is there. -/
def twoStartActions : List StartAction :=
  let main := StartAction.main ⟨true,true,true,true,true,true⟩
  List.replicate 37 main ++ [.work 32] ++ List.replicate 3 main

theorem pools_started_two : ∃ s : Starting (Fin 2) ℕ, s.stage = .returned .ok ∧ (posting (Fin 2) ℕ).Reachable s.process ∧
    settled decimal twoPools (ascii "aio") = some ((s.process.crew 1).card,(s.process.tp 1).maxQueue) ∧
    (s.process.tp 1).waiting = -1 := by
  let pools : List PoolConf :=
    [⟨threadPoolDefault,32,65536,ascii "nginx.conf",3⟩,⟨ascii "aio",2,5,ascii "nginx.conf",4⟩]
  have hpools : configure decimal twoPools = .ok pools := by decide +kernel
  have hrun : (TransitionSystem.replay (Starting.step processWorker (List.finRange 2) ![32,2]) twoStart twoStartActions).map
      (fun s => (s.stage,(s.process.tp 1).waiting)) = some (.returned .ok,-1) := by decide +kernel
  obtain ⟨s,hs,heq⟩ := Option.map_eq_some_iff.mp hrun
  obtain ⟨hdone,hwaiting⟩ := Prod.mk.inj heq
  have hthreads : (fun k : Fin 2 => (pools.get k).threads) = ![32,2] := by decide
  have hinit : (starting processWorker (List.finRange 2) (fun k => (pools.get k).threads) fun k => (pools.get k).maxQueue).init
      twoStart := by
    refine ⟨rfl,fun _ => rfl,fun k => ⟨rfl,?_⟩,rfl,rfl,fun _ => ⟨rfl,rfl⟩,rfl,rfl,rfl⟩
    fin_cases k <;> rfl
  rw [← hthreads] at hs
  obtain ⟨hreach,hcrews,-⟩ := pools_started decimal twoPools hpools (.inl rfl)
    (TransitionSystem.Reachable.of_replay (.init hinit) hs) hdone
  exact ⟨s,hdone,hreach,(hcrews 1).1,hwaiting⟩

end InsideNginx.ThreadPool
