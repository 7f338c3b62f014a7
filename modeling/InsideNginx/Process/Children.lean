import InsideNginx.General.TransitionSystem
import InsideNginx.Process.Table

/-! Runs of spawning, collecting and reaping, and which entry each child has in them. -/
namespace InsideNginx.Process

/-- The children that have been forked and not been waited for, each with its slot. -/
def childrenOf (log : List Event) : ℤ → Option ℕ :=
  log.foldl (fun children event =>
    match event with
    | .forked i pid => Function.update children pid (some i)
    | .waited pid => Function.update children pid none
    | _ => children) fun _ => none

/-- The master sleeps or makes other calls, or is in `ngx_reap_children` at a slot. -/
inductive Phase
  | asleep
  | reaping (i : ℕ) (ch : Channel) (live : Bool)
  deriving DecidableEq, Repr

/-- The slot that `ngx_reap_children` is at. -/
def Phase.slot? : Phase → Option ℕ
  | .asleep => none
  | .reaping i _ _ => some i

structure Run where
  master : Master
  phase : Phase

/-- A call of `ngx_spawn_process`, the exit of a child that `ngx_process_get_status` collects, what
other code does to the flags, and `ngx_reap_children`, slot by slot. The result of a call that a
step does not make is left open. -/
inductive Action
  | spawn (mode : Respawn) (o : Outcome)
  | exit (pid : ℤ) (status : BitVec 32)
  | flags (flags : Flags) (exiting justSpawn : ℕ → Bool)
  | reap
  | slot (o : Outcome)
  | reaped

namespace Run

def children (s : Run) : ℤ → Option ℕ := childrenOf s.master.log

def run (s : Run) : Action → Except Fault Run
  | .spawn mode o => do
    let (master,_) ← s.master.spawnProcess mode o
    return ⟨master,s.phase⟩
  | .exit pid status => do
    let master ← s.master.processGetStatus [.child pid status]
    return ⟨master,s.phase⟩
  | .flags flags exiting justSpawn => .ok
      ⟨{ s.master with
          flags := flags
          processes := fun i => { s.master.processes i with exiting := exiting i, justSpawn := justSpawn i } },
        s.phase⟩
  | .reap => .ok ⟨s.master,.reaping 0 ⟨.closeChannel,0,0,-1⟩ false⟩
  | .slot o =>
    match s.phase with
    | .asleep => .ok s
    | .reaping i ch live => do
      let r ← Reaping.slot ⟨s.master,ch,live⟩ i o
      return ⟨r.master,.reaping (i + 1) r.ch r.live⟩
  | .reaped => .ok ⟨s.master,.asleep⟩

/-- `fork` never returns the pid of a child that has not been waited for. -/
def NewPid (s : Run) (o : Outcome) : Prop := ∀ pid ∈ o.pid?, s.children pid = none

/-- When a step may be made. -/
def Allowed (s : Run) : Action → Prop
  | .spawn mode o => s.phase.slot? = none ∧ mode.isSlot = false ∧ s.NewPid o
  | .exit pid _ => s.phase.slot? = none ∧ (s.children pid).isSome
  | .flags _ _ _ | .reap => s.phase.slot? = none
  | .slot o => (∃ i ∈ s.phase.slot?, i < s.master.lastProcess) ∧ s.NewPid o
  | .reaped => ∃ i ∈ s.phase.slot?, s.master.lastProcess ≤ i

instance (s : Run) (o : Outcome) : Decidable (s.NewPid o) :=
  inferInstanceAs (Decidable (∀ pid ∈ o.pid?, s.children pid = none))

instance (s : Run) (a : Action) : Decidable (s.Allowed a) :=
  match a with
  | .spawn mode o => inferInstanceAs (Decidable (s.phase.slot? = none ∧ mode.isSlot = false ∧ s.NewPid o))
  | .exit pid _ => inferInstanceAs (Decidable (s.phase.slot? = none ∧ (s.children pid).isSome))
  | .flags _ _ _ | .reap => inferInstanceAs (Decidable (s.phase.slot? = none))
  | .slot o => inferInstanceAs (Decidable ((∃ i ∈ s.phase.slot?, i < s.master.lastProcess) ∧ s.NewPid o))
  | .reaped => inferInstanceAs (Decidable (∃ i ∈ s.phase.slot?, s.master.lastProcess ≤ i))

/-- A step; `none` when it may not be made, or leaves the defined behaviour of C. -/
def step (s : Run) (a : Action) : Option Run := if s.Allowed a then (s.run a).toOption else none

/-- The slot that a step may fork a child for. -/
def target (s : Run) : Action → ℕ
  | .spawn mode _ => s.master.spawnSlot mode
  | _ => s.phase.slot?.getD 0

/-- The result of `fork` in a step. -/
def fork : Action → Option ℤ
  | .spawn _ o | .slot o => o.pid?
  | _ => none

/-- `fork` does not return a pid that a smaller slot still holds. -/
def Unheld (s : Run) (a : Action) : Prop :=
  ∀ pid ∈ fork a, ∀ j < s.target a, (s.master.processes j).pid ≠ pid

instance (s : Run) (a : Action) : Decidable (s.Unheld a) :=
  inferInstanceAs (Decidable (∀ pid ∈ fork a, ∀ j < s.target a, (s.master.processes j).pid ≠ pid))

end Run

/-- The runs from an empty table on. -/
def mastering : TransitionSystem Run Action :=
  .ofFunction (fun s => s.master.lastProcess = 0 ∧ s.children = (fun _ => none) ∧ s.phase = .asleep) Run.step

/-- The loop of `ngx_reap_children` is a run of the steps for its slots. -/
theorem reaping_run {o : ℕ → Outcome} {n i : ℕ} {r r' : Reaping} (h : Reaping.slots o n i r = .ok r') :
    ∃ k, (List.range' i k).foldlM (fun s j => Run.run s (.slot (o j))) ⟨r.master,.reaping i r.ch r.live⟩ =
      .ok ⟨r'.master,.reaping (i + k) r'.ch r'.live⟩ ∧ (k = n ∨ r'.master.lastProcess ≤ i + k) := by
  induction n generalizing i r with
  | zero =>
    cases h
    exact ⟨0,rfl,.inl rfl⟩
  | succ n ih =>
    unfold Reaping.slots at h
    split at h
    · obtain ⟨r₁,hslot,hrest⟩ := bind_ok h
      obtain ⟨k,hk,hend⟩ := ih hrest
      refine ⟨k + 1,?_,?_⟩
      · rw [List.range'_succ,List.foldlM_cons,Run.run]
        simp only [hslot,bind,Except.bind,pure,Except.pure]
        rw [hk,Nat.add_right_comm,Nat.add_assoc]
      · omega
    · rename_i hi
      cases h
      exact ⟨0,rfl,.inr (not_lt.mp hi)⟩

/-! ### The children along the log -/

theorem childrenOf_forked (log : List Event) (e : Event) (i : ℕ) (pid : ℤ) :
    childrenOf (log ++ [e,.forked i pid]) = Function.update (childrenOf (log ++ [e])) pid (some i) := by
  simp [childrenOf]

theorem childrenOf_waited (log : List Event) (pid : ℤ) :
    childrenOf (log ++ [.waited pid]) = Function.update (childrenOf log) pid none := by simp [childrenOf]

/-- An event without a birth or an end of a child. -/
def Event.Childless : Event → Prop
  | .forked _ _ | .waited _ => False
  | _ => True

theorem childrenOf_childless (log : List Event) {events : List Event} (h : ∀ e ∈ events, e.Childless) :
    childrenOf (log ++ events) = childrenOf log := by
  induction events using List.reverseRecOn with
  | nil => simp
  | append_singleton events e ih =>
    have hlast := h e (by simp)
    rw [← List.append_assoc,← ih fun e he => h e (List.mem_append_left _ he)]
    cases e <;> simp_all [childrenOf,Event.Childless]

theorem Event.Quiet.childless {e : Event} (h : e.Quiet) : e.Childless := by
  cases e <;> simp_all [Event.Quiet,Event.Childless]

/-! ### The invariant -/

namespace Master

/-- Every child has its entry, which no entry before it has the pid of, and no other entry below
`ngx_last_process` is in use and not marked as exited. -/
structure Tracks (s : Master) : Prop where
  lastProcess : s.lastProcess ≤ maxProcesses
  child : ∀ pid i, childrenOf s.log pid = some i → 0 < pid ∧ i < s.lastProcess ∧
    (s.processes i).pid = pid ∧ (s.processes i).exited = false ∧ ∀ j < i, (s.processes j).pid ≠ pid
  entry : ∀ j < s.lastProcess, (s.processes j).pid ≠ -1 → (s.processes j).exited = false →
    childrenOf s.log (s.processes j).pid = some j

variable {s s' : Master} {mode : Respawn} {o : Outcome} {i : ℕ}

/-- The invariant reads the pids, the flags `exited` and the children. -/
theorem Tracks.of_same (h : s.Tracks) (hpid : ∀ j, (s'.processes j).pid = (s.processes j).pid)
    (hexited : ∀ j, (s'.processes j).exited = (s.processes j).exited)
    (hlast : s'.lastProcess = s.lastProcess) (hlog : childrenOf s'.log = childrenOf s.log) : s'.Tracks := by
  refine ⟨hlast ▸ h.lastProcess,fun pid i hi => ?_,fun j hj hused hrun => ?_⟩
  · rw [hlog] at hi
    simpa only [hpid,hexited,hlast] using h.child pid i hi
  · rw [hpid] at hused
    rw [hexited] at hrun
    rw [hlast] at hj
    rw [hlog,hpid]
    exact h.entry j hj hused hrun

theorem Tracks.fails (h : s.Tracks) (hfails : SpawnFails s i s') : s'.Tracks := by
  obtain ⟨fd0,fd1,hself⟩ := hfails.self
  obtain ⟨events,hlog,hquiet⟩ := hfails.log
  refine h.of_same (fun j => ?_) (fun j => ?_) hfails.lastProcess ?_
  · by_cases hj : j = i
    · rw [hj,hself]
    · rw [hfails.other j hj]
  · by_cases hj : j = i
    · rw [hj,hself]
    · rw [hfails.other j hj]
  · rw [hlog,childrenOf_childless _ fun e he => (hquiet e he).childless]

theorem SpawnForks.pid_exited {pid : ℤ} {p : Entry} (h : SpawnForks s mode pid p s') :
    p.pid = pid ∧ p.exited = false := by
  obtain ⟨fd0,fd1,hp⟩ := h.entry
  rw [hp]
  cases mode <;> exact ⟨rfl,rfl⟩

theorem SpawnForks.children {pid : ℤ} {p : Entry} (h : SpawnForks s mode pid p s') :
    childrenOf s'.log = Function.update (childrenOf s.log) pid (some (s.spawnSlot mode)) := by
  rw [h.log,childrenOf_forked,childrenOf_childless _ (by simp [Event.Childless])]

/-- A slot is free for a new child when no child has it. -/
def Free (s : Master) (mode : Respawn) : Prop :=
  s.spawnSlot mode < s.lastProcess ∧
    ((s.processes (s.spawnSlot mode)).pid = -1 ∨ (s.processes (s.spawnSlot mode)).exited = true) ∨
  s.spawnSlot mode = s.lastProcess ∧ mode.isSlot = false

theorem Tracks.slot_ne (h : s.Tracks) (hfree : s.Free mode) {pid : ℤ}
    (hi : childrenOf s.log pid = some i) : i ≠ s.spawnSlot mode := by
  obtain ⟨hpos,hlt,hpid,hrun,-⟩ := h.child pid i hi
  rintro rfl
  rcases hfree with ⟨-,hfree | hfree⟩ | ⟨hfree,-⟩
  · omega
  · rw [hrun] at hfree
    exact Bool.false_ne_true hfree
  · omega

theorem SpawnForks.lastProcess_cases {pid : ℤ} {p : Entry} (h : SpawnForks s mode pid p s')
    (hfree : s.Free mode) : s.lastProcess ≤ s'.lastProcess ∧ s.spawnSlot mode < s'.lastProcess ∧
      ∀ j < s'.lastProcess, j ≠ s.spawnSlot mode → j < s.lastProcess := by
  rw [h.lastProcess]
  rcases hfree with ⟨hlt,-⟩ | ⟨heq,hmode⟩
  · rw [if_neg (by simp; omega)]
    exact ⟨le_rfl,hlt,fun j hj _ => hj⟩
  · rw [if_pos (by simp [hmode,heq])]
    exact ⟨by omega,by omega,fun j hj hne => by omega⟩

theorem Tracks.forks (h : s.Tracks) {pid : ℤ} {p : Entry} (hforks : SpawnForks s mode pid p s')
    (hfree : s.Free mode) (hpos : 0 < pid) (hnew : childrenOf s.log pid = none)
    (hunheld : ∀ j < s.spawnSlot mode, (s.processes j).pid ≠ pid) : s'.Tracks := by
  obtain ⟨hp,hrun⟩ := hforks.pid_exited
  obtain ⟨hle,hlt,hold⟩ := hforks.lastProcess_cases hfree
  refine ⟨?_,fun q i hi => ?_,fun j hj hused hexited => ?_⟩
  · have hrange := hforks.inRange
    have hlast := h.lastProcess
    rw [hforks.lastProcess]
    split <;> simp_all
  · rw [hforks.children] at hi
    rw [hforks.processes]
    by_cases hq : q = pid
    · subst hq
      rw [Function.update_self] at hi
      cases hi
      refine ⟨hpos,hlt,by simpa using hp,by simpa using hrun,fun j hj => ?_⟩
      rw [Function.update_of_ne hj.ne]
      exact hunheld j hj
    · rw [Function.update_of_ne hq] at hi
      have hne := h.slot_ne hfree hi
      obtain ⟨hqpos,hilt,hpid,hirun,hbefore⟩ := h.child q i hi
      rw [Function.update_of_ne hne]
      refine ⟨hqpos,by omega,hpid,hirun,fun j hj => ?_⟩
      by_cases hjs : j = s.spawnSlot mode
      · rw [hjs,Function.update_self,hp]
        exact Ne.symm hq
      · rw [Function.update_of_ne hjs]
        exact hbefore j hj
  · rw [hforks.children]
    rw [hforks.processes] at hused hexited ⊢
    by_cases hjs : j = s.spawnSlot mode
    · rw [hjs,Function.update_self,hp,Function.update_self]
    · rw [Function.update_of_ne hjs] at hused hexited ⊢
      have hj' := h.entry j (hold j hj hjs) hused hexited
      have hne : (s.processes j).pid ≠ pid := by
        intro heq
        rw [heq,hnew] at hj'
        cases hj'
      rw [Function.update_of_ne hne]
      exact hj'

theorem Tracks.spawnProcess (h : s.Tracks) {child : Option Child} (hspawn : s.spawnProcess mode o = .ok (s',child))
    (hfree : s.Free mode) (hnew : ∀ pid ∈ o.pid?, childrenOf s.log pid = none)
    (hunheld : ∀ pid ∈ o.pid?, ∀ j < s.spawnSlot mode, (s.processes j).pid ≠ pid) : s'.Tracks := by
  rcases spawnProcess_cases hspawn with ⟨-,-,hfails⟩ | ⟨pid,p,hforked,-,hforks⟩
  · exact h.fails hfails
  · obtain ⟨hfork,hpos⟩ := Outcome.pid_eq_some hforked
    exact h.forks hforks hfree hpos (hnew pid hfork) (hunheld pid hfork)

/-- The search for the pid of a child ends at its entry. -/
theorem Tracks.search_eq (h : s.Tracks) {pid : ℤ} (hi : childrenOf s.log pid = some i) :
    s.search pid = i := by
  obtain ⟨-,hlt,hpid,-,hbefore⟩ := h.child pid i hi
  obtain ⟨hnone,hend⟩ := s.search_cases pid
  rcases lt_trichotomy (s.search pid) i with hless | heq | hless
  · rcases hend with ⟨-,hfound⟩ | hlast
    · exact absurd hfound (hbefore _ hless)
    · omega
  · exact heq
  · exact absurd hpid (hnone i hless)

theorem Tracks.collect (h : s.Tracks) {pid : ℤ} (hi : childrenOf s.log pid = some i)
    (hcollected : Collected s pid s') : s'.Tracks := by
  have hsearch := h.search_eq hi
  obtain ⟨-,hlt,hpid,-,-⟩ := h.child pid i hi
  refine ⟨hcollected.lastProcess ▸ h.lastProcess,fun q k hk => ?_,fun j hj hused hrun => ?_⟩
  · rw [hcollected.log,childrenOf_waited] at hk
    have hq : q ≠ pid := by
      rintro rfl
      rw [Function.update_self] at hk
      cases hk
    rw [Function.update_of_ne hq] at hk
    obtain ⟨hqpos,hklt,hkpid,hkrun,hbefore⟩ := h.child q k hk
    have hki : k ≠ i := by
      rintro rfl
      exact hq (hkpid.symm.trans hpid)
    simp only [hcollected.samePid,hcollected.lastProcess]
    exact ⟨hqpos,hklt,hkpid,by rwa [hcollected.other k (hsearch ▸ hki)],hbefore⟩
  · rw [hcollected.lastProcess] at hj
    have hji : j ≠ i := by
      rintro rfl
      have hexited := hcollected.exited (hsearch ▸ hlt)
      rw [hsearch,hrun] at hexited
      exact Bool.false_ne_true hexited
    rw [hcollected.other j (hsearch ▸ hji)] at hused hrun ⊢
    have hj' := h.entry j hj hused hrun
    rw [hcollected.log,childrenOf_waited,Function.update_of_ne,hj']
    intro heq
    rw [heq,hi] at hj'
    exact hji (Option.some.inj hj').symm

end Master

namespace Reaping

variable {r r' : Reaping} {i : ℕ} {o : Outcome}

theorem passClose_children (r : Reaping) (i : ℕ) :
    childrenOf (r.passClose i).master.log = childrenOf r.master.log := by
  simp only [passClose,Master.closeChannel,Master.emit,Master.setChannel,Master.setEntry,List.append_assoc]
  refine childrenOf_childless _ fun e he => ?_
  simp only [List.mem_append,List.mem_cons,List.not_mem_nil,or_false,List.mem_map] at he
  rcases he with rfl | rfl | rfl | ⟨n,-,rfl⟩ <;> exact True.intro

theorem tracks_passClose (h : r.master.Tracks) (i : ℕ) : (r.passClose i).master.Tracks := by
  have hclosed := r.passClose_closed i
  refine h.of_same (fun j => ?_) (fun j => ?_) hclosed.lastProcess (r.passClose_children i)
  all_goals
    rw [hclosed.processes]
    by_cases hj : j = i
    · rw [hj,Function.update_self]
    · rw [Function.update_of_ne hj]

/-- A slot whose child has exited can be dropped. -/
theorem tracks_drop (h : r.master.Tracks) (hi : i < r.master.lastProcess)
    (hexited : (r.master.processes i).exited = true) : (r.drop i).master.Tracks := by
  obtain ⟨hcases,hlog,-,-⟩ := r.drop_cases i
  have hne : ∀ pid k, childrenOf r.master.log pid = some k → k ≠ i := by
    rintro pid k hk rfl
    obtain ⟨-,-,-,hrun,-⟩ := h.child pid k hk
    rw [hrun] at hexited
    exact Bool.false_ne_true hexited
  have hmax := h.lastProcess
  rcases hcases with ⟨hlast,hlast',hprocesses⟩ | ⟨-,hlast',hprocesses⟩
  · refine ⟨by omega,fun pid k hk => ?_,fun j hj hused hrun => ?_⟩
    · rw [hlog] at hk
      obtain ⟨hpos,hlt,hrest⟩ := h.child pid k hk
      have hki := hne pid k hk
      rw [hprocesses,hlast']
      exact ⟨hpos,by omega,hrest⟩
    · rw [hprocesses] at hused hrun ⊢
      rw [hlog]
      exact h.entry j (by omega) hused hrun
  · refine ⟨by omega,fun pid k hk => ?_,fun j hj hused hrun => ?_⟩
    · rw [hlog] at hk
      obtain ⟨hpos,hlt,hpid,hrun,hbefore⟩ := h.child pid k hk
      rw [hprocesses,hlast',Function.update_of_ne (hne pid k hk)]
      refine ⟨hpos,hlt,hpid,hrun,fun j hj => ?_⟩
      by_cases hji : j = i
      · rw [hji,Function.update_self]
        dsimp only
        omega
      · rw [Function.update_of_ne hji]
        exact hbefore j hj
    · have hji : j ≠ i := by
        rintro rfl
        rw [hprocesses,Function.update_self] at hused
        exact hused rfl
      rw [hprocesses,Function.update_of_ne hji] at hused hrun ⊢
      rw [hlog]
      exact h.entry j (hlast' ▸ hj) hused hrun

theorem children_openMessages (s : Master) (cause : Cause) (ch : Channel) :
    childrenOf (s.passOpenChannel cause ch).log = childrenOf s.log := by
  refine childrenOf_childless _ fun e he => ?_
  rcases List.mem_cons.mp he with rfl | he
  · exact True.intro
  · obtain ⟨n,-,rfl⟩ := List.mem_map.mp he
    exact True.intro

theorem tracks_slot (h : r.master.Tracks) (hslot : r.slot i o = .ok r') (hi : i < r.master.lastProcess)
    (hnew : ∀ pid ∈ o.pid?, childrenOf r.master.log pid = none)
    (hunheld : ∀ pid ∈ o.pid?, ∀ j < i, (r.master.processes j).pid ≠ pid) : r'.master.Tracks := by
  rcases slot_cases hslot with ⟨-,rfl⟩ | ⟨-,-,rfl⟩ | ⟨hused,hexited,r₁,hr₁,hcases⟩
  · exact h
  · exact h
  -- the messages leave everything that the invariant reads
  have hsame : r₁.master.Tracks ∧ (∀ j, (r₁.master.processes j).pid = (r.master.processes j).pid) ∧
      (r₁.master.processes i).exited = true ∧ r₁.master.lastProcess = r.master.lastProcess ∧
      childrenOf r₁.master.log = childrenOf r.master.log := by
    split at hr₁
    · subst hr₁
      exact ⟨h,fun _ => rfl,hexited,rfl,rfl⟩
    · subst hr₁
      have hclosed := r.passClose_closed i
      refine ⟨tracks_passClose h i,fun j => ?_,?_,hclosed.lastProcess,r.passClose_children i⟩
      · rw [hclosed.processes]
        by_cases hj : j = i
        · rw [hj,Function.update_self]
        · rw [Function.update_of_ne hj]
      · rw [hclosed.processes,Function.update_self]
        exact hexited
  obtain ⟨h₁,hpid,hexited₁,hlast,hchildren⟩ := hsame
  rcases hcases with ⟨-,hrespawn⟩ | ⟨-,rfl⟩
  · rcases respawn_cases hrespawn with ⟨-,s,hfails,rfl⟩ | ⟨pid,p,s,hforked,hforks,rfl⟩
    · exact h₁.fails hfails
    · obtain ⟨hfork,hpos⟩ := Outcome.pid_eq_some hforked
      have hs : s.Tracks := by
        refine h₁.forks hforks (.inl ⟨hlast ▸ hi,.inr hexited₁⟩) hpos (hchildren ▸ hnew pid hfork) fun j hj => ?_
        rw [hpid]
        exact hunheld pid hfork j hj
      exact hs.of_same (fun _ => rfl) (fun _ => rfl) rfl (children_openMessages s _ _)
  · exact tracks_drop h₁ (hlast ▸ hi) hexited₁

end Reaping

/-! ### The runs -/

namespace Master

variable {s : Master} {mode : Respawn}

/-- The slot that the search for a free one ends at. -/
theorem Tracks.free (h : s.Tracks) (hmode : mode.isSlot = false) :
    s.Free mode ∧ (s.spawnSlot mode < maxProcesses ∨ mode.isSlot = false ∧ s.spawnSlot mode = maxProcesses) := by
  have hslot : s.spawnSlot mode = s.search (-1) := by cases mode <;> simp_all [spawnSlot,Respawn.isSlot]
  have hlast := h.lastProcess
  unfold Free
  rw [hslot]
  rcases (s.search_cases (-1)).2 with ⟨hlt,hpid⟩ | heq
  · exact ⟨.inl ⟨hlt,.inl hpid⟩,.inl (by omega)⟩
  · refine ⟨.inr ⟨heq,hmode⟩,?_⟩
    rcases hlast.lt_or_eq with hlt | hmax
    · exact .inl (heq ▸ hlt)
    · exact .inr ⟨hmode,heq.trans hmax⟩

end Master

namespace Run

variable {s s' : Run} {a : Action}

theorem step_eq (h : s.step a = some s') : s.Allowed a ∧ s.run a = .ok s' := by
  unfold step at h
  rw [Option.ite_none_right_eq_some] at h
  exact ⟨h.1,toOption_ok h.2⟩

theorem slot_phase {i : ℕ} (h : i ∈ s.phase.slot?) : ∃ ch live, s.phase = .reaping i ch live := by
  cases hphase : s.phase with
  | asleep =>
    rw [hphase] at h
    cases h
  | reaping j ch live =>
    rw [hphase] at h
    cases h
    exact ⟨ch,live,rfl⟩

theorem tracks_step (h : s.master.Tracks) (hunheld : s.Unheld a) (hstep : s.step a = some s') :
    s'.master.Tracks := by
  obtain ⟨hallowed,hrun⟩ := step_eq hstep
  cases a with
  | spawn mode o =>
    obtain ⟨-,hmode,hnew⟩ := hallowed
    obtain ⟨⟨t,child⟩,hspawn,ht⟩ := bind_ok hrun
    cases ht
    exact h.spawnProcess hspawn (h.free hmode).1 hnew hunheld
  | exit pid status =>
    obtain ⟨i,hi⟩ := Option.isSome_iff_exists.mp hallowed.2
    obtain ⟨t,hget,ht⟩ := bind_ok hrun
    obtain ⟨u,hcollect,hu⟩ := bind_ok hget
    cases hu
    cases ht
    exact h.collect hi (Master.collect_cases hcollect)
  | flags flags exiting justSpawn =>
    cases hrun
    exact h.of_same (fun _ => rfl) (fun _ => rfl) rfl rfl
  | reap =>
    cases hrun
    exact h
  | slot o =>
    obtain ⟨⟨i,hslot,hi⟩,hnew⟩ := hallowed
    obtain ⟨ch,live,hphase⟩ := slot_phase hslot
    rw [run,hphase] at hrun
    obtain ⟨r,hr,ht⟩ := bind_ok hrun
    cases ht
    refine Reaping.tracks_slot h hr hi hnew fun pid hpid j hj => hunheld pid hpid j ?_
    show j < s.phase.slot?.getD 0
    rw [hphase]
    exact hj
  | reaped =>
    cases hrun
    exact h

/-- No step but the exit of a child changes the entry of the child, other than a flag. -/
theorem entry_step (h : s.master.Tracks) (hstep : s.step a = some s') {pid : ℤ} {i : ℕ}
    (hi : s.children pid = some i) (hexit : ∀ status, a ≠ .exit pid status)
    (hflags : ∀ flags exiting justSpawn, a ≠ .flags flags exiting justSpawn) :
    s'.master.processes i = s.master.processes i := by
  obtain ⟨hallowed,hrun⟩ := step_eq hstep
  cases a with
  | spawn mode o =>
    obtain ⟨-,hmode,-⟩ := hallowed
    have hne := h.slot_ne (h.free hmode).1 hi
    obtain ⟨⟨t,child⟩,hspawn,ht⟩ := bind_ok hrun
    cases ht
    rcases Master.spawnProcess_cases hspawn with ⟨-,-,hfails⟩ | ⟨q,p,-,-,hforks⟩
    · exact hfails.other i hne
    · exact (congrFun hforks.processes i).trans (Function.update_of_ne hne _ _)
  | exit q status =>
    obtain ⟨k,hk⟩ := Option.isSome_iff_exists.mp hallowed.2
    obtain ⟨t,hget,ht⟩ := bind_ok hrun
    obtain ⟨u,hcollect,hu⟩ := bind_ok hget
    cases hu
    cases ht
    refine (Master.collect_cases hcollect).other i ?_
    rw [h.search_eq hk]
    rintro rfl
    have hpid := (h.child pid i hi).2.2.1
    have hq := (h.child q i hk).2.2.1
    exact hexit status (by rw [← hpid,hq])
  | flags flags exiting justSpawn => exact absurd rfl (hflags flags exiting justSpawn)
  | reap =>
    cases hrun
    rfl
  | slot o =>
    obtain ⟨⟨j,hslot,-⟩,-⟩ := hallowed
    obtain ⟨ch,live,hphase⟩ := slot_phase hslot
    rw [run,hphase] at hrun
    obtain ⟨r,hr,ht⟩ := bind_ok hrun
    cases ht
    refine Reaping.slot_other hr ?_
    by_cases hij : i = j
    · exact .inr (hij ▸ (h.child pid i hi).2.2.2.1)
    · exact .inl hij
  | reaped =>
    cases hrun
    rfl

/-- The exit of a child marks its own entry and leaves the others. -/
theorem exit_step (h : s.master.Tracks) {pid : ℤ} {status : BitVec 32} {i : ℕ}
    (hstep : s.step (.exit pid status) = some s') (hi : s.children pid = some i) :
    (s'.master.processes i).exited = true ∧
    ∀ j, j ≠ i → s'.master.processes j = s.master.processes j := by
  obtain ⟨-,hrun⟩ := step_eq hstep
  obtain ⟨t,hget,ht⟩ := bind_ok hrun
  obtain ⟨u,hcollect,hu⟩ := bind_ok hget
  cases hu
  cases ht
  have hcollected := Master.collect_cases hcollect
  have hsearch := h.search_eq hi
  have hlt := (h.child pid i hi).2.1
  rw [← hsearch]
  exact ⟨hcollected.exited (hsearch ▸ hlt),hcollected.other⟩

/-- A step that may be made stays in the table. -/
theorem run_ok (h : s.master.Tracks) (hallowed : s.Allowed a) : ∃ t, s.step a = some t := by
  have hlast := h.lastProcess
  suffices hrun : ∃ t, s.run a = .ok t by
    obtain ⟨t,ht⟩ := hrun
    exact ⟨t,by rw [step,if_pos hallowed,ht]; rfl⟩
  cases a with
  | spawn mode o =>
    obtain ⟨t,child,hspawn⟩ := Master.spawnProcess_ok o (h.free hallowed.2.1).2
    exact ⟨_,by rw [run,hspawn]; rfl⟩
  | exit pid status =>
    obtain ⟨i,hi⟩ := Option.isSome_iff_exists.mp hallowed.2
    have hlt := (h.child pid i hi).2.1
    have hsearch : s.master.search pid < maxProcesses := by
      rw [h.search_eq hi]
      omega
    obtain ⟨t,hcollect⟩ := Master.collect_ok status hsearch
    exact ⟨_,by rw [run,Master.processGetStatus,hcollect]; rfl⟩
  | flags flags exiting justSpawn => exact ⟨_,rfl⟩
  | reap => exact ⟨_,rfl⟩
  | slot o =>
    obtain ⟨⟨i,hslot,hi⟩,-⟩ := hallowed
    obtain ⟨ch,live,hphase⟩ := slot_phase hslot
    obtain ⟨r,hr⟩ := Reaping.slot_ok ⟨s.master,ch,live⟩ o (lt_of_lt_of_le hi hlast)
    exact ⟨_,by rw [run,hphase]; simp only [hr]; rfl⟩
  | reaped => exact ⟨_,rfl⟩

end Run

theorem tracks {s : Run} (h : (mastering.restrict Run.Unheld).Reachable s) : s.master.Tracks := by
  refine h.invariant (I := fun s => s.master.Tracks) (fun s hinit => ?_)
    fun s a s' _ hs (hstep : s.Unheld a ∧ s.step a = some s') => Run.tracks_step hs hstep.1 hstep.2
  obtain ⟨hlast,hchildren,-⟩ := hinit
  refine ⟨by omega,fun pid i hi => ?_,fun j hj => by omega⟩
  rw [show childrenOf s.master.log = _ from hchildren] at hi
  cases hi

/-- As long as no fork returns a pid that a smaller slot still holds, the table stays in its bounds,
each child has one entry in use, no other step overwrites it, and `waitpid` marks it. -/
theorem children_tracked {s : Run} (h : (mastering.restrict Run.Unheld).Reachable s) :
    s.master.lastProcess ≤ maxProcesses ∧
    (∀ pid i, s.children pid = some i → i < s.master.lastProcess ∧ (s.master.processes i).pid = pid ∧
      (s.master.processes i).exited = false ∧ ∀ j < s.master.lastProcess, (s.master.processes j).pid = pid →
        (s.master.processes j).exited = false → j = i) ∧
    (∀ a s', mastering.step s a s' → ∀ pid i, s.children pid = some i → (∀ status, a ≠ .exit pid status) →
      (∀ flags exiting justSpawn, a ≠ .flags flags exiting justSpawn) →
      s'.master.processes i = s.master.processes i) ∧
    (∀ pid status s' i, mastering.step s (.exit pid status) s' → s.children pid = some i →
      (s'.master.processes i).exited = true ∧ ∀ j, j ≠ i → s'.master.processes j = s.master.processes j) ∧
    ∀ a, s.Allowed a → ∃ s', mastering.step s a s' := by
  have hs := tracks h
  refine ⟨hs.lastProcess,fun pid i hi => ?_,fun a s' hstep pid i => Run.entry_step hs hstep,
    fun pid status s' i => Run.exit_step hs,fun a => Run.run_ok hs⟩
  obtain ⟨hpos,hlt,hpid,hrun,-⟩ := hs.child pid i hi
  refine ⟨hlt,hpid,hrun,fun j hj hpidj hrunj => ?_⟩
  have hj' := hs.entry j hj (by omega) hrunj
  rw [hpidj,show childrenOf s.master.log pid = some i from hi] at hj'
  exact (Option.some.inj hj').symm

/-- Two workers exit, and both are collected. -/
def exitTwice : List Action :=
  [.spawn .respawn ⟨.ready 10 11,some 100⟩,.spawn .respawn ⟨.ready 12 13,some 101⟩,.exit 100 0,.exit 101 0,.reap]

theorem children_tracked_twice : ∃ s, (mastering.restrict Run.Unheld).Reachable s ∧
    s.children 102 = some 0 ∧ (s.master.processes 0).pid = 102 ∧ (s.master.processes 0).exited = false := by
  obtain ⟨s,hs⟩ : ∃ s, TransitionSystem.replay (fun s a => if s.Unheld a then Run.step s a else none)
      ⟨idleMaster,.asleep⟩ (exitTwice ++ [.slot ⟨.ready 14 15,some 102⟩]) = some s := ⟨_,rfl⟩
  have hreach : (mastering.restrict Run.Unheld).Reachable s :=
    TransitionSystem.Reachable.of_guarded_replay (.init ⟨rfl,rfl,rfl⟩) hs
  have hchild : s.children 102 = some 0 := by cases hs; decide
  obtain ⟨-,hpid,hrun,-⟩ := (children_tracked hreach).2.1 102 0 hchild
  exact ⟨s,hreach,hchild,hpid,hrun⟩

/-- A respawn fails, so that its slot keeps the pid 100, and the next fork returns this pid: its
exit is then not marked in its own slot. -/
theorem pid_confused : ∃ s s', mastering.Reachable s ∧ s.children 100 = some 1 ∧
    mastering.step s (.exit 100 0) s' ∧ (s'.master.processes 1).exited = false := by
  obtain ⟨s,hs⟩ : ∃ s, TransitionSystem.replay Run.step ⟨idleMaster,.asleep⟩
      (exitTwice ++ [.slot ⟨.none,none⟩,.slot ⟨.ready 14 15,some 100⟩,.reaped]) = some s := ⟨_,rfl⟩
  have hreach : mastering.Reachable s :=
    TransitionSystem.Reachable.of_replay (.init ⟨rfl,rfl,rfl⟩) hs
  obtain ⟨s',hs'⟩ : ∃ s', s.step (.exit 100 0) = some s' := by cases hs; exact ⟨_,rfl⟩
  refine ⟨s,s',hreach,?_,hs',?_⟩
  · cases hs; decide
  · cases hs; cases hs'; decide

end InsideNginx.Process
