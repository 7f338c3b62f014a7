import InsideNginx.Process.Cycle

/-! When the master leaves, none of its children runs, as long as no start of workers beside a new
binary goes unnoticed by the variable `live`. -/
namespace InsideNginx.Process

/-- A child that runs and belongs to the master. -/
def Entry.Alive (p : Entry) : Prop := p.pid ≠ -1 ∧ p.exited = false ∧ p.detached = false

namespace Master

/-- No child is alive. -/
def NoneAlive (s : Master) : Prop := ∀ i < s.lastProcess, ¬ (s.processes i).Alive

variable {s s' : Master} {mode : Respawn} {o : Outcome} {i : ℕ}

/-- A call that brings no entry to life. -/
def Fades (s s' : Master) : Prop :=
  s'.lastProcess = s.lastProcess ∧ ∀ i < s.lastProcess, (s'.processes i).Alive → (s.processes i).Alive

theorem Fades.refl (s : Master) : s.Fades s := ⟨rfl,fun _ _ => id⟩

theorem Fades.trans {t : Master} (h : s.Fades t) (h' : t.Fades s') : s.Fades s' :=
  ⟨h'.1.trans h.1,fun i hi halive => h.2 i hi (h'.2 i (h.1 ▸ hi) halive)⟩

theorem NoneAlive.fades (h : s.NoneAlive) (hfades : s.Fades s') : s'.NoneAlive :=
  fun i hi halive => h i (hfades.1 ▸ hi) (hfades.2 i (hfades.1 ▸ hi) halive)

theorem fades_setFlags (s : Master) (flags : Flags) : s.Fades (s.setFlags flags) := Fades.refl s

theorem fades_setEntry {p : Entry} (h : p.Alive → (s.processes i).Alive) : s.Fades (s.setEntry i p) := by
  refine ⟨rfl,fun j _ halive => ?_⟩
  by_cases hj : j = i
  · subst hj
    rw [setEntry_self] at halive
    exact h halive
  · rwa [setEntry_of_ne _ _ hj] at halive

/-! ### Signals -/

theorem fades_collect {pid : ℤ} {status : BitVec 32} (h : s.collect pid status = .ok s') : s.Fades s' := by
  have hcollected := collect_cases h
  refine ⟨hcollected.lastProcess,fun i hi halive => ?_⟩
  by_cases hsearch : i = s.search pid
  · have hexited := hcollected.exited (hsearch ▸ hi)
    rw [← hsearch,halive.2.1] at hexited
    cases hexited
  · rwa [hcollected.other i hsearch] at halive

theorem fades_processGetStatus {waits : List Wait} (h : s.processGetStatus waits = .ok s') : s.Fades s' := by
  induction waits generalizing s with
  | nil =>
    cases h
    exact .refl _
  | cons wait waits ih =>
    cases wait with
    | running =>
      cases h
      exact .refl _
    | failed =>
      cases h
      exact .refl _
    | interrupted => exact ih h
    | child pid status =>
      obtain ⟨t,ht,hrest⟩ := bind_ok h
      exact (fades_collect ht).trans (ih hrest)

theorem fades_signalHandler {signal : Signal} (h : s.signalHandler signal = .ok s') : s.Fades s' := by
  cases signal with
  | chld waits => exact (fades_setFlags s _).trans (fades_processGetStatus h)
  | noaccept =>
    cases h
    split
    · exact fades_setFlags s _
    · exact .refl s
  | changebin parentRuns =>
    cases h
    split
    · exact .refl s
    · exact fades_setFlags s _
  | _ =>
    cases h
    exact fades_setFlags s _

theorem fades_signals {signals : List Signal} (h : signals.foldlM signalHandler s = .ok s') : s.Fades s' := by
  induction signals generalizing s with
  | nil =>
    cases h
    exact .refl _
  | cons signal signals ih =>
    obtain ⟨t,ht,hrest⟩ := bind_ok h
    exact (fades_signalHandler ht).trans (ih hrest)

/-! ### Telling the workers -/

theorem fades_killWorker (s : Master) (signo : Signo) (i : ℕ) (kill : Kill) :
    s.Fades (s.killWorker signo i kill) := by
  unfold killWorker
  cases kill with
  | ok =>
    dsimp only
    split
    · exact .refl s
    · exact fades_setEntry (s := s.emit _) id
  | esrch => exact (fades_setEntry (s := s.emit _) fun h => absurd h.2.1 (by simp)).trans (fades_setFlags _ _)
  | failed => exact .refl s

theorem fades_signalWorker (s : Master) (signo : Signo) (i : ℕ) (d : Delivery) :
    s.Fades (s.signalWorker signo i d) := by
  unfold signalWorker
  dsimp only
  split
  · exact .refl s
  split
  · exact fades_setEntry id
  split
  · exact .refl s
  split
  · exact fades_killWorker s signo i d.kill
  split
  · exact (Fades.refl s).trans (fades_killWorker (s.emit _) signo i d.kill)
  split
  · exact .refl s
  · exact fades_setEntry (s := s.emit _) id

theorem fades_signalWorkerProcesses (s : Master) (signo : Signo) (d : ℕ → Delivery) :
    s.Fades (s.signalWorkerProcesses signo d) := by
  unfold signalWorkerProcesses
  generalize List.range s.lastProcess = slots
  induction slots generalizing s with
  | nil => exact .refl s
  | cons i slots ih => exact (fades_signalWorker s signo i (d i)).trans (ih _)

/-! ### Spawning -/

theorem SpawnFails.fades (h : SpawnFails s i s') : s.Fades s' := by
  refine ⟨h.lastProcess,fun j _ halive => ?_⟩
  by_cases hj : j = i
  · subst hj
    obtain ⟨fd0,fd1,hself⟩ := h.self
    rw [hself] at halive
    exact halive
  · rwa [h.other j hj] at halive

/-- A call of `ngx_spawn_process` brings an entry to life only if its system calls succeed. -/
theorem fades_spawnProcess {child : Option Child} (h : s.spawnProcess mode o = .ok (s',child))
    (hnone : o.forks mode = none) : s.Fades s' := by
  rcases spawnProcess_cases h with ⟨-,-,hfails⟩ | ⟨pid,p,hsome,-,-⟩
  · exact hfails.fades
  · rw [hnone] at hsome
    cases hsome

theorem fades_startWorker (h : s.startWorker mode o = .ok s') (hnone : o.forks mode = none) : s.Fades s' := by
  obtain ⟨⟨t,child⟩,hspawn,ht⟩ := bind_ok h
  cases ht
  exact (fades_spawnProcess hspawn hnone).trans (.refl t)

/-- A new binary is no child of the master. -/
theorem NoneAlive.spawn_detached {child : Option Child} (h : s.NoneAlive)
    (hspawn : s.spawnProcess .detached o = .ok (s',child)) : s'.NoneAlive := by
  rcases spawnProcess_cases hspawn with ⟨-,-,hfails⟩ | ⟨pid,p,-,-,hforks⟩
  · exact h.fades hfails.fades
  intro j hj halive
  rw [hforks.processes] at halive
  by_cases hjs : j = s.spawnSlot .detached
  · obtain ⟨fd0,fd1,hp⟩ := hforks.entry
    rw [hjs,Function.update_self,hp] at halive
    exact Bool.noConfusion halive.2.2
  · rw [Function.update_of_ne hjs] at halive
    rw [hforks.lastProcess] at hj
    refine h j ?_ halive
    split at hj
    · rename_i hslot
      simp only [Bool.and_eq_true,decide_eq_true_eq] at hslot
      omega
    · exact hj

end Master

/-! ### Reaping -/

namespace Reaping

variable {r r' : Reaping} {i : ℕ} {o : Outcome}

/-- As long as `live` is not set, no slot that the pass has been to is alive. -/
def Seen (r : Reaping) (i : ℕ) : Prop :=
  r.live = false → ∀ j < i, j < r.master.lastProcess → ¬ (r.master.processes j).Alive

/-- What a round leaves in its own slot, if it does not set `live`. -/
theorem slot_seen (h : r.slot i o = .ok r') : r'.master.lastProcess ≤ r.master.lastProcess ∧
    (r'.live = false → r.live = false ∧ (i < r'.master.lastProcess → ¬ (r'.master.processes i).Alive)) := by
  rcases slot_cases h with ⟨hfree,rfl⟩ | ⟨-,-,rfl⟩ | ⟨-,hexited,r₁,hr₁,hcases⟩
  · exact ⟨le_rfl,fun hlive => ⟨hlive,fun _ halive => halive.1 hfree⟩⟩
  · refine ⟨le_rfl,fun hlive => ?_⟩
    simp only [Bool.or_eq_false_iff,Bool.not_eq_false'] at hlive
    exact ⟨hlive.1,fun _ halive => Bool.noConfusion (hlive.2.2.symm.trans halive.2.2)⟩
  have hsame : r₁.master.lastProcess = r.master.lastProcess ∧ r₁.live = r.live ∧
      (r₁.master.processes i).exited = true := by
    split at hr₁
    · subst hr₁
      exact ⟨rfl,rfl,hexited⟩
    · subst hr₁
      have hclosed := r.passClose_closed i
      refine ⟨hclosed.lastProcess,hclosed.live,?_⟩
      rw [hclosed.processes,Function.update_self]
      exact hexited
  obtain ⟨hlast,hlive₁,hexited₁⟩ := hsame
  rcases hcases with ⟨-,hrespawn⟩ | ⟨-,rfl⟩
  · rcases respawn_cases hrespawn with ⟨-,s,hfails,rfl⟩ | ⟨pid,p,s,-,hforks,rfl⟩
    · refine ⟨(hfails.lastProcess.trans hlast).le,fun hlive => ⟨hlive₁ ▸ hlive,fun _ halive => ?_⟩⟩
      obtain ⟨fd0,fd1,hself⟩ := hfails.self
      rw [hself] at halive
      exact Bool.noConfusion (hexited₁.symm.trans halive.2.1)
    · refine ⟨le_of_eq ?_,fun hlive => Bool.noConfusion hlive⟩
      exact hforks.lastProcess.trans hlast
  · obtain ⟨hcases,-,hlive,-⟩ := r₁.drop_cases i
    rw [hlive,hlive₁]
    rcases hcases with ⟨hend,hlast',-⟩ | ⟨-,hlast',hprocesses⟩
    · exact ⟨by omega,fun hlive => ⟨hlive,fun hi => by omega⟩⟩
    · refine ⟨by omega,fun hlive => ⟨hlive,fun _ halive => ?_⟩⟩
      rw [hprocesses,Function.update_self] at halive
      exact halive.1 rfl

theorem seen_step (h : r.Seen i) (hslot : r.slot i o = .ok r') : r'.Seen (i + 1) := by
  obtain ⟨hle,hseen⟩ := slot_seen hslot
  intro hlive j hj hlast
  obtain ⟨hlive₀,hself⟩ := hseen hlive
  rcases Nat.lt_succ_iff_lt_or_eq.mp hj with hj | rfl
  · rw [slot_other hslot (.inl hj.ne)]
    exact h hlive₀ j hj (by omega)
  · exact hself hlast

theorem seen_slots {os : ℕ → Outcome} {n : ℕ} (h : r.Seen i) (hn : r.master.lastProcess ≤ i + n)
    (hslots : slots os n i r = .ok r') : r'.live = false → r'.master.NoneAlive := by
  induction n generalizing i r with
  | zero =>
    cases hslots
    exact fun hlive j hj => h hlive j (by omega) hj
  | succ n ih =>
    unfold slots at hslots
    split at hslots
    · obtain ⟨r₁,hslot,hrest⟩ := bind_ok hslots
      exact ih (seen_step h hslot) (by have := (slot_seen hslot).1; omega) hrest
    · rename_i hi
      cases hslots
      exact fun hlive j hj => h hlive j (by omega) hj

end Reaping

/-- When `ngx_reap_children` returns 0, no child is alive. -/
theorem Master.reapChildren_live {s s' : Master} {o : ℕ → Outcome} (h : s.reapChildren o = .ok (s',false)) :
    s'.NoneAlive := by
  obtain ⟨r,hslots,hr⟩ := bind_ok h
  have hr' := Except.ok.inj hr
  rw [Prod.mk.injEq] at hr'
  obtain ⟨rfl,hlive⟩ := hr'
  exact Reaping.seen_slots (fun _ j hj => absurd hj (Nat.not_lt_zero j)) (by simp) hslots hlive

/-! ### The loop -/

/-- No call of `ngx_spawn_process` for workers and cache processes forks a child. -/
def Starts.NoChild (o : Starts) (conf : Conf) : Prop :=
  (∀ i < conf.workerProcesses, (o.workers i).forks .respawn = none) ∧
  (conf.manager = true → o.manager.forks .respawn = none ∧
    (conf.loader = true → o.loader.forks .norespawn = none))

instance (o : Starts) (conf : Conf) : Decidable (o.NoChild conf) := inferInstanceAs (Decidable (_ ∧ _))

theorem Master.fades_startWorkerProcesses {s s' : Master} {n : ℕ} {mode : Respawn} {o : ℕ → Outcome}
    (h : s.startWorkerProcesses n mode o = .ok s') (hnone : ∀ i < n, (o i).forks mode = none) : s.Fades s' := by
  unfold startWorkerProcesses at h
  induction n generalizing s' with
  | zero =>
    cases h
    exact .refl _
  | succ n ih =>
    rw [List.range_succ,List.foldlM_append] at h
    obtain ⟨t,ht,hlast⟩ := bind_ok h
    simp only [List.foldlM_cons,List.foldlM_nil] at hlast
    obtain ⟨u,hu,hu'⟩ := bind_ok hlast
    cases hu'
    exact (ih ht fun i hi => hnone i (by omega)).trans (fades_startWorker hu (hnone n (by omega)))

theorem Master.fades_startProcesses {s s' : Master} {conf : Conf} {o : Starts}
    (h : s.startProcesses conf .respawn false o = .ok s') (hnone : o.NoChild conf) : s.Fades s' := by
  obtain ⟨t,hworkers,hcache⟩ := bind_ok h
  have ht : s.Fades t := fades_startWorkerProcesses hworkers hnone.1
  refine ht.trans ?_
  unfold startCacheManagerProcesses at hcache
  split at hcache
  · cases hcache
    exact .refl _
  rename_i hmanager
  rw [Bool.not_eq_true,Bool.not_eq_false'] at hmanager
  obtain ⟨u,hu,hrest⟩ := bind_ok hcache
  obtain ⟨hnone₁,hnone₂⟩ := hnone.2 hmanager
  refine (fades_startWorker hu hnone₁).trans ?_
  split at hrest
  · cases hrest
    exact .refl _
  · rename_i hloader
    rw [Bool.not_eq_true,Bool.not_eq_false'] at hloader
    exact fades_startWorker hrest (hnone₂ hloader)

namespace Cycle

variable {c c' : Cycle} {x : Answers} {dd : Respawn}

/-- If `live` is not set, no child is alive. -/
def Sound (c : Cycle) : Prop := c.live = false → c.master.NoneAlive

theorem Sound.fades (h : c.Sound) (hlive : c'.live = c.live) (hfades : c.master.Fades c'.master) : c'.Sound :=
  fun hnot => (h (hlive ▸ hnot)).fades hfades

theorem Sound.tell (h : c.Sound) (signo : Signo) (d : ℕ → Delivery) : (c.tell signo d).Sound :=
  h.fades rfl (Master.fades_signalWorkerProcesses _ _ _)

theorem Sound.setFlags (h : c.Sound) (flags : Flags) : (c.setFlags flags).Sound :=
  h.fades rfl (Master.fades_setFlags _ _)

theorem Sound.wake (h : c.Sound) {signals : List Signal} {o : ℕ → Outcome}
    (hwake : c.wake signals o = .ok c') : c'.Sound := by
  obtain ⟨s,hsignals,hreap⟩ := bind_ok hwake
  have harm : c.arm.Sound := by
    unfold arm
    split
    · exact h.setFlags _
    · exact h
  have hs : (c.arm.setMaster s).Sound := harm.fades rfl (Master.fades_signals hsignals)
  unfold reap at hreap
  split at hreap
  · obtain ⟨⟨t,live⟩,hpass,ht⟩ := bind_ok hreap
    cases ht
    intro hlive
    cases (show live = false from hlive)
    exact Master.reapChildren_live hpass
  · cases hreap
    exact hs

theorem Sound.terminate (h : c.Sound) (x : Answers) : (c.terminate x).Sound := by
  unfold Cycle.terminate
  have hdelay : (if c.delay = 0 then { c with delay := 50 } else c).Sound := by
    split
    · exact h
    · exact h
  generalize (if c.delay = 0 then { c with delay := 50 } else c) = c₁ at hdelay
  dsimp only
  split
  · exact hdelay
  · have hsigio : Sound { c₁ with sigio := c₁.conf.workerProcesses + 2 } := hdelay
    split
    · exact hsigio.tell _ _
    · exact hsigio.tell _ _

theorem Sound.rest (h : c.Sound) (hrest : c.rest dd x = .ok c') : c'.Sound := by
  obtain ⟨c₁,hrestart,hrest⟩ := bind_ok hrest
  obtain ⟨c₂,hbinary,hc₂⟩ := bind_ok hrest
  cases hc₂
  have h₁ : c₁.Sound := by
    unfold restart at hrestart
    split at hrestart
    · obtain ⟨s,-,hs⟩ := bind_ok hrestart
      cases hs
      exact fun hlive => Bool.noConfusion hlive
    · cases hrestart
      exact h
  have hreopen : (c₁.reopen x).Sound := by
    unfold reopen
    split
    · exact (h₁.setFlags _).tell _ _
    · exact h₁
  have h₂ : c₂.Sound := by
    unfold changeBinary at hbinary
    split at hbinary
    · dsimp only at hbinary
      split at hbinary
      · cases hbinary
        exact (hreopen.setFlags _).setFlags _
      · obtain ⟨⟨s,child⟩,hspawn,hs⟩ := bind_ok hbinary
        cases hs
        exact fun hlive => ((hreopen.setFlags _ hlive).spawn_detached hspawn).fades (Master.fades_setFlags s _)
    · cases hbinary
      exact hreopen
  unfold noaccept
  split
  · exact (h₂.setFlags _).tell _ _
  · exact h₂

/-- The branch that starts processes beside a new binary finds `live` set, or starts none. -/
def Noticed (c : Cycle) (x : Answers) : Prop :=
  c.live = false → c.flags.terminate = false → c.flags.quit = false → c.flags.reconfigure = true →
    c.flags.newBinary ≠ 0 → x.starts.NoChild c.conf

instance (c : Cycle) (x : Answers) : Decidable (c.Noticed x) :=
  inferInstanceAs (Decidable (_ → _ → _ → _ → _ → _))

theorem Sound.act (h : c.Sound) (hnoticed : c.Noticed x) {next : Next} (hact : c.act dd x = .ok next) :
    match next with
    | .back c' => c'.Sound
    | .exit s => s.NoneAlive := by
  unfold Cycle.act at hact
  split at hact
  · rename_i hexit
    cases hact
    rw [Bool.and_eq_true,Bool.not_eq_true'] at hexit
    exact h hexit.1
  split at hact
  · cases hact
    exact h.terminate x
  rename_i hterminate
  split at hact
  · cases hact
    exact h.tell _ _
  rename_i hquit
  split at hact
  · rename_i hreconfigure
    dsimp only at hact
    have h₁ := h.setFlags { c.flags with reconfigure := false }
    split at hact
    · rename_i hbinary
      obtain ⟨c₁,hupgrade,hc₁⟩ := bind_ok hact
      cases hc₁
      obtain ⟨s,hstart,hs⟩ := bind_ok hupgrade
      cases hs
      intro hlive
      have hnone := hnoticed hlive (Bool.eq_false_of_not_eq_true hterminate) (Bool.eq_false_of_not_eq_true hquit)
        hreconfigure hbinary
      exact ((h₁ hlive).fades (Master.fades_startProcesses hstart hnone)).fades (Master.fades_setFlags s _)
    · split at hact
      · cases hact
        exact h₁
      · obtain ⟨c₁,hreload,hrest⟩ := bind_ok hact
        obtain ⟨c₂,hrest',hc₂⟩ := bind_ok hrest
        cases hc₂
        obtain ⟨s,-,hs⟩ := bind_ok hreload
        cases hs
        exact Sound.rest (fun hlive => Bool.noConfusion hlive) hrest'
  · obtain ⟨c₁,hrest,hc₁⟩ := bind_ok hact
    cases hc₁
    exact h.rest hrest

end Cycle

/-! ### The runs -/

namespace Stage

/-- What is known of the stages of a run. -/
def Sound : Stage → Prop
  | .asleep c | .awake c => c.Sound
  | .exited s => s.NoneAlive

/-- No start of processes beside a new binary goes unnoticed by `live`. -/
def Noticed : Stage → Turn → Prop
  | .awake c,.act x => c.Noticed x
  | _,_ => True

instance : (stage : Stage) → (turn : Turn) → Decidable (stage.Noticed turn)
  | .awake c,.act x => inferInstanceAs (Decidable (c.Noticed x))
  | .asleep _,_ | .exited _,_ | .awake _,.wake _ _ => inferInstanceAs (Decidable True)

theorem Sound.turn {dd : Respawn} {stage stage' : Stage} {turn : Turn} (h : stage.Sound)
    (hnoticed : stage.Noticed turn) (hturn : stage.turn dd turn = some stage') : stage'.Sound := by
  cases stage with
  | asleep c =>
    cases turn with
    | wake signals o =>
      obtain ⟨c',hwake,rfl⟩ := Option.map_eq_some_iff.mp hturn
      exact Cycle.Sound.wake h (toOption_ok hwake)
    | act x => cases hturn
  | awake c =>
    cases turn with
    | wake signals o => cases hturn
    | act x =>
      obtain ⟨next,hact,rfl⟩ := Option.map_eq_some_iff.mp hturn
      have hnext := Cycle.Sound.act h hnoticed (toOption_ok hact)
      cases next with
      | back c' => exact hnext
      | exit s => exact hnext
  | exited s => cases turn <;> cases hturn

end Stage

/-- In a run in which every start of processes beside a new binary finds `live` set, or starts none,
the master leaves only when none of its children runs. -/
theorem master_exit {dd : Respawn} {s : Master}
    (h : ((cycling dd).restrict Stage.Noticed).Reachable (.exited s)) :
    ∀ i < s.lastProcess, ¬ ((s.processes i).pid ≠ -1 ∧ (s.processes i).exited = false ∧
      (s.processes i).detached = false) := by
  refine h.invariant (I := Stage.Sound) (fun stage hinit => ?_)
    fun stage turn stage' _ hs (hstep : stage.Noticed turn ∧ stage.turn dd turn = some stage') =>
      hs.turn hstep.1 hstep.2
  obtain ⟨m,conf,o,c,-,hstart,rfl⟩ := hinit
  obtain ⟨t,-,ht⟩ := bind_ok hstart
  cases ht
  exact fun hlive => Bool.noConfusion hlive

/-- One worker and no cache. -/
def oneWorker (fd : ℤ) (pid : ℕ+) : Starts := ⟨fun _ => ⟨.ready fd (fd + 1),some pid⟩,⟨.none,none⟩,⟨.none,none⟩⟩

/-- Every message is delivered, the configuration is not changed, and this is what else happens. -/
def answers (starts : Starts) (exec : Option Outcome) : Answers :=
  ⟨fun _ _ => ⟨true,.ok⟩,none,starts,starts,exec,fun _ => ⟨true,.ok⟩⟩

theorem started : ∃ c, startCycle idleMaster ⟨1,false,false⟩ (oneWorker 10 100) = .ok c ∧
    (cycling .respawn).Reachable (.asleep c) ∧
    ((cycling .respawn).restrict Stage.Noticed).Reachable (.asleep c) := by
  obtain ⟨c,hc⟩ : ∃ c, startCycle idleMaster ⟨1,false,false⟩ (oneWorker 10 100) = .ok c := ⟨_,rfl⟩
  exact ⟨c,hc,.init ⟨_,_,_,c,rfl,hc,rfl⟩,.init ⟨_,_,_,c,rfl,hc,rfl⟩⟩

/-- The master is told to quit and leaves when its worker has exited. -/
theorem master_exit_quit : ∃ s, ((cycling .respawn).restrict Stage.Noticed).Reachable (.exited s) ∧
    ∀ i < s.lastProcess, ¬ ((s.processes i).pid ≠ -1 ∧ (s.processes i).exited = false ∧
      (s.processes i).detached = false) := by
  obtain ⟨c,hc,-,hreach⟩ := started
  obtain ⟨s,hs⟩ : ∃ s, TransitionSystem.replay
      (fun stage turn => if stage.Noticed turn then Stage.turn .respawn stage turn else none) (.asleep c)
      [.wake [.shutdown] fun _ => ⟨.none,none⟩,.act (answers (oneWorker 12 200) none),
        .wake [.chld [.child 100 0]] fun _ => ⟨.none,none⟩,.act (answers (oneWorker 12 200) none)] =
      some (.exited s) := by
    cases hc
    exact ⟨_,rfl⟩
  have hexited : ((cycling .respawn).restrict Stage.Noticed).Reachable (.exited s) := .of_guarded_replay hreach hs
  exact ⟨s,hexited,master_exit hexited⟩

/-- With a new binary running and the own workers gone, workers are started again; `live` stays 0,
and the master leaves them alone when it is told to quit. -/
theorem master_abandons : ∃ s, (cycling .respawn).Reachable (.exited s) ∧ 0 < s.lastProcess ∧
    (s.processes 0).pid = 200 ∧ (s.processes 0).exited = false ∧ (s.processes 0).detached = false := by
  obtain ⟨c,hc,hreach,-⟩ := started
  obtain ⟨s,hs⟩ : ∃ s, TransitionSystem.replay (Stage.turn .respawn) (.asleep c)
      [.wake [.changebin false] fun _ => ⟨.none,none⟩,.act (answers (oneWorker 12 200) (some ⟨.none,some 150⟩)),
        .wake [.noaccept] fun _ => ⟨.none,none⟩,.act (answers (oneWorker 12 200) none),
        .wake [.chld [.child 100 0]] fun _ => ⟨.none,none⟩,.act (answers (oneWorker 12 200) none),
        .wake [.reconfigure] fun _ => ⟨.none,none⟩,.act (answers (oneWorker 12 200) none),
        .wake [.shutdown] fun _ => ⟨.none,none⟩,.act (answers (oneWorker 12 200) none)] = some (.exited s) := by
    cases hc
    exact ⟨_,rfl⟩
  refine ⟨s,TransitionSystem.Reachable.of_replay hreach hs,?_⟩
  cases hc
  cases hs
  decide

end InsideNginx.Process
