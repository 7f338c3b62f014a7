import InsideNginx.Process.Stopping

/-! How a master that terminates presses its processes: the delay that each alarm doubles decides between
the signals, and `sigio` spaces the broadcasts. -/
namespace InsideNginx.Process

/-- The delay after a number of alarms. It is lost after 63 of them, when the word has run over. -/
def delayAfter (alarms : ℕ) : BitVec 64 := BitVec.ofNat 64 (50*2^(alarms%63))

theorem delayAfter_succ (a : ℕ) : delayAfter a*2 = if a%63 = 62 then 0 else delayAfter (a + 1) := by
  unfold delayAfter
  have hlt := Nat.mod_lt a (show 0 < 63 by decide)
  split
  · rename_i h
    rw [h]
    decide
  · rw [show (a + 1)%63 = a%63 + 1 by omega,pow_succ,← mul_assoc]
    exact (BitVec.ofNat_mul _ _).symm

/-- The signal that a terminating master broadcasts after a number of alarms. -/
def force (alarms : ℕ) : Signo := if 5 ≤ alarms%63 then .kill else .terminate

theorem delayAfter_force (a : ℕ) : force a = if 1000 < delayAfter a then .kill else .terminate := by
  have hall : ∀ k < 63, (5 ≤ k ↔ 1000 < BitVec.ofNat 64 (50*2^k)) := by decide
  unfold force delayAfter
  simp only [hall _ (Nat.mod_lt a (show 0 < 63 by decide))]

theorem delayAfter_ne_zero (a : ℕ) : delayAfter a ≠ 0 := by
  have hall : ∀ k < 63, BitVec.ofNat 64 (50*2^k) ≠ 0 := by decide
  exact hall _ (Nat.mod_lt a (show 0 < 63 by decide))

namespace Cycle
variable {c c' : Cycle} {a : ℕ} {x : Answers} {dd : Respawn}

/-- The timer and the spacing of the broadcasts after a number of alarms. -/
structure Paced (a : ℕ) (c : Cycle) : Prop where
  delay : c.delay = delayAfter a ∨ c.delay = 0 ∧ a%63 = 0
  sigio : c.sigio ≤ c.conf.workerProcesses + 2
  stopping : c.sigio ≠ 0 → c.master.stopping = true

/-- A part of a round that leaves the timer and the spacing alone. -/
structure Steady (c c' : Cycle) : Prop where
  delay : c'.delay = c.delay
  sigio : c'.sigio = c.sigio

theorem Steady.refl (c : Cycle) : c.Steady c := ⟨rfl,rfl⟩

theorem Steady.trans {c₁ : Cycle} (h : c.Steady c₁) (h' : c₁.Steady c') : c.Steady c' :=
  ⟨h'.delay.trans h.delay,h'.sigio.trans h.sigio⟩

theorem steady_tell (c : Cycle) (signo : Signo) (d : ℕ → Delivery) : c.Steady (c.tell signo d) := ⟨rfl,rfl⟩

theorem steady_restart (h : c.restart dd x = .ok c') : c.Steady c' := by
  unfold restart at h
  split at h
  · obtain ⟨s,-,hc⟩ := bind_ok h
    cases hc
    exact ⟨rfl,rfl⟩
  · cases h
    exact .refl c

theorem steady_changeBinary (h : c.changeBinary x = .ok c') : c.Steady c' := by
  unfold changeBinary at h
  split at h
  · split at h
    · cases h
      exact ⟨rfl,rfl⟩
    · obtain ⟨⟨s,child⟩,-,hc⟩ := bind_ok h
      cases hc
      exact ⟨rfl,rfl⟩
  · cases h
    exact .refl c

theorem steady_rest (h : c.rest dd x = .ok c') : c.Steady c' := by
  obtain ⟨c₁,hrestart,h⟩ := bind_ok h
  obtain ⟨c₂,hbinary,hc⟩ := bind_ok h
  cases hc
  have hreopen : c₁.Steady (c₁.reopen x) := by
    unfold reopen
    split
    · exact ⟨rfl,rfl⟩
    · exact .refl c₁
  have hnoaccept : c₂.Steady (c₂.noaccept x) := by
    unfold noaccept
    split
    · exact ⟨rfl,rfl⟩
    · exact .refl c₂
  exact (((steady_restart hrestart).trans hreopen).trans (steady_changeBinary hbinary)).trans hnoaccept

/-- A round that does not terminate leaves the timer and the spacing alone. -/
theorem steady_act (h : c.act dd x = .ok (.back c')) (hterminate : c.flags.terminate = false) :
    c.Steady c' ∧ (c.flags.quit = true → c'.conf = c.conf) := by
  unfold act at h
  split at h
  · cases h
  simp only [hterminate,Bool.false_eq_true,if_false] at h
  split at h
  · cases h
    exact ⟨steady_tell c _ _,fun _ => rfl⟩
  rename_i hquit
  refine ⟨?_,fun h => absurd h hquit⟩
  split at h
  · split at h
    · obtain ⟨c₁,hupgrade,hc⟩ := bind_ok h
      cases hc
      obtain ⟨s,-,hc⟩ := bind_ok hupgrade
      cases hc
      exact ⟨rfl,rfl⟩
    · split at h
      · cases h
        exact ⟨rfl,rfl⟩
      · obtain ⟨c₁,hreload,h⟩ := bind_ok h
        obtain ⟨c₂,hrest,hc⟩ := bind_ok h
        cases hc
        obtain ⟨s,-,hc⟩ := bind_ok hreload
        cases hc
        obtain ⟨hdelay,hsigio⟩ := steady_rest hrest
        exact ⟨hdelay,hsigio⟩
  · obtain ⟨c₁,hrest,hc⟩ := bind_ok h
    cases hc
    exact steady_rest hrest

/-- What a terminating round does: it waits for the next alarm, or broadcasts the signal of its time. -/
theorem Paced.terminate_eq (h : c.Paced a) (x : Answers) :
    c.terminate x = if c.sigio = 0 then
        { c.tell (force a) (x.tell (force a)) with delay := delayAfter a, sigio := c.conf.workerProcesses + 2 }
      else { c with delay := delayAfter a, sigio := c.sigio - 1 } := by
  have hdelay : (if c.delay = 0 then { c with delay := 50 } else c) = { c with delay := delayAfter a } := by
    rcases h.delay with hdelay | ⟨hdelay,ha⟩
    · rw [if_neg (hdelay ▸ delayAfter_ne_zero a),← hdelay]
    · rw [if_pos hdelay,show delayAfter a = 50 by simp [delayAfter,ha]]
  unfold terminate
  rw [hdelay,delayAfter_force]
  by_cases hsigio : c.sigio = 0
  · simp only [hsigio,ne_eq,not_true_eq_false,if_false,if_true]
    split <;> rfl
  · simp only [ne_eq,hsigio,not_false_eq_true,if_true,if_false]

theorem Paced.terminate (h : c.Paced a) (hterminate : c.flags.terminate = true) (x : Answers) : (c.terminate x).Paced a := by
  have hstop : (c.terminate x).master.stopping = true :=
    (c.terminate_barren x).stopping (by simp [Master.stopping,show c.master.flags.terminate = true from hterminate])
  rw [h.terminate_eq x] at hstop ⊢
  split
  · rename_i hsigio
    rw [if_pos hsigio] at hstop
    exact ⟨.inl rfl,le_rfl,fun _ => hstop⟩
  · rename_i hsigio
    exact ⟨.inl rfl,(Nat.sub_le _ _).trans h.sigio,fun _ => h.stopping hsigio⟩

theorem terminate_waits (c : Cycle) (h : c.sigio ≠ 0) (x : Answers) : (c.terminate x).sigio = c.sigio - 1 := by
  unfold terminate
  dsimp only
  rw [apply_ite sigio,if_pos]
  · dsimp only
    split <;> rfl
  · split <;> exact h

theorem act_terminate (h : c.act dd x = .ok (.back c')) (hterminate : c.flags.terminate = true) : c' = c.terminate x := by
  unfold act at h
  split at h
  · cases h
  · cases h
    rfl

/-- A round keeps the pace. -/
theorem Paced.act (h : c.Paced a) (hact : c.act dd x = .ok (.back c')) : c'.Paced a := by
  by_cases hterminate : c.flags.terminate = true
  · rw [act_terminate hact hterminate]
    exact h.terminate hterminate x
  · obtain ⟨hsteady,hconf⟩ := steady_act hact (by simpa using hterminate)
    by_cases hquit : c.flags.quit = true
    · have hstop : c'.master.stopping = true :=
        (act_barren hact (by simp [Master.stopping,show c.master.flags.quit = true from hquit])).stopping
          (by simp [Master.stopping,show c.master.flags.quit = true from hquit])
      exact ⟨hsteady.delay ▸ h.delay,by rw [hsteady.sigio,hconf hquit]; exact h.sigio,fun _ => hstop⟩
    · -- only a master that leaves has a spacing
      have hsigio : c.sigio = 0 := by
        by_contra hne
        have hstop := h.stopping hne
        simp only [Master.stopping,Bool.or_eq_true] at hstop
        exact hstop.elim hterminate hquit
      exact ⟨hsteady.delay ▸ h.delay,by rw [hsteady.sigio,hsigio]; exact Nat.zero_le _,
        fun hne => absurd (hsteady.sigio.trans hsigio) hne⟩

/-- The loop finds the timer run out. -/
def alarmed (c : Cycle) : Bool := c.delay ≠ 0 && c.flags.sigalrm

theorem arm_eq (c : Cycle) : c.arm.conf = c.conf ∧ c.arm.master.stopping = c.master.stopping ∧
    c.arm.delay = (if c.alarmed then c.delay*2 else c.delay) ∧ c.arm.sigio = if c.alarmed then 0 else c.sigio := by
  unfold arm
  have halarmed : (c.delay ≠ 0 ∧ c.flags.sigalrm = true) ↔ c.alarmed = true := by simp [alarmed]
  by_cases h : c.alarmed = true
  · rw [if_pos (halarmed.mpr h)]
    simp [h,setFlags,setMaster,Master.setFlags,Master.stopping,flags]
  · rw [if_neg (mt halarmed.mp h)]
    simp [h]

theorem wake_eq {signals : List Signal} {o : ℕ → Outcome} (h : c.wake signals o = .ok c') :
    c'.conf = c.conf ∧ c'.delay = c.arm.delay ∧ c'.sigio = c.arm.sigio := by
  obtain ⟨s,-,hreap⟩ := bind_ok h
  unfold reap at hreap
  split at hreap
  · obtain ⟨⟨t,live⟩,-,hc⟩ := bind_ok hreap
    cases hc
    exact ⟨c.arm_eq.1,rfl,rfl⟩
  · cases hreap
    exact ⟨c.arm_eq.1,rfl,rfl⟩

/-- A wake-up is an alarm or keeps the pace. -/
theorem Paced.wake {signals : List Signal} {o : ℕ → Outcome} (h : c.Paced a) (hwake : c.wake signals o = .ok c') :
    c'.Paced (a + if c.alarmed then 1 else 0) := by
  obtain ⟨hconf,hdelay,hsigio⟩ := wake_eq hwake
  obtain ⟨-,-,hdelay',hsigio'⟩ := c.arm_eq
  rw [hdelay'] at hdelay
  rw [hsigio'] at hsigio
  by_cases halarm : c.alarmed = true
  · rw [if_pos halarm] at hdelay hsigio
    rw [if_pos halarm]
    have hne : c.delay ≠ 0 := by
      simp only [alarmed,Bool.and_eq_true,decide_eq_true_eq] at halarm
      exact halarm.1
    have hbefore := h.delay.resolve_right fun h => hne h.1
    refine ⟨?_,by omega,by omega⟩
    rw [hdelay,hbefore,delayAfter_succ]
    split
    · exact .inr ⟨rfl,by omega⟩
    · exact .inl rfl
  · rw [if_neg halarm] at hdelay hsigio
    rw [if_neg halarm,Nat.add_zero]
    refine ⟨hdelay ▸ h.delay,by rw [hsigio,hconf]; exact h.sigio,fun hne => ?_⟩
    have hstop := h.stopping (hsigio ▸ hne)
    exact (wake_barren hwake (.inl hstop)).stopping hstop

end Cycle

/-! ### The runs -/

namespace Stage
variable {stage : Stage} {a : ℕ}

def Paced (a : ℕ) : Stage → Prop
  | .asleep c | .awake c => c.Paced a
  | .exited _ => True

/-- The moves that find the timer run out. -/
def alarmed (m : TransitionSystem.Move Stage Turn) : Bool :=
  match m.before with
  | .asleep c => c.alarmed
  | _ => false

/-- The moves that handle the flags. -/
def acts (m : TransitionSystem.Move Stage Turn) : Bool :=
  match m.label with
  | .act _ => true
  | .wake _ _ => false

/-- The moves of a terminating master that broadcast nothing. -/
def Quiet (m : TransitionSystem.Move Stage Turn) : Prop :=
  match m.before with
  | .awake c => c.flags.terminate = true ∧ c.sigio ≠ 0
  | _ => True

instance : (m : TransitionSystem.Move Stage Turn) → Decidable (Quiet m)
  | ⟨.awake c,_,_⟩ => inferInstanceAs (Decidable (c.flags.terminate = true ∧ c.sigio ≠ 0))
  | ⟨.asleep _,_,_⟩ | ⟨.exited _,_,_⟩ => inferInstanceAs (Decidable True)

theorem paced_init {dd : Respawn} (h : (cycling dd).init stage) : stage.Paced 0 := by
  obtain ⟨s,conf,o,c,-,hstart,rfl⟩ := h
  obtain ⟨t,-,hc⟩ := bind_ok hstart
  cases hc
  exact ⟨.inr ⟨rfl,rfl⟩,Nat.zero_le _,fun h => absurd rfl h⟩

/-- Every turn keeps the pace. -/
theorem Paced.turn {dd : Respawn} {m : TransitionSystem.Move Stage Turn} (h : m.before.Paced a)
    (hturn : (cycling dd).step m.before m.label m.after) : m.after.Paced (a + if alarmed m then 1 else 0) := by
  obtain ⟨before,label,after⟩ := m
  cases before with
  | asleep c =>
    cases label with
    | wake signals o =>
      obtain ⟨c',hwake,rfl⟩ := Option.map_eq_some_iff.mp hturn
      exact Cycle.Paced.wake h (toOption_ok hwake)
    | act x => cases hturn
  | awake c =>
    cases label with
    | wake signals o => cases hturn
    | act x =>
      obtain ⟨next,hact,rfl⟩ := Option.map_eq_some_iff.mp hturn
      cases next with
      | back c' => exact Cycle.Paced.act h (toOption_ok hact)
      | exit s => trivial
  | exited s => cases label <;> cases hturn

end Stage

/-- In every run, a round of the loop that terminates and has no broadcast to wait for sends the workers
SIGKILL when the timer has run out five times or more, and SIGTERM before; any other terminating round does
nothing but count. -/
theorem escalates {dd : Respawn} {start stage : Stage} {before after : List (TransitionSystem.Move Stage Turn)}
    {c c' : Cycle} {x : Answers} (hstart : (cycling dd).init start)
    (hrun : (cycling dd).Run start (before ++ ⟨.awake c,.act x,.asleep c'⟩ :: after) stage)
    (hterminate : c.flags.terminate = true) :
    c' = if c.sigio = 0 then
        { c.tell (force (before.countP Stage.alarmed)) (x.tell (force (before.countP Stage.alarmed))) with
          delay := delayAfter (before.countP Stage.alarmed), sigio := c.conf.workerProcesses + 2 }
      else { c with delay := delayAfter (before.countP Stage.alarmed), sigio := c.sigio - 1 } := by
  obtain ⟨t,hbefore,hafter⟩ := hrun.append_inv
  have hpaced : t.Paced (0 + before.countP Stage.alarmed) :=
    hbefore.count_invariant (P := fun _ => True) (fun _ _ _ hturn h => h.turn hturn) (fun _ _ => trivial)
      (Stage.paced_init hstart)
  rw [Nat.zero_add] at hpaced
  cases hafter with
  | cons hturn _ =>
    obtain ⟨next,hact,hnext⟩ := Option.map_eq_some_iff.mp hturn
    cases next with
    | exit s => cases hnext
    | back c₁ =>
      cases hnext
      rw [Cycle.act_terminate (toOption_ok hact) hterminate]
      exact Cycle.Paced.terminate_eq hpaced x

/-- The turns of a master that terminates while its worker stays, and the timer runs out `n` times. -/
def pressing (n : ℕ) : List Turn :=
  [.wake [.terminate] fun _ => ⟨.none,none⟩,.act (answers (oneWorker 12 200) none)] ++
    (List.replicate (n + 1) [.wake [.alrm] fun _ => ⟨.none,none⟩,.act (answers (oneWorker 12 200) none)]).flatten

/-- When the timer has run out five times, the worker gets SIGKILL. -/
theorem escalates_five : ∃ (c c' : Cycle), (cycling .respawn).step (.awake c) (.act (answers (oneWorker 12 200) none)) (.asleep c') ∧
    c'.master = c.master.signalWorkerProcesses .kill (fun _ => ⟨true,.ok⟩) ∧
    c'.master.log.getLast? = some (.kill 0 100 none) := by
  obtain ⟨c₀,hc₀,-⟩ := started
  have hinit : (cycling .respawn).init (.asleep c₀) := ⟨_,_,_,c₀,rfl,hc₀,rfl⟩
  obtain ⟨c,hc⟩ : ∃ c, TransitionSystem.replay (Stage.turn .respawn) (.asleep c₀) (pressing 5).dropLast =
      some (.awake c) := by
    cases hc₀
    exact ⟨_,rfl⟩
  obtain ⟨c',hc'⟩ : ∃ c', Stage.turn .respawn (.awake c) (.act (answers (oneWorker 12 200) none)) =
      some (.asleep c') := by
    cases hc₀
    cases hc
    exact ⟨_,rfl⟩
  have hrun := (TransitionSystem.Run.of_replay (fun stage => ∃ s conf o c, s.lastProcess = 0 ∧
    startCycle s conf o = .ok c ∧ stage = .asleep c) hc).append (.cons hc' (.nil _))
  have hescalates := escalates hinit hrun (by cases hc₀; cases hc; rfl)
  refine ⟨c,c',hc',?_,?_⟩
  · rw [hescalates]
    cases hc₀
    cases hc
    rfl
  · cases hc₀
    cases hc
    cases hc'
    rfl

namespace Stage

/-- What the rounds that broadcast nothing have used up of the spacing. -/
def Spent (bound n : ℕ) : Stage → Prop
  | .asleep c | .awake c => n + c.sigio ≤ bound
  | .exited _ => n ≤ bound

theorem Spent.le {bound n : ℕ} {stage : Stage} (h : stage.Spent bound n) : n ≤ bound := by
  cases stage with
  | exited s => exact h
  | _ c => exact (Nat.le_add_right n c.sigio).trans h

/-- A turn that broadcasts nothing uses up one of the spacing, if it handles the flags. -/
theorem Spent.turn {dd : Respawn} {bound n : ℕ} {m : TransitionSystem.Move Stage Turn} (h : m.before.Spent bound n)
    (hquiet : Quiet m) (hturn : (cycling dd).step m.before m.label m.after) :
    m.after.Spent bound (n + if acts m then 1 else 0) := by
  obtain ⟨before,label,after⟩ := m
  cases before with
  | asleep c =>
    cases label with
    | wake signals o =>
      obtain ⟨c',hwake,rfl⟩ := Option.map_eq_some_iff.mp hturn
      obtain ⟨-,-,hsigio⟩ := Cycle.wake_eq (toOption_ok hwake)
      have hle : c'.sigio ≤ c.sigio := by
        rw [hsigio,c.arm_eq.2.2.2]
        split <;> omega
      exact (Nat.add_le_add_left hle n).trans h
    | act x => cases hturn
  | awake c =>
    cases label with
    | wake signals o => cases hturn
    | act x =>
      obtain ⟨next,hact,rfl⟩ := Option.map_eq_some_iff.mp hturn
      obtain ⟨hterminate,hsigio⟩ := hquiet
      have hspent : n + c.sigio ≤ bound := h
      cases next with
      | back c' =>
        show n + 1 + c'.sigio ≤ bound
        rw [Cycle.act_terminate (toOption_ok hact) hterminate,c.terminate_waits hsigio x]
        omega
      | exit s =>
        show n + 1 ≤ bound
        omega
  | exited s => cases label <;> cases hturn

/-- The workers that the loop knows of. -/
def workerProcesses : Stage → ℕ
  | .asleep c | .awake c => c.conf.workerProcesses
  | .exited _ => 0

end Stage

/-- In every run of a terminating master the rounds between two broadcasts are no more than there are
workers and cache processes, and none of them comes after the timer has run out. -/
theorem broadcast_due {dd : Respawn} {stage stage' : Stage} {moves : List (TransitionSystem.Move Stage Turn)}
    (hreach : (cycling dd).Reachable stage) (hrun : (cycling dd).Run stage moves stage')
    (hquiet : ∀ m ∈ moves, Stage.Quiet m) :
    moves.countP Stage.acts ≤ stage.workerProcesses + 2 ∧
    ∀ before m after, moves = before ++ m :: after → Stage.alarmed m = true → after = [] := by
  have hpaced : ∃ a, stage.Paced a := by
    refine hreach.invariant (I := fun stage => ∃ a, stage.Paced a) (fun _ hinit => ⟨0,Stage.paced_init hinit⟩)
      fun s turn s' _ ⟨a,ha⟩ hstep => ⟨_,ha.turn (m := ⟨s,turn,s'⟩) hstep⟩
  obtain ⟨a,hpaced⟩ := hpaced
  constructor
  · have hspent : stage.Spent (stage.workerProcesses + 2) 0 := by
      cases stage with
      | exited s => exact Nat.zero_le _
      | _ c => exact (Nat.zero_add c.sigio).le.trans hpaced.sigio
    have hend := hrun.count_invariant (c := Stage.acts) (fun _ _ hm hstep h => h.turn hm hstep) hquiet hspent
    rw [Nat.zero_add] at hend
    exact hend.le
  · rintro before ⟨t,label,t'⟩ after rfl halarmed
    obtain ⟨u,-,hrest⟩ := hrun.append_inv
    cases hrest with
    | cons hturn hafter =>
      cases hafter with
      | nil => rfl
      | cons hact _ =>
        have hnext := hquiet _ (List.mem_append_right _ (List.mem_cons_of_mem _ List.mem_cons_self))
        cases t with
        | asleep c =>
          cases label with
          | wake signals o =>
            obtain ⟨c',hwake,rfl⟩ := Option.map_eq_some_iff.mp hturn
            obtain ⟨-,-,hsigio⟩ := Cycle.wake_eq (toOption_ok hwake)
            rw [c.arm_eq.2.2.2,if_pos (show c.alarmed = true from halarmed)] at hsigio
            exact absurd hsigio hnext.2
          | act x => cases hturn
        | _ => cases halarmed

/-- One round that waits, until the timer runs out. -/
theorem broadcast_due_alarm : ∃ (stage stage' : Stage) (moves : List (TransitionSystem.Move Stage Turn)),
    (cycling .respawn).Reachable stage ∧ (cycling .respawn).Run stage moves stage' ∧ stage.workerProcesses = 1 ∧
    moves.countP Stage.acts = 1 ∧ moves.countP Stage.alarmed = 1 ∧ moves.countP Stage.acts ≤ 3 := by
  obtain ⟨c₀,hc₀,hreach,-⟩ := started
  obtain ⟨stage,hstage⟩ : ∃ stage, TransitionSystem.replay (Stage.turn .respawn) (.asleep c₀)
      ((pressing 1).take 2) = some stage := by
    cases hc₀
    exact ⟨_,rfl⟩
  obtain ⟨stage',hstage'⟩ : ∃ stage', TransitionSystem.replay (Stage.turn .respawn) stage
      (((pressing 1).drop 2).take 3) = some stage' := by
    cases hc₀
    cases hstage
    exact ⟨_,rfl⟩
  have hreach' : (cycling .respawn).Reachable stage := .of_replay hreach hstage
  have hrun := TransitionSystem.Run.of_replay (fun stage => ∃ s conf o c, s.lastProcess = 0 ∧
    startCycle s conf o = .ok c ∧ stage = .asleep c) hstage'
  refine ⟨stage,stage',_,hreach',hrun,?_,?_,?_,(broadcast_due hreach' hrun ?_).1.trans ?_⟩
  all_goals
    cases hc₀
    cases hstage
  · rfl
  · rfl
  · rfl
  · exact of_decide_eq_true rfl
  · decide

end InsideNginx.Process
