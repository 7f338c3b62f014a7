import InsideNginx.Process.Fleet
import InsideNginx.Process.Stopping

/-! The loop of the master is a run of the calls of a fleet: whatever the loop does, a fleet does too, with
its processes running in between as they like. -/
namespace InsideNginx.Process

/-- A call as a step; `none` when it may not be made, or leaves the defined behaviour of C. -/
def Call.step (s : Run) (c : Call) : Option Run := if c.Allowed s then (c.run s).toOption else none

/-- Any fleet makes the calls that its master makes, whatever can be written. -/
theorem Fleet.step_call (f : Fleet) (c : Call) (written : ℕ → Channel → Bool) :
    f.step (.call c written) = (Call.step f.run c).map fun run => f.call run (c.wire written) := by
  simp only [Fleet.step,Call.step]
  split <;> simp

namespace Master
variable {s t s' : Master} {dd : Respawn}

/-- The master comes from one state to another by calls. -/
def Leads (s s' : Master) : Prop :=
  ∃ cs : List Call, TransitionSystem.replay Call.step ⟨s,.asleep⟩ cs = some ⟨s',.asleep⟩

theorem Leads.refl (s : Master) : s.Leads s := ⟨[],rfl⟩

theorem replay_append {xs ys : List Call} {s t u : Run} (h : TransitionSystem.replay Call.step s xs = some t)
    (h' : TransitionSystem.replay Call.step t ys = some u) : TransitionSystem.replay Call.step s (xs ++ ys) = some u := by
  induction xs generalizing s with
  | nil =>
    cases h
    exact h'
  | cons x xs ih =>
    obtain ⟨v,hv,hrest⟩ := Option.bind_eq_some_iff.mp h
    exact Option.bind_eq_some_iff.mpr ⟨v,hv,ih hrest⟩

theorem Leads.trans (h : s.Leads t) (h' : t.Leads s') : s.Leads s' := by
  obtain ⟨xs,hxs⟩ := h
  obtain ⟨ys,hys⟩ := h'
  exact ⟨xs ++ ys,replay_append hxs hys⟩

theorem leads_call {c : Call} (hallowed : c.Allowed ⟨s,.asleep⟩) (h : c.run ⟨s,.asleep⟩ = .ok ⟨s',.asleep⟩) : s.Leads s' := by
  refine ⟨[c],?_⟩
  simp [TransitionSystem.replay,Call.step,hallowed,h,Except.toOption]

theorem leads_setFlags (s : Master) (flags : Flags) : s.Leads (s.setFlags flags) :=
  leads_call (c := .flags flags) rfl rfl

theorem leads_startWorker {mode : Respawn} {o : Outcome} (hmode : mode.isSlot = false) (h : s.startWorker mode o = .ok s') :
    s.Leads s' := by
  refine leads_call (c := .start mode o) ⟨rfl,hmode⟩ ?_
  simp [Call.run,h,bind,Except.bind,pure,Except.pure]

theorem leads_execute {o : Outcome} {child : Option Child} (h : s.spawnProcess .detached o = .ok (s',child)) :
    s.Leads s' := by
  refine leads_call (c := .execute o) rfl ?_
  simp [Call.run,Run.run,h,bind,Except.bind,pure,Except.pure]

theorem leads_startProcesses {conf : Conf} {mode : Respawn} {respawn : Bool} {o : Starts} (hmode : mode.isSlot = false)
    (h : s.startProcesses conf mode respawn o = .ok s') : s.Leads s' := by
  refine startProcesses_rule (I := s.Leads) (P := fun mode => mode.isSlot = false) hmode ?_ ?_
    (fun hs hmode hstart => hs.trans (leads_startWorker hmode hstart)) (.refl s) h
  · cases respawn <;> rfl
  · cases respawn <;> rfl

theorem leads_processGetStatus {waits : List Wait} (h : s.processGetStatus waits = .ok s') : s.Leads s' := by
  induction waits generalizing s with
  | nil =>
    cases h
    exact .refl _
  | cons wait waits ih =>
    cases wait with
    | interrupted => exact ih h
    | child pid status =>
      obtain ⟨t,ht,hrest⟩ := bind_ok h
      refine Leads.trans (leads_call (c := .exit pid status) rfl ?_) (ih hrest)
      simp [Call.run,Run.run,processGetStatus,ht,bind,Except.bind,pure,Except.pure]
    | _ =>
      cases h
      exact .refl _

theorem leads_signalHandler {signal : Signal} (h : s.signalHandler signal = .ok s') : s.Leads s' := by
  cases signal with
  | chld waits => exact (leads_setFlags s _).trans (leads_processGetStatus h)
  | noaccept =>
    cases h
    split
    · exact leads_setFlags s _
    · exact .refl s
  | changebin parentRuns =>
    cases h
    split
    · exact .refl s
    · exact leads_setFlags s _
  | _ =>
    cases h
    exact leads_setFlags s _

theorem leads_signals {signals : List Signal} (h : signals.foldlM signalHandler s = .ok s') : s.Leads s' := by
  induction signals generalizing s with
  | nil =>
    cases h
    exact .refl _
  | cons signal signals ih =>
    obtain ⟨t,ht,hrest⟩ := bind_ok h
    exact (leads_signalHandler ht).trans (ih hrest)

theorem leads_signalWorkerProcesses (s : Master) (signo : Signo) (d : ℕ → Delivery) :
    s.Leads (s.signalWorkerProcesses signo d) := by
  unfold signalWorkerProcesses
  have hrounds : ∀ n ≤ s.lastProcess, s.Leads ((List.range n).foldl (fun s i => s.signalWorker signo i (d i)) s) := by
    intro n hn
    induction n with
    | zero => exact .refl s
    | succ n ih =>
      rw [List.range_succ,List.foldl_append,List.foldl_cons,List.foldl_nil]
      refine (ih (by omega)).trans (leads_call (c := .tell signo n (d n)) ⟨rfl,?_⟩ rfl)
      rw [(rounds_told s signo d n rfl).2.2.2.2.1]
      exact hn
  exact hrounds _ le_rfl

/-- A pass over the slots from one of them on. -/
theorem replay_slots {o : ℕ → Outcome} {n i : ℕ} {r r' : Reaping} (h : Reaping.slots o n i r = .ok r')
    (hn : r.master.lastProcess ≤ i + n) : ∃ cs : List Call,
      TransitionSystem.replay Call.step ⟨r.master,.reaping i r.ch r.live⟩ cs = some ⟨r'.master,.asleep⟩ := by
  induction n generalizing i r with
  | zero =>
    cases h
    refine ⟨[.reaped],?_⟩
    have hdone : Call.Allowed ⟨r'.master,.reaping i r'.ch r'.live⟩ .reaped := ⟨i,rfl,hn⟩
    simp [TransitionSystem.replay,Call.step,hdone,Call.run,Run.run,Except.toOption]
  | succ n ih =>
    unfold Reaping.slots at h
    split at h
    · rename_i hi
      obtain ⟨r₁,hslot,hrest⟩ := bind_ok h
      have hlast := (Reaping.slot_seen hslot).1
      obtain ⟨cs,hcs⟩ := ih hrest (by omega)
      refine ⟨.slot (o i)::cs,?_⟩
      have hallowed : Call.Allowed ⟨r.master,.reaping i r.ch r.live⟩ (.slot (o i)) := ⟨i,rfl,hi⟩
      simp only [TransitionSystem.replay,Call.step,hallowed,if_true,Call.run,Run.run,hslot,bind,Except.bind,pure,
        Except.pure,Except.toOption,Option.bind_some,hcs]
    · rename_i hi
      cases h
      refine ⟨[.reaped],?_⟩
      have hdone : Call.Allowed ⟨r'.master,.reaping i r'.ch r'.live⟩ .reaped := ⟨i,rfl,not_lt.mp hi⟩
      simp [TransitionSystem.replay,Call.step,hdone,Call.run,Run.run,Except.toOption]

theorem leads_reapChildren {o : ℕ → Outcome} {live : Bool} (h : s.reapChildren o = .ok (s',live)) : s.Leads s' := by
  obtain ⟨r,hslots,hr⟩ := bind_ok h
  cases hr
  obtain ⟨cs,hcs⟩ := replay_slots hslots (Nat.le_add_left _ _)
  refine ⟨.reap::cs,?_⟩
  have hallowed : Call.Allowed ⟨s,.asleep⟩ .reap := rfl
  simp only [TransitionSystem.replay,Call.step,hallowed,if_true,Call.run,Run.run,Except.toOption,Option.bind_some]
  exact hcs

end Master

namespace Cycle
variable {c c' : Cycle} {dd : Respawn} {x : Answers}

theorem leads_wake {signals : List Signal} {o : ℕ → Outcome} (h : c.wake signals o = .ok c') :
    c.master.Leads c'.master := by
  obtain ⟨s,hsignals,hreap⟩ := bind_ok h
  have harm : c.master.Leads c.arm.master := by
    unfold arm
    split
    · exact Master.leads_setFlags _ _
    · exact .refl _
  refine (harm.trans (Master.leads_signals hsignals)).trans ?_
  unfold reap at hreap
  split at hreap
  · obtain ⟨⟨t,live⟩,hpass,hc'⟩ := bind_ok hreap
    cases hc'
    exact (Master.leads_setFlags _ _).trans (Master.leads_reapChildren hpass)
  · cases hreap
    exact .refl _

theorem leads_rest (hdd : dd.isSlot = false) (h : c.rest dd x = .ok c') : c.master.Leads c'.master := by
  obtain ⟨c₁,hrestart,hrest⟩ := bind_ok h
  obtain ⟨c₂,hchange,hc'⟩ := bind_ok hrest
  cases hc'
  have h₁ : c.master.Leads c₁.master := by
    unfold restart at hrestart
    split at hrestart
    · obtain ⟨s,hstart,hc₁⟩ := bind_ok hrestart
      cases hc₁
      exact (Master.leads_setFlags _ _).trans (Master.leads_startProcesses hdd hstart)
    · cases hrestart
      exact .refl _
  have h₂ : c₁.master.Leads (c₁.reopen x).master := by
    unfold reopen
    split
    · exact (Master.leads_setFlags _ _).trans (Master.leads_signalWorkerProcesses _ _ _)
    · exact .refl _
  have h₃ : (c₁.reopen x).master.Leads c₂.master := by
    unfold changeBinary at hchange
    split at hchange
    · dsimp only at hchange
      split at hchange
      · cases hchange
        exact (Master.leads_setFlags _ _).trans (Master.leads_setFlags _ _)
      · rename_i o _
        obtain ⟨⟨s,child⟩,hspawn,hc₂⟩ := bind_ok hchange
        cases hc₂
        exact (Master.leads_setFlags _ _).trans ((Master.leads_execute hspawn).trans (Master.leads_setFlags s _))
    · cases hchange
      exact .refl _
  refine ((h₁.trans h₂).trans h₃).trans ?_
  unfold noaccept
  split
  · exact (Master.leads_setFlags _ _).trans (Master.leads_signalWorkerProcesses _ _ _)
  · exact .refl _

theorem leads_terminate (c : Cycle) (x : Answers) : c.master.Leads (c.terminate x).master := by
  simp only [terminate]
  split_ifs <;> first | exact .refl _ | exact Master.leads_signalWorkerProcesses _ _ _

theorem leads_act (hdd : dd.isSlot = false) {next : Next} (h : c.act dd x = .ok next) :
    c.master.Leads (match next with | .back c => c.master | .exit s => s) := by
  unfold act at h
  split at h
  · cases h
    exact .refl _
  split at h
  · cases h
    exact leads_terminate c x
  split at h
  · cases h
    exact Master.leads_signalWorkerProcesses _ _ _
  split at h
  · refine (Master.leads_setFlags c.master { c.flags with reconfigure := false }).trans ?_
    dsimp only at h
    split at h
    · obtain ⟨c',hupgrade,hnext⟩ := bind_ok h
      cases hnext
      obtain ⟨s,hstart,hc'⟩ := bind_ok hupgrade
      cases hc'
      exact (Master.leads_startProcesses rfl hstart).trans (Master.leads_setFlags _ _)
    · split at h
      · cases h
        exact .refl _
      · obtain ⟨c₁,hreload,hnext⟩ := bind_ok h
        obtain ⟨c₂,hrest,hc₂⟩ := bind_ok hnext
        cases hc₂
        obtain ⟨s,hstart,hc₁⟩ := bind_ok hreload
        cases hc₁
        exact ((Master.leads_startProcesses rfl hstart).trans (Master.leads_signalWorkerProcesses _ _ _)).trans
          (leads_rest hdd hrest)
  · obtain ⟨c',hrest,hnext⟩ := bind_ok h
    cases hnext
    exact leads_rest hdd hrest

end Cycle

namespace Stage

/-- A turn of the loop is a run of calls. -/
theorem leads_turn {dd : Respawn} (hdd : dd.isSlot = false) {stage stage' : Stage} {turn : Turn}
    (h : stage.turn dd turn = some stage') : stage.master.Leads stage'.master := by
  cases stage with
  | asleep c =>
    cases turn with
    | wake signals o =>
      obtain ⟨c',hwake,rfl⟩ := Option.map_eq_some_iff.mp h
      exact Cycle.leads_wake (toOption_ok hwake)
    | act x => cases h
  | awake c =>
    cases turn with
    | wake signals o => cases h
    | act x =>
      obtain ⟨next,hact,rfl⟩ := Option.map_eq_some_iff.mp h
      have hleads := Cycle.leads_act hdd (toOption_ok hact)
      cases next <;> exact hleads
  | exited s => cases turn <;> cases h

end Stage

/-- What calls make of a fleet with the master of the calls. -/
theorem Fleet.replay_calls {cs : List Call} {s : Run} (written : ℕ → Channel → Bool) {f : Fleet}
    (h : TransitionSystem.replay Call.step f.run cs = some s) :
    ∃ f', TransitionSystem.replay Fleet.step f (cs.map (.call · written)) = some f' ∧ f'.run = s := by
  induction cs generalizing f with
  | nil =>
    cases h
    exact ⟨f,rfl,rfl⟩
  | cons c cs ih =>
    obtain ⟨run,hrun,hrest⟩ := Option.bind_eq_some_iff.mp h
    obtain ⟨f',hf',heq⟩ := ih (f := f.call run (c.wire written)) hrest
    refine ⟨f',Option.bind_eq_some_iff.mpr ⟨f.call run (c.wire written),?_,hf'⟩,heq⟩
    rw [Fleet.step_call,hrun]
    rfl

/-- The loop of the master, with whatever its processes have done up to now: each of its turns is a run of
calls of the fleet. -/
theorem turn_sails {dd : Respawn} (hdd : dd.isSlot = false) {stage stage' : Stage} {turn : Turn}
    (h : stage.turn dd turn = some stage') (written : ℕ → Channel → Bool) {f : Fleet}
    (hrun : f.run = ⟨stage.master,.asleep⟩) :
    ∃ moves f', sailing.Run f moves f' ∧ (∀ m ∈ moves, ∃ c, m.label = .call c written) ∧
      f'.run = ⟨stage'.master,.asleep⟩ := by
  obtain ⟨cs,hcs⟩ := Stage.leads_turn hdd h
  obtain ⟨f',hreplay,hf'⟩ := Fleet.replay_calls written (hrun ▸ hcs)
  refine ⟨_,f',TransitionSystem.Run.of_replay _ hreplay,fun m hm => ?_,hf'⟩
  obtain ⟨c,-,hc⟩ := List.mem_map.mp (TransitionSystem.label_mem hm)
  exact ⟨c,hc.symm⟩

/-- Every stage that the loop of the master reaches is one of a fleet, and from then on every fleet whose
master has come there follows the turns of the loop by calls, whatever its processes have done and whatever
of the messages can be written. -/
theorem cycling_sails {dd : Respawn} (hdd : dd.isSlot = false) {stage : Stage} (h : (cycling dd).Reachable stage) :
    (∃ f, sailing.Reachable f ∧ f.run = ⟨stage.master,.asleep⟩) ∧
    ∀ turn stage', stage.turn dd turn = some stage' → ∀ written f, f.run = ⟨stage.master,.asleep⟩ →
      ∃ moves f', sailing.Run f moves f' ∧ (∀ m ∈ moves, ∃ c, m.label = .call c written) ∧
        f'.run = ⟨stage'.master,.asleep⟩ := by
  refine ⟨?_,fun turn stage' hturn written f hrun => turn_sails hdd hturn written hrun⟩
  induction h with
  | init hinit =>
    obtain ⟨s,conf,o,c,hlast,hstart,rfl⟩ := hinit
    obtain ⟨t,hprocesses,hc⟩ := bind_ok hstart
    cases hc
    obtain ⟨cs,hcs⟩ := (Master.leads_startProcesses rfl hprocesses).trans (Master.leads_setFlags t _)
    obtain ⟨f',hreplay,hf'⟩ := Fleet.replay_calls (f := ⟨⟨s,.asleep⟩,fun _ => none⟩) (fun _ _ => true) hcs
    exact ⟨f',TransitionSystem.Reachable.of_replay (.init ⟨hlast,rfl,rfl⟩) hreplay,hf'⟩
  | step _ hturn ih =>
    obtain ⟨f,hf,hrun⟩ := ih
    obtain ⟨moves,f',hmoves,-,hf'⟩ := turn_sails hdd hturn (fun _ _ => true) hrun
    exact ⟨f',hmoves.reachable hf,hf'⟩

/-- A master that is told to quit: a fleet with its master follows the wake-up. -/
theorem cycling_sails_quit : ∃ (c c' : Cycle) (f f' : Fleet) (moves : List (TransitionSystem.Move Fleet Deed)),
    (cycling .respawn).step (.asleep c) (.wake [.shutdown] fun _ => ⟨.none,none⟩) (.awake c') ∧
    sailing.Reachable f ∧ f.run.master = c.master ∧ sailing.Run f moves f' ∧ f'.run.master = c'.master ∧
    f'.run.master.flags.quit = true := by
  obtain ⟨c,hc,hreach,-⟩ := started
  obtain ⟨c',hc'⟩ : ∃ c', Stage.turn .respawn (.asleep c) (.wake [.shutdown] fun _ => ⟨.none,none⟩) =
      some (.awake c') := by
    cases hc
    exact ⟨_,rfl⟩
  obtain ⟨⟨f,hf,hrun⟩,hfollows⟩ := cycling_sails rfl hreach
  obtain ⟨moves,f',hmoves,-,hrun'⟩ := hfollows _ _ hc' (fun _ _ => true) f hrun
  have hmaster : f'.run.master = c'.master := by rw [hrun']; rfl
  refine ⟨c,c',f,f',moves,hc',hf,by rw [hrun]; rfl,hmoves,hmaster,?_⟩
  rw [hmaster]
  cases hc
  cases hc'
  rfl

end InsideNginx.Process
