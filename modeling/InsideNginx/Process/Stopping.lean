import InsideNginx.Process.Live
import InsideNginx.Process.Telling

/-! Once the master has been told to terminate or to quit, it spawns no process any more. -/
namespace InsideNginx.Process

def Event.isSpawn : Event → Bool
  | .spawn _ => true
  | _ => false

namespace Master
variable {s s' : Master}

/-- A part of a run that calls `ngx_spawn_process` nowhere, and keeps the order to leave. -/
structure Barren (s s' : Master) : Prop where
  log : ∃ events, s'.log = s.log ++ events ∧ ∀ e ∈ events, e.isSpawn = false
  stopping : s.stopping = true → s'.stopping = true

theorem Barren.refl (s : Master) : Barren s s := ⟨⟨[],by simp,by simp⟩,id⟩

theorem Barren.trans {t : Master} (h : Barren s t) (h' : Barren t s') : Barren s s' := by
  obtain ⟨xs,hxs,hall⟩ := h.log
  obtain ⟨ys,hys,hall'⟩ := h'.log
  refine ⟨⟨xs ++ ys,by rw [hys,hxs,List.append_assoc],fun e he => ?_⟩,fun hs => h'.stopping (h.stopping hs)⟩
  exact (List.mem_append.mp he).elim (hall e) (hall' e)

theorem barren_setFlags {flags : Flags} (h : s.stopping = true → (s.setFlags flags).stopping = true) :
    Barren s (s.setFlags flags) := ⟨⟨[],by simp [setFlags],by simp⟩,h⟩

theorem Noted.barren (h : Noted s s') : Barren s s' := by
  obtain ⟨events,hlog,hall⟩ := h.log
  refine ⟨⟨events,hlog,fun e he => ?_⟩,h.stopping⟩
  obtain ⟨pid,rfl⟩ := hall e he
  rfl

theorem isSpawn_attempt {p : Entry} {signo : Signo} {i : ℕ} {d : Delivery} {e : Event}
    (h : e ∈ p.attempt signo i d) : e.isSpawn = false := by
  unfold Entry.attempt at h
  split at h
  · obtain rfl := List.mem_singleton.mp h
    rfl
  · split at h <;> simp at h <;> rcases h with rfl | rfl <;> rfl

theorem barren_signalWorkerProcesses (s : Master) (signo : Signo) (d : ℕ → Delivery) :
    Barren s (s.signalWorkerProcesses signo d) := by
  obtain ⟨-,-,-,-,hstop,hlog⟩ := signalWorkerProcesses_told s signo d
  refine ⟨⟨_,hlog,fun e he => ?_⟩,fun hs => hstop ▸ hs⟩
  obtain ⟨i,-,hi⟩ := List.mem_flatMap.mp he
  exact isSpawn_attempt hi

end Master

/-! ### Reaping -/

namespace Reaping
variable {r r' : Reaping} {i : ℕ} {o : Outcome}

theorem slot_stopping (h : r.slot i o = .ok r') : r'.master.stopping = r.master.stopping := by
  rcases slot_cases h with ⟨-,rfl⟩ | ⟨-,-,rfl⟩ | ⟨-,-,r₁,hr₁,hcases⟩
  · rfl
  · rfl
  have hflags : r₁.master.flags = r.master.flags := by
    split at hr₁
    · rw [hr₁]
    · rw [hr₁,(r.passClose_closed i).flags]
  unfold Master.stopping
  rw [← hflags]
  rcases hcases with ⟨-,hrespawn⟩ | ⟨-,rfl⟩
  · rcases respawn_cases hrespawn with ⟨-,s,hfails,rfl⟩ | ⟨pid,p,s,-,hforks,rfl⟩
    · rw [hfails.flags]
    · exact congrArg (fun flags : Flags => flags.terminate || flags.quit) hforks.flags
  · obtain ⟨hterminate,hquit⟩ := r₁.drop_flags i
    rw [hterminate,hquit]

/-- A master that leaves does not respawn. -/
theorem slot_barren (h : r.slot i o = .ok r') (hstop : r.master.stopping = true) :
    Master.Barren r.master r'.master := by
  refine ⟨?_,fun hs => (slot_stopping h).trans hs⟩
  rcases slot_cases h with ⟨-,rfl⟩ | ⟨-,-,rfl⟩ | ⟨-,-,r₁,hr₁,hcases⟩
  · exact (Master.Barren.refl _).log
  · exact (Master.Barren.refl r.master).log
  have hclose : (∃ events, r₁.master.log = r.master.log ++ events ∧ ∀ e ∈ events, e.isSpawn = false) ∧
      r₁.master.flags = r.master.flags := by
    split at hr₁
    · subst hr₁
      exact ⟨(Master.Barren.refl _).log,rfl⟩
    · subst hr₁
      refine ⟨⟨_,by simp [passClose,Master.closeChannel,Master.emit,Master.setChannel,Master.setEntry]; rfl,?_⟩,
        (r.passClose_closed i).flags⟩
      intro e he
      simp only [List.mem_cons,List.mem_map] at he
      obtain rfl | rfl | rfl | ⟨n,-,rfl⟩ := he <;> rfl
  rcases hcases with ⟨hrespawns,-⟩ | ⟨-,rfl⟩
  · simp only [respawns,hclose.2,Bool.and_eq_true,Bool.not_eq_true'] at hrespawns
    simp [Master.stopping,hrespawns] at hstop
  · rw [(r₁.drop_cases i).2.1]
    exact hclose.1

theorem slots_stopping {os : ℕ → Outcome} {n : ℕ} (h : slots os n i r = .ok r') :
    r'.master.stopping = r.master.stopping := by
  induction n generalizing i r with
  | zero =>
    cases h
    rfl
  | succ n ih =>
    unfold slots at h
    split at h
    · obtain ⟨r₁,hslot,hrest⟩ := bind_ok h
      exact (ih hrest).trans (slot_stopping hslot)
    · cases h
      rfl

theorem slots_barren {os : ℕ → Outcome} {n : ℕ} (h : slots os n i r = .ok r') (hstop : r.master.stopping = true) :
    Master.Barren r.master r'.master := by
  induction n generalizing i r with
  | zero =>
    cases h
    exact .refl _
  | succ n ih =>
    unfold slots at h
    split at h
    · obtain ⟨r₁,hslot,hrest⟩ := bind_ok h
      have hbarren := slot_barren hslot hstop
      exact hbarren.trans (ih hrest (hbarren.stopping hstop))
    · cases h
      exact .refl _

end Reaping

/-! ### The loop -/

namespace Cycle
variable {c c' : Cycle} {x : Answers} {dd : Respawn}

/-- The reaping keeps the order to leave, and does not respawn once it is given. -/
theorem reap_barren {o : ℕ → Outcome} (h : c.reap o = .ok c') : c'.master.stopping = c.master.stopping ∧
    (c.master.stopping = true → Master.Barren c.master c'.master) := by
  unfold reap at h
  split at h
  · obtain ⟨⟨s,live⟩,hpass,hs⟩ := bind_ok h
    cases hs
    obtain ⟨r,hslots,hr⟩ := bind_ok hpass
    cases hr
    have hflags : Master.Barren c.master (c.master.setFlags { c.flags with reap := false }) :=
      Master.barren_setFlags id
    exact ⟨Reaping.slots_stopping hslots,fun hstop => hflags.trans (Reaping.slots_barren hslots hstop)⟩
  · cases h
    exact ⟨rfl,fun _ => .refl _⟩

/-- The iteration that finds the order to leave reaps without respawning. -/
theorem wake_barren {signals : List Signal} {o : ℕ → Outcome} (h : c.wake signals o = .ok c')
    (hstop : c.master.stopping = true ∨ c'.master.stopping = true) : Master.Barren c.master c'.master := by
  obtain ⟨s,hsignals,hreap⟩ := bind_ok h
  have harm : Master.Barren c.master c.arm.master := by
    unfold arm
    split
    · exact Master.barren_setFlags id
    · exact .refl _
  have hs : Master.Barren c.master s := harm.trans (Master.noted_signals hsignals).barren
  obtain ⟨hsame,hbarren⟩ := reap_barren hreap
  exact hs.trans (hbarren (hstop.elim hs.stopping fun hstop => hsame.symm.trans hstop))

theorem terminate_barren (c : Cycle) (x : Answers) : Master.Barren c.master (c.terminate x).master := by
  unfold terminate
  have hdelay : (if c.delay = 0 then { c with delay := 50 } else c).master = c.master := by split <;> rfl
  generalize (if c.delay = 0 then { c with delay := 50 } else c) = c₁ at hdelay
  rw [← hdelay]
  dsimp only
  split
  · exact .refl _
  · split
    · exact Master.barren_signalWorkerProcesses _ _ _
    · exact Master.barren_signalWorkerProcesses _ _ _

/-- A round of a master that has been told to leave. -/
theorem act_barren {next : Next} (h : c.act dd x = .ok next) (hstop : c.master.stopping = true) :
    match next with
    | .back c' => Master.Barren c.master c'.master
    | .exit s => Master.Barren c.master s := by
  unfold act at h
  split at h
  · cases h
    exact .refl _
  split at h
  · cases h
    exact c.terminate_barren x
  rename_i hterminate
  split at h
  · cases h
    exact Master.barren_signalWorkerProcesses _ _ _
  rename_i hquit
  simp only [flags,Bool.not_eq_true] at hterminate hquit
  simp [Master.stopping,hterminate,hquit] at hstop

end Cycle

namespace Stage

/-- The master at a stage. -/
def master : Stage → Master
  | .asleep c | .awake c => c.master
  | .exited s => s

/-- A step of a master that has been told to leave. -/
theorem turn_barren {dd : Respawn} {stage stage' : Stage} {turn : Turn}
    (h : stage.turn dd turn = some stage') (hstop : stage.master.stopping = true) :
    Master.Barren stage.master stage'.master := by
  cases stage with
  | asleep c =>
    cases turn with
    | wake signals o =>
      obtain ⟨c',hwake,rfl⟩ := Option.map_eq_some_iff.mp h
      exact Cycle.wake_barren (toOption_ok hwake) (.inl hstop)
    | act x => cases h
  | awake c =>
    cases turn with
    | wake signals o => cases h
    | act x =>
      obtain ⟨next,hact,rfl⟩ := Option.map_eq_some_iff.mp h
      have hnext := Cycle.act_barren (toOption_ok hact) hstop
      cases next with
      | back c' => exact hnext
      | exit s => exact hnext
  | exited s => cases turn <;> cases h

end Stage

/-- Once a wake-up leaves the master with the order to terminate or to quit, the master calls
`ngx_spawn_process` no more: not in the reaping of that wake-up, and not later in the run. -/
theorem no_spawn_once_stopping {dd : Respawn} {c c' : Cycle} {signals : List Signal} {o : ℕ → Outcome}
    {moves : List (TransitionSystem.Move Stage Turn)} {stage : Stage}
    (hwake : (cycling dd).step (.asleep c) (.wake signals o) (.awake c'))
    (hstop : c'.flags.terminate = true ∨ c'.flags.quit = true) (hrun : (cycling dd).Run (.awake c') moves stage) :
    ∃ events, stage.master.log = c.master.log ++ events ∧ ∀ mode, .spawn mode ∉ events := by
  have hstopping : c'.master.stopping = true := by simpa [Master.stopping,Cycle.flags] using hstop
  obtain ⟨c₁,hc₁,heq⟩ := Option.map_eq_some_iff.mp hwake
  cases heq
  have hfirst := Cycle.wake_barren (toOption_ok hc₁) (.inr hstopping)
  have hall : Master.Barren c.master stage.master ∧ stage.master.stopping = true :=
    hrun.invariant (I := fun stage => Master.Barren c.master stage.master ∧ stage.master.stopping = true)
      (P := fun _ => True) (fun m _ hstep hm =>
        have hturn := Stage.turn_barren hstep hm.2
        ⟨hm.1.trans hturn,hturn.stopping hm.2⟩) (fun _ _ => trivial) ⟨hfirst,hstopping⟩
  obtain ⟨events,hlog,hbarren⟩ := hall.1.log
  exact ⟨events,hlog,fun mode hmode => Bool.noConfusion (hbarren _ hmode)⟩

/-- The order to leave comes together with a request to reconfigure; the worker is told to quit, and
its exit, which a later wake-up reports beside a request to change the binary, brings no successor. -/
theorem no_spawn_once_stopping_quit : ∃ (c c' : Cycle) (s : Master),
    (cycling .respawn).step (.asleep c) (.wake [.shutdown,.reconfigure] fun _ => ⟨.none,none⟩) (.awake c') ∧
    (cycling .respawn).Reachable (.exited s) ∧
    ∃ events, s.log = c.master.log ++ events ∧ events ≠ [] ∧ ∀ mode, .spawn mode ∉ events := by
  obtain ⟨c,hc,hreach,-⟩ := started
  obtain ⟨c',hc'⟩ : ∃ c', Stage.turn .respawn (.asleep c) (.wake [.shutdown,.reconfigure] fun _ => ⟨.none,none⟩) =
      some (.awake c') := by
    cases hc
    exact ⟨_,rfl⟩
  obtain ⟨s,hs⟩ : ∃ s, TransitionSystem.replay (Stage.turn .respawn) (.awake c')
      [.act (answers (oneWorker 12 200) none),.wake [.changebin false,.chld [.child 100 0]] fun _ => ⟨.none,none⟩,
        .act (answers (oneWorker 12 200) none)] = some (.exited s) := by
    cases hc
    cases hc'
    exact ⟨_,rfl⟩
  obtain ⟨events,hlog,hspawn⟩ := no_spawn_once_stopping
    (show (cycling .respawn).step (.asleep c) _ (.awake c') from hc')
    (by cases hc; cases hc'; exact .inr rfl) (.of_replay _ hs)
  refine ⟨c,c',s,hc',.of_replay (.step hreach hc') hs,events,hlog,?_,hspawn⟩
  rintro rfl
  have hlength := congrArg List.length hlog
  cases hc
  cases hc'
  cases hs
  revert hlength
  decide

end InsideNginx.Process
