import InsideNginx.Cycle.OldCycles
import InsideNginx.Process.Fleet

/-! A worker process from its start to its exit: the loop of `ngx_worker_process_cycle` with the timers, the
connections and the messages that the handlers of its events work with, and the timer of its shutdown. -/
namespace InsideNginx.Process
open InsideNginx.EventTimer InsideNginx.Cycle

/-- The flags of a read event. -/
structure ReadEvent where
  accept : Bool
  channel : Bool
  resolver : Bool
  deriving DecidableEq, Repr

/-- `ngx_connection_t`; `read` is `none` for NULL. -/
structure Connection where
  fd : ℤ
  read : Option ReadEvent
  close : Bool
  error : Bool
  deriving DecidableEq, Repr

/-- A connection that the shutdown waits for. -/
def Connection.counts (c : Connection) : Bool :=
  c.fd != -1 && c.read.any fun read => !read.accept && !read.channel && !read.resolver

/-- Where the process is: at the head of the loop, in `ngx_process_events_and_timers`, there in the loop of
`ngx_shutdown_timer_handler`, or past `ngx_worker_process_exit`. -/
inductive WorkStage
  | head
  | events
  | shutdown (i : ℕ)
  | exited
  deriving DecidableEq, Repr

/-- The process. `heard` records the commands of its messages and signals, `closings` the calls of
`ngx_close_listening_sockets`, `arms` and `fires` when the shutdown timer was set and when it came up, and
`told` the connections whose handlers `ngx_shutdown_timer_handler` has called. -/
structure Working (w : ℕ) (ε : Type) where
  mate : Mate
  timers : Timers w ε
  cancelable : ε → Bool
  connections : List Connection
  stage : WorkStage
  heard : List Command
  closings : ℕ
  arms : List (BitVec w)
  fires : List (BitVec w)
  told : List ℕ

/-- A step: the head of the loop, what follows the events, a message, a signal, or an event handler that works
with its timers and with the connections. -/
inductive WorkAction (w : ℕ) (ε : Type)
  | head
  | turn
  | read
  | interrupt (command : Command)
  | timer (a : EventTimer.Action w ε)
  | mark (e : ε) (cancelable : Bool)
  | connection (i : ℕ) (c : Connection)
  | fire
  | tell

namespace Working
variable {w : ℕ} {ε : Type} [DecidableEq ε] (shutdown : ε) (timeout : BitVec w)

/-- `ngx_set_shutdown_timer`; `timeout` is `shutdown_timeout`, and `shutdown` the event. -/
def setShutdownTimer (s : Working w ε) : Except Misuse (Working w ε) :=
  if timeout = 0 then .ok s
  else (s.timers.addTimer shutdown timeout).map fun timers => { s with
    timers := timers
    cancelable := Function.update s.cancelable shutdown true
    arms := s.arms ++ [s.timers.currentMsec] }

/-- The loop of `ngx_worker_process_cycle` after `ngx_process_events_and_timers`. -/
def turn (s : Working w ε) : Except Misuse (Working w ε) :=
  match s.mate.round with
  | none => .ok { s with stage := .exited }
  | some mate =>
    let s' := { s with mate := mate, stage := .head }
    if s.mate.box.state.quit = true ∧ s.mate.exiting = false then
      (s'.setShutdownTimer shutdown timeout).map fun s => { s with closings := s.closings + 1 }
    else .ok s'

/-- A round of `ngx_event_expire_timers` that finds the shutdown timer. -/
def fire (s : Working w ε) : Except Misuse (Working w ε) :=
  (s.timers.expireTimer shutdown).map fun timers =>
    if 0 < ((s.timers.ev shutdown).key - s.timers.currentMsec).toInt then { s with timers := timers }
    else { s with timers := timers, stage := .shutdown 0, fires := s.fires ++ [s.timers.currentMsec] }

/-- A turn of the loop of `ngx_shutdown_timer_handler`, up to the call of the handler. -/
def tell (s : Working w ε) (i : ℕ) : Working w ε :=
  match s.connections[i]? with
  | none => { s with stage := .events }
  | some c =>
    if c.counts then { s with
      connections := s.connections.set i { c with close := true, error := true }
      stage := .shutdown (i+1)
      told := s.told ++ [i] }
    else { s with stage := .shutdown (i+1) }

def run (s : Working w ε) : WorkAction w ε → Except Misuse (Working w ε)
  | .head =>
    -- `ngx_event_no_timers_left`
    if s.mate.exiting = true ∧ ∀ entry ∈ s.timers.tree, s.cancelable entry.2 = true then .ok { s with stage := .exited }
    else .ok { s with stage := .events }
  | .turn => s.turn shutdown timeout
  | .read => .ok { s with
      mate := { s.mate with box := s.mate.box.read Worker.receive }
      heard := s.heard ++ (s.mate.box.inbox.head?.map Channel.command).toList }
  | .interrupt command => .ok { s with
      mate := { s.mate with box := s.mate.box.modify (·.signalHandler command) }
      heard := s.heard ++ [command] }
  | .timer a => (s.timers.run a).map fun timers => { s with timers := timers }
  | .mark e cancelable => .ok { s with cancelable := Function.update s.cancelable e cancelable }
  | .connection i c => .ok { s with connections := s.connections.set i c }
  | .fire => s.fire shutdown
  | .tell =>
    match s.stage with
    | .shutdown i => .ok (s.tell i)
    | _ => .ok s

/-- When a step may be made. The event of the shutdown timer belongs to the code here alone. -/
def Allowed (s : Working w ε) : WorkAction w ε → Prop
  | .head => s.stage = .head
  | .turn | .read => s.stage = .events
  | .interrupt _ | .connection _ _ => s.stage ≠ .exited
  | .timer a => s.stage ≠ .exited ∧ Spares shutdown a ∧ s.timers.Allowed a
  | .mark e _ => s.stage ≠ .exited ∧ e ≠ shutdown
  | .fire => s.stage = .events ∧ s.timers.Allowed (.expire (some shutdown))
  | .tell => ∃ i, s.stage = .shutdown i

end Working

/-- The runs of a worker process from the return of `ngx_worker_process_init` on. -/
def working (w : ℕ) {ε : Type} [DecidableEq ε] (shutdown : ε) (timeout : BitVec w) :
    TransitionSystem (Working w ε) (WorkAction w ε) where
  init s := s.stage = .head ∧ s.mate.box.state.quit = false ∧ s.mate.box.state.terminate = false ∧
    s.mate.exiting = false ∧ s.timers.Consistent ∧ (s.timers.ev shutdown).timerSet = false ∧ s.heard = [] ∧
    s.closings = 0 ∧ s.arms = [] ∧ s.fires = [] ∧ s.told = []
  step s a s' := s.Allowed shutdown a ∧ s.run shutdown timeout a = .ok s'

/-! ### One step -/

namespace Working
variable {w : ℕ} {ε : Type} [DecidableEq ε] {shutdown : ε} {timeout : BitVec w} {s s' : Working w ε}

/-- The shutdown timer before the shutdown, while it is set, and after it has come up. -/
inductive Timing (shutdown : ε) (timeout : BitVec w) (s : Working w ε) : Prop
  | unset (h : s.mate.exiting = false ∨ timeout = 0) (unset : (s.timers.ev shutdown).timerSet = false)
    (arms : s.arms = []) (fires : s.fires = [])
  | set (t : BitVec w) (h : s.mate.exiting = true ∧ timeout ≠ 0) (set : (s.timers.ev shutdown).timerSet = true)
    (key : (s.timers.ev shutdown).key = t + timeout) (cancelable : s.cancelable shutdown = true)
    (arms : s.arms = [t]) (fires : s.fires = [])
  | fired (t t' : BitVec w) (h : s.mate.exiting = true ∧ timeout ≠ 0) (unset : (s.timers.ev shutdown).timerSet = false)
    (due : (t + timeout - t').toInt ≤ 0) (arms : s.arms = [t]) (fires : s.fires = [t'])

/-- The connections that have been told, in their order. -/
structure Telling (s : Working w ε) : Prop where
  ascending : s.told.Pairwise (· < ·)
  before : s.fires = [] → s.told = []
  stage : ∀ i, s.stage = .shutdown i → s.fires ≠ [] ∧ ∀ j ∈ s.told, j < i

/-- The invariant of a worker process. -/
structure Sound (shutdown : ε) (timeout : BitVec w) (s : Working w ε) : Prop where
  timers : s.timers.Consistent
  terminate : s.mate.box.state.terminate = true ↔ .terminate ∈ s.heard
  quit : s.mate.box.state.quit = true ∨ s.mate.exiting = true ↔ .quit ∈ s.heard
  closings : s.closings = if s.mate.exiting then 1 else 0
  timing : s.Timing shutdown timeout
  telling : s.Telling
  exited : s.stage = .exited → s.mate.box.state.terminate = true ∨
    s.mate.exiting = true ∧ ∀ entry ∈ s.timers.tree, s.cancelable entry.2 = true

omit [DecidableEq ε] in
/-- A step that leaves the shutdown timer and what has been recorded of it alone. -/
theorem Timing.keep (h : s.Timing shutdown timeout) (hexiting : s'.mate.exiting = s.mate.exiting)
    (hev : s'.timers.ev shutdown = s.timers.ev shutdown) (hcancelable : s'.cancelable shutdown = s.cancelable shutdown)
    (harms : s'.arms = s.arms) (hfires : s'.fires = s.fires) : s'.Timing shutdown timeout := by
  cases h with
  | unset h unset arms fires =>
    exact .unset (by rwa [hexiting]) (by rwa [hev]) (harms.trans arms) (hfires.trans fires)
  | set t h set key cancelable arms fires =>
    exact .set t (by rwa [hexiting]) (by rwa [hev]) (by rwa [hev]) (hcancelable.trans cancelable) (harms.trans arms)
      (hfires.trans fires)
  | fired t t' h unset due arms fires =>
    exact .fired t t' (by rwa [hexiting]) (by rwa [hev]) due (harms.trans arms) (hfires.trans fires)

/-- The head of the loop. -/
theorem Sound.head (h : s.Sound shutdown timeout) :
    ∃ s', s.run shutdown timeout .head = .ok s' ∧ s'.Sound shutdown timeout := by
  by_cases hleft : s.mate.exiting = true ∧ ∀ entry ∈ s.timers.tree, s.cancelable entry.2 = true
  · exact ⟨_,if_pos hleft,h.timers,h.terminate,h.quit,h.closings,h.timing.keep rfl rfl rfl rfl rfl,
      ⟨h.telling.ascending,h.telling.before,fun i hi => by cases hi⟩,fun _ => .inr hleft⟩
  · exact ⟨_,if_neg hleft,h.timers,h.terminate,h.quit,h.closings,h.timing.keep rfl rfl rfl rfl rfl,
      ⟨h.telling.ascending,h.telling.before,fun i hi => by cases hi⟩,fun hi => by cases hi⟩

/-- The shutdown timer is set when the shutdown begins. -/
theorem setShutdownTimer_ok (s : Working w ε) (timeout : BitVec w) (htimers : s.timers.Consistent) (hunset : (s.timers.ev shutdown).timerSet = false)
    (hexiting : s.mate.exiting = true) (harms : s.arms = []) (hfires : s.fires = []) :
    ∃ timers cancelable arms, s.setShutdownTimer shutdown timeout =
        .ok { s with timers := timers, cancelable := cancelable, arms := arms } ∧ timers.Consistent ∧
      Timing shutdown timeout { s with timers := timers, cancelable := cancelable, arms := arms } := by
  unfold setShutdownTimer
  by_cases hzero : timeout = 0
  · rw [if_pos hzero]
    exact ⟨s.timers,s.cancelable,s.arms,rfl,htimers,.unset (.inr hzero) hunset harms hfires⟩
  · obtain ⟨t,hadd,ht,htree,-⟩ := Timers.addTimer_unset htimers hunset timeout
    rw [if_neg hzero,hadd]
    have hentry : (s.timers.currentMsec + timeout,shutdown) ∈ t.tree := by simp [htree]
    refine ⟨t,_,_,rfl,ht,.set s.timers.currentMsec ⟨hexiting,hzero⟩ ?_ (ht.key _ hentry).symm ?_ ?_ hfires⟩
    · exact (ht.mem_snd_iff shutdown).mp (Multiset.mem_map.mpr ⟨_,hentry,rfl⟩)
    · exact Function.update_self ..
    · simp [harms]

/-- The loop after the events. -/
theorem Sound.turn (h : s.Sound shutdown timeout) :
    ∃ s', s.turn shutdown timeout = .ok s' ∧ s'.Sound shutdown timeout := by
  have htelling : ∀ s' : Working w ε, s'.told = s.told → s'.fires = s.fires → (∀ i, s'.stage ≠ .shutdown i) → s'.Telling :=
    fun s' htold hfires hnot => ⟨htold ▸ h.telling.ascending,fun hnil => htold.trans (h.telling.before (hfires.symm.trans hnil)),
      fun i hi => absurd hi (hnot i)⟩
  unfold Working.turn Mate.round
  by_cases hterminate : s.mate.box.state.terminate = true
  · rw [if_pos hterminate]
    exact ⟨_,rfl,h.timers,h.terminate,h.quit,h.closings,h.timing.keep rfl rfl rfl rfl rfl,
      htelling _ rfl rfl (fun i hi => by cases hi),fun _ => .inl hterminate⟩
  · rw [if_neg hterminate]
    dsimp only
    split
    · rename_i hquit
      -- the shutdown begins
      obtain ⟨hunset,harms,hfires⟩ : (s.timers.ev shutdown).timerSet = false ∧ s.arms = [] ∧ s.fires = [] := by
        cases h.timing with
        | unset _ hunset harms hfires => exact ⟨hunset,harms,hfires⟩
        | set t hexiting => rw [hquit.2] at hexiting; cases hexiting.1
        | fired t t' hexiting => rw [hquit.2] at hexiting; cases hexiting.1
      obtain ⟨timers,cancelable,arms,hset,htimers,htiming⟩ := setShutdownTimer_ok { s with
          mate := { s.mate with
            exiting := s.mate.exiting || s.mate.box.state.quit
            box := s.mate.box.modify fun w => { w with quit := false, reopen := false } }
          stage := .head } timeout h.timers hunset (by simp [hquit.1]) harms hfires
      rw [hset]
      refine ⟨_,rfl,htimers,h.terminate,?_,?_,htiming.keep rfl rfl rfl rfl rfl,htelling _ rfl rfl (fun i hi => by cases hi),
        fun hi => by cases hi⟩
      · simpa [Mailbox.modify,hquit.1] using h.quit
      · simp [h.closings,hquit]
    · rename_i hquit
      have hsame : (s.mate.exiting || s.mate.box.state.quit) = s.mate.exiting := by
        cases hexiting : s.mate.exiting
        · simpa [hexiting] using hquit
        · rfl
      refine ⟨_,rfl,h.timers,h.terminate,?_,by simp only [hsame]; exact h.closings,h.timing.keep hsame rfl rfl rfl rfl,
        htelling _ rfl rfl (fun i hi => by cases hi),fun hi => by cases hi⟩
      rw [← h.quit]
      simp [Mailbox.modify,or_comm]

/-- The flags of a worker that has heard a command. -/
theorem Sound.hear (h : s.Sound shutdown timeout) (hlive : s.stage ≠ .exited) {box : Mailbox Worker Channel}
    {commands : List Command} (hquit : box.state.quit = (s.mate.box.state.quit || commands.contains .quit))
    (hterminate : box.state.terminate = (s.mate.box.state.terminate || commands.contains .terminate)) :
    Sound shutdown timeout { s with mate := { s.mate with box := box }, heard := s.heard ++ commands } := by
  refine ⟨h.timers,?_,?_,h.closings,h.timing.keep rfl rfl rfl rfl rfl,
    ⟨h.telling.ascending,h.telling.before,h.telling.stage⟩,fun hi => absurd hi hlive⟩
  · rw [List.mem_append,← h.terminate]
    simp [hterminate]
  · rw [List.mem_append,← h.quit]
    simp only [hquit,Bool.or_eq_true,List.contains_iff_mem]
    tauto

theorem Sound.read (h : s.Sound shutdown timeout) (hstage : s.stage = .events) :
    Sound shutdown timeout { s with
      mate := { s.mate with box := s.mate.box.read Worker.receive }
      heard := s.heard ++ (s.mate.box.inbox.head?.map Channel.command).toList } := by
  refine h.hear (by rw [hstage]; simp) ?_ ?_
  all_goals
    obtain ⟨⟨state,inbox⟩,_,_,_⟩ := s.mate
    cases inbox with
    | nil => simp [Mailbox.read]
    | cons ch inbox => cases hcommand : ch.command <;> simp [Mailbox.read,Worker.receive,hcommand]

theorem Sound.interrupt (h : s.Sound shutdown timeout) (hlive : s.stage ≠ .exited) (command : Command) :
    Sound shutdown timeout { s with
      mate := { s.mate with box := s.mate.box.modify (·.signalHandler command) }
      heard := s.heard ++ [command] } := by
  refine h.hear hlive ?_ ?_
  all_goals cases command <;> simp [Mailbox.modify,Worker.signalHandler]

/-- The shutdown timer comes up, or is not due yet. -/
theorem Sound.fire (h : s.Sound shutdown timeout) (hstage : s.stage = .events)
    (hmem : ((s.timers.ev shutdown).key,shutdown) ∈ s.timers.tree) :
    ∃ s', s.fire shutdown = .ok s' ∧ s'.Sound shutdown timeout := by
  have hset := (h.timers.mem_iff shutdown).mp hmem
  unfold Working.fire Timers.expireTimer
  by_cases hdue : 0 < ((s.timers.ev shutdown).key - s.timers.currentMsec).toInt
  · rw [if_pos hdue]
    exact ⟨_,congrArg Except.ok (if_pos hdue),⟨h.timers.count,h.timers.key,h.timers.asked⟩,h.terminate,h.quit,h.closings,h.timing.keep rfl rfl rfl rfl rfl,
      ⟨h.telling.ascending,h.telling.before,h.telling.stage⟩,fun hi => by rw [hstage] at hi; cases hi⟩
  · obtain ⟨hdelete,hremoved⟩ := h.timers.remove hset true
    rw [if_neg hdue,hdelete]
    refine ⟨_,congrArg Except.ok (if_neg hdue),?_⟩
    have htiming := h.timing
    cases htiming with
    | unset _ hunset =>
      rw [hunset] at hset
      cases hset
    | fired _ _ _ hunset =>
      rw [hunset] at hset
      cases hset
    | set t hexiting hset hkey hcancelable harms hfires =>
      refine ⟨hremoved.consistent,h.terminate,h.quit,h.closings,
        .fired t s.timers.currentMsec hexiting hremoved.unset ?_ harms (by simp [hfires]),
        ⟨h.telling.ascending,fun hnil => by simp at hnil,fun i hi => ⟨by simp,fun j hj => ?_⟩⟩,fun hi => by cases hi⟩
      · rw [← hkey]
        exact not_lt.mp hdue
      · rw [h.telling.before hfires] at hj
        cases hj

/-- A turn of the loop over the connections. -/
theorem Sound.tell (h : s.Sound shutdown timeout) {i : ℕ} (hstage : s.stage = .shutdown i) :
    (s.tell i).Sound shutdown timeout := by
  obtain ⟨hfired,hbefore⟩ := h.telling.stage i hstage
  unfold Working.tell
  split
  · exact ⟨h.timers,h.terminate,h.quit,h.closings,h.timing.keep rfl rfl rfl rfl rfl,
      ⟨h.telling.ascending,h.telling.before,fun j hj => by cases hj⟩,fun hi => by cases hi⟩
  · split
    · refine ⟨h.timers,h.terminate,h.quit,h.closings,h.timing.keep rfl rfl rfl rfl rfl,
        ⟨?_,fun hnil => absurd hnil hfired,fun j hj => ⟨hfired,fun k hk => ?_⟩⟩,fun hi => by cases hi⟩
      · refine List.pairwise_append.mpr ⟨h.telling.ascending,List.pairwise_singleton _ _,fun a ha b hb => ?_⟩
        rw [List.mem_singleton.mp hb]
        exact hbefore a ha
      · cases hj
        rcases List.mem_append.mp hk with hk | hk
        · exact (hbefore k hk).trans (Nat.lt_succ_self i)
        · rw [List.mem_singleton.mp hk]
          exact Nat.lt_succ_self i
    · refine ⟨h.timers,h.terminate,h.quit,h.closings,h.timing.keep rfl rfl rfl rfl rfl,
        ⟨h.telling.ascending,h.telling.before,fun j hj => ⟨hfired,fun k hk => ?_⟩⟩,fun hi => by cases hi⟩
      cases hj
      exact (hbefore k hk).trans (Nat.lt_succ_self i)

/-- Every step runs through and keeps the invariant. -/
theorem Sound.step (h : s.Sound shutdown timeout) {a : WorkAction w ε} (hallowed : s.Allowed shutdown a) :
    ∃ s', s.run shutdown timeout a = .ok s' ∧ s'.Sound shutdown timeout := by
  cases a with
  | head => exact h.head
  | turn => exact h.turn
  | read => exact ⟨_,rfl,h.read hallowed⟩
  | interrupt command => exact ⟨_,rfl,h.interrupt hallowed command⟩
  | timer a =>
    obtain ⟨hlive,hspares,htimers⟩ := hallowed
    obtain ⟨t,ht,hconsistent⟩ := h.timers.run htimers
    exact ⟨{ s with timers := t },by rw [run,ht]; rfl,hconsistent,h.terminate,h.quit,h.closings,h.timing.keep rfl (hspares.run_eq ht) rfl rfl rfl,
      ⟨h.telling.ascending,h.telling.before,h.telling.stage⟩,fun hi => absurd hi hlive⟩
  | mark e cancelable =>
    obtain ⟨hlive,hne⟩ := hallowed
    exact ⟨_,rfl,h.timers,h.terminate,h.quit,h.closings,h.timing.keep rfl rfl (Function.update_of_ne hne.symm ..) rfl rfl,
      ⟨h.telling.ascending,h.telling.before,h.telling.stage⟩,fun hi => absurd hi hlive⟩
  | connection i c =>
    exact ⟨_,rfl,h.timers,h.terminate,h.quit,h.closings,h.timing.keep rfl rfl rfl rfl rfl,
      ⟨h.telling.ascending,h.telling.before,h.telling.stage⟩,fun hi => absurd hi hallowed⟩
  | fire => exact h.fire hallowed.1 hallowed.2.2.1
  | tell =>
    obtain ⟨i,hstage⟩ := hallowed
    exact ⟨s.tell i,by simp only [run,hstage],h.tell hstage⟩

theorem Sound.init (h : (working w shutdown timeout).init s) : s.Sound shutdown timeout := by
  obtain ⟨hstage,hquit,hterminate,hexiting,htimers,hunset,hheard,hclosings,harms,hfires,htold⟩ := h
  refine ⟨htimers,by simp [hterminate,hheard],by simp [hquit,hexiting,hheard],by simp [hclosings,hexiting],
    .unset (.inl hexiting) hunset harms hfires,⟨by simp [htold],fun _ => htold,fun i hi => ?_⟩,fun hi => ?_⟩
  all_goals
    rw [hstage] at hi
    cases hi

end Working

/-- A worker process works until it is told to leave. In every reachable state: its flags are set by the
commands that it has heard; it has exited only after a command to terminate, or after a command to quit when
only cancelable timers are left; the listening sockets are closed once, when the shutdown begins; the shutdown
timer is set then, once, comes up at its deadline at the earliest and once, and never keeps the process from
exiting; no connection is told twice, nor before that. And every step runs through. -/
theorem works_until_told {w : ℕ} {ε : Type} [DecidableEq ε] {shutdown : ε} {timeout : BitVec w} {s : Working w ε}
    (h : (working w shutdown timeout).Reachable s) :
    (s.mate.box.state.terminate = true ↔ .terminate ∈ s.heard) ∧
    (s.mate.box.state.quit = true ∨ s.mate.exiting = true ↔ .quit ∈ s.heard) ∧
    (s.stage = .exited → .terminate ∈ s.heard ∨
      .quit ∈ s.heard ∧ ∀ entry ∈ s.timers.tree, s.cancelable entry.2 = true) ∧
    s.closings = (if s.mate.exiting then 1 else 0) ∧ s.Timing shutdown timeout ∧ s.Telling ∧
    ∀ a, s.Allowed shutdown a → ∃ s', s.run shutdown timeout a = .ok s' := by
  have hs : s.Sound shutdown timeout := by
    refine h.invariant (I := Working.Sound shutdown timeout) (fun s hinit => Working.Sound.init hinit) ?_
    rintro s a s' - hs ⟨hallowed,hrun⟩
    obtain ⟨t,ht,hsound⟩ := hs.step hallowed
    cases ht.symm.trans hrun
    exact hsound
  refine ⟨hs.terminate,hs.quit,fun hexited => ?_,hs.closings,hs.timing,hs.telling,fun a ha => ?_⟩
  · exact (hs.exited hexited).imp hs.terminate.mp fun ⟨hexiting,hleft⟩ => ⟨hs.quit.mp (.inr hexiting),hleft⟩
  · obtain ⟨s',hrun,-⟩ := hs.step ha
    exact ⟨s',hrun⟩

section
variable {w : ℕ} {ε : Type} [DecidableEq ε]

instance (s : Timers w ε) (key : BitVec w) : Decidable (s.Least key) :=
  inferInstanceAs (Decidable (∀ entry ∈ s.tree, 0 ≤ (entry.1 - key).toInt))

instance (s : Timers w ε) : Decidable (∃ entry ∈ s.tree, s.Least entry.1) := Multiset.decidableExistsMultiset

instance (s : Timers w ε) (e : ε) : Decidable (s.MayReturn e) :=
  inferInstanceAs (Decidable (((s.ev e).key,e) ∈ s.tree ∧ ((∃ entry ∈ s.tree, s.Least entry.1) → s.Least (s.ev e).key)))

instance (s : Timers w ε) (a : EventTimer.Action w ε) : Decidable (s.Allowed a) :=
  match a with
  | .add _ timer => inferInstanceAs (Decidable (∀ entry ∈ s.tree, |(s.currentMsec + timer - entry.1).toInt| < 2^(w - 1)))
  | .del e => inferInstanceAs (Decidable ((s.ev e).timerSet = true))
  | .advance _ | .enter => inferInstanceAs (Decidable True)
  | .expire none => inferInstanceAs (Decidable (0 < s.loops ∧ s.tree = 0))
  | .expire (some e) => inferInstanceAs (Decidable (0 < s.loops ∧ s.MayReturn e))

instance (e : ε) (a : EventTimer.Action w ε) : Decidable (Spares e a) :=
  match a with
  | .add f _ | .del f | .expire (some f) => inferInstanceAs (Decidable (f ≠ e))
  | .advance _ | .enter | .expire none => inferInstanceAs (Decidable True)

instance (shutdown : ε) (s : Working w ε) (a : WorkAction w ε) : Decidable (s.Allowed shutdown a) :=
  match a with
  | .head => inferInstanceAs (Decidable (s.stage = .head))
  | .turn | .read => inferInstanceAs (Decidable (s.stage = .events))
  | .interrupt _ | .connection _ _ => inferInstanceAs (Decidable (s.stage ≠ .exited))
  | .timer a => inferInstanceAs (Decidable (s.stage ≠ .exited ∧ Spares shutdown a ∧ s.timers.Allowed a))
  | .mark e _ => inferInstanceAs (Decidable (s.stage ≠ .exited ∧ e ≠ shutdown))
  | .fire => inferInstanceAs (Decidable (s.stage = .events ∧ s.timers.Allowed (.expire (some shutdown))))
  | .tell =>
    match h : s.stage with
    | .shutdown i => isTrue ⟨i,h⟩
    | .head | .events | .exited => isFalse fun ⟨_,hi⟩ => by rw [hi] at h; cases h

end

/-- A worker with one connection and a message in its channel. -/
def oneConnection : Working 64 Bool where
  mate := ⟨⟨⟨fun _ => -1,fun _ => -1,false,false,false,[]⟩,[⟨.quit,0,0,-1⟩]⟩,false,[],fun _ => false⟩
  timers := ⟨fun _ => ⟨0,false,false⟩,0,0,0,fun _ => 0⟩
  cancelable _ := false
  connections := [⟨7,some ⟨false,false,false⟩,false,false⟩]
  stage := .head
  heard := []
  closings := 0
  arms := []
  fires := []
  told := []

/-- Another timer keeps it from exiting until the shutdown timer has come up. -/
def quitActions : List (WorkAction 64 Bool) :=
  [.head,.timer (.add false 1000),.read,.turn,.head,.timer (.advance 5),.timer .enter,.fire,.tell,.tell,
    .timer (.del false),.turn,.head]

theorem works_until_told_quit : ∃ s : Working 64 Bool, s.stage = .exited ∧ .quit ∈ s.heard ∧ s.arms = [0] ∧
    s.fires = [5] ∧ s.told = [0] ∧ ∀ entry ∈ s.timers.tree, s.cancelable entry.2 = true := by
  have hinit : (working 64 true 5).Reachable oneConnection := .init
    ⟨rfl,rfl,rfl,rfl,⟨fun _ => rfl,fun entry hentry => absurd hentry (Multiset.notMem_zero _),fun _ hset => by cases hset⟩,
      rfl,rfl,rfl,rfl,rfl,rfl⟩
  let step := fun (s : Working 64 Bool) a => if s.Allowed true a then (s.run true 5 a).toOption else none
  have hrun : (TransitionSystem.replay step oneConnection quitActions).map (fun s =>
      (s.stage,decide (.terminate ∈ s.heard),s.arms,s.fires,s.told)) = some (.exited,false,[0],[5],[0]) := by decide +kernel
  obtain ⟨s,hs,heq⟩ := Option.map_eq_some_iff.mp hrun
  simp only [Prod.mk.injEq,decide_eq_false_iff_not] at heq
  obtain ⟨hexited,hterminate,harms,hfires,htold⟩ := heq
  have hreach : (working 64 true 5).Reachable s := by
    refine hinit.of_replay_of_step (fun a _ s s' hstep => ?_) hs
    obtain ⟨hallowed,hok⟩ := Option.ite_none_right_eq_some.mp hstep
    refine ⟨hallowed,?_⟩
    generalize s.run true 5 a = r at hok ⊢
    cases r with
    | error m => cases hok
    | ok t =>
      cases hok
      rfl
  obtain ⟨hquit,hleft⟩ := ((works_until_told hreach).2.2.1 hexited).resolve_left hterminate
  exact ⟨s,hexited,hquit,harms,hfires,htold,hleft⟩

end InsideNginx.Process
