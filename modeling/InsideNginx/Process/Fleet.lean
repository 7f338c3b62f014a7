import InsideNginx.General.Mailbox
import InsideNginx.Process.Channels
import InsideNginx.Process.Messages
import InsideNginx.Process.Reload

/-! The master together with the processes that it has forked: what the master writes into their
channels waits there, and each process reads its messages, gets its signals and makes the rounds of
its loop at its own pace. A descriptor stands for what it refers to, in whatever process. -/
namespace InsideNginx.Process

/-- A forked process: its table and flags with the messages in its channel, `ngx_exiting`, and the
signals on their way to it. `missed` records for each slot whether the latest message about its
channel could not be written. -/
structure Mate where
  box : Mailbox Worker Channel
  exiting : Bool
  signals : List (Option Command)
  missed : ℕ → Bool

/-- The messages about the channel of a slot. -/
def Channel.About (ch : Channel) (i : ℕ) : Prop :=
  (ch.command = .openChannel ∨ ch.command = .closeChannel) ∧ ch.slot = i

instance (ch : Channel) (i : ℕ) : Decidable (ch.About i) := inferInstanceAs (Decidable (_ ∧ _))

/-- `ngx_signal_handler` in a worker, for the signals that the master sends. -/
def Worker.signalHandler (w : Worker) : Command → Worker
  | .quit => { w with quit := true }
  | .terminate => { w with terminate := true }
  | .reopen => { w with reopen := true }
  | .openChannel | .closeChannel => w

namespace Mate

/-- What a process has once it has read all its messages. -/
def settled (p : Mate) : Worker := p.box.settled Worker.receive

/-- `ngx_write_channel`, which succeeds or not. -/
def write (p : Mate) (written : Bool) (ch : Channel) : Mate :=
  { p with
    box := if written then p.box.send ch else p.box
    missed := if ch.About ch.slot then Function.update p.missed ch.slot (!written) else p.missed }

/-- `kill`, with SIGKILL for `none`. -/
def kill (p : Mate) (command : Option Command) : Mate := { p with signals := p.signals ++ [command] }

/-- A round of `ngx_worker_process_cycle`; `none` when it ends in `ngx_worker_process_exit`. -/
def round (p : Mate) : Option Mate :=
  if p.box.state.terminate then none
  else some { p with
    exiting := p.exiting || p.box.state.quit
    box := p.box.modify fun w => { w with quit := false, reopen := false } }

/-- A signal arrives. -/
def interrupt (p : Mate) (command : Option Command) : Option Mate :=
  command.map fun command =>
    { p with signals := p.signals.erase (some command), box := p.box.modify (·.signalHandler command) }

end Mate

/-- Whether the calls of `ngx_write_channel` in a call of the master succeed, and whether `kill` does. -/
structure Wire where
  written : ℕ → Channel → Bool
  killed : Bool

/-- What an event of the master does to the process of a slot, where `child` is what `fork` makes. -/
def hear (wire : Wire) (n : ℕ) (child : Mate) (mate : Option Mate) : Event → Option Mate
  | .forked i _ => if i = n then some child else mate
  | .write i ch => if i = n then mate.map (·.write (wire.written n ch) ch) else mate
  | .kill i _ command => if i = n ∧ wire.killed then mate.map (·.kill command) else mate
  | _ => mate

/-- The child of a call that leads from `s` to `s'`: it has a copy of the variables of the master, in
which only the new channel has been stored yet. -/
def inherit (s s' : Master) : Mate where
  box := ⟨⟨fun j => (s.processes j).pid,fun j => (s'.processes j).channel0,s.flags.quit,s.flags.terminate,
    s.flags.reopen,[]⟩,[]⟩
  exiting := false
  signals := []
  missed _ := false

/-- The master with the processes of its slots. -/
structure Fleet where
  run : Run
  mates : ℕ → Option Mate

/-- The calls of the master: a start of a process that is then announced, `ngx_execute`, an exit that
`ngx_process_get_status` collects, a change of the flags, `ngx_reap_children` slot by slot, and a round
of `ngx_signal_worker_processes`. -/
inductive Call
  | start (mode : Respawn) (o : Outcome)
  | execute (o : Outcome)
  | exit (pid : ℤ) (status : BitVec 32)
  | flags (new : Flags)
  | reap
  | slot (o : Outcome)
  | reaped
  | tell (signo : Signo) (i : ℕ) (d : Delivery)

/-- A step: a call of the master, or a process reads a message, gets a signal (of the master or of
anyone else), makes a round of its loop, or dies. -/
inductive Deed
  | call (c : Call) (written : ℕ → Channel → Bool)
  | read (n : ℕ)
  | signal (n : ℕ) (command : Command)
  | interrupt (n : ℕ) (command : Option Command)
  | round (n : ℕ)
  | die (n : ℕ)

namespace Call

def run (s : Run) : Call → Except Fault Run
  | .start mode o => do
    let master ← s.master.startWorker mode o
    return ⟨master,s.phase⟩
  | .execute o => s.run (.spawn .detached o)
  | .exit pid status => s.run (.exit pid status)
  | .flags new => .ok ⟨s.master.setFlags new,s.phase⟩
  | .reap => s.run .reap
  | .slot o => s.run (.slot o)
  | .reaped => s.run .reaped
  | .tell signo i d => .ok ⟨s.master.signalWorker signo i d,s.phase⟩

/-- When a call may be made. -/
def Allowed (s : Run) : Call → Prop
  | .start mode _ => s.phase = .asleep ∧ mode.isSlot = false
  | .execute _ | .exit _ _ | .flags _ | .reap => s.phase = .asleep
  | .slot _ => ∃ i ∈ s.phase.slot?, i < s.master.lastProcess
  | .reaped => ∃ i ∈ s.phase.slot?, s.master.lastProcess ≤ i
  | .tell _ i _ => s.phase = .asleep ∧ i < s.master.lastProcess

instance (s : Run) (c : Call) : Decidable (c.Allowed s) :=
  match c with
  | .start mode _ => inferInstanceAs (Decidable (s.phase = .asleep ∧ mode.isSlot = false))
  | .execute _ | .exit _ _ | .flags _ | .reap => inferInstanceAs (Decidable (s.phase = .asleep))
  | .slot _ => inferInstanceAs (Decidable (∃ i ∈ s.phase.slot?, i < s.master.lastProcess))
  | .reaped => inferInstanceAs (Decidable (∃ i ∈ s.phase.slot?, s.master.lastProcess ≤ i))
  | .tell _ i _ => inferInstanceAs (Decidable (s.phase = .asleep ∧ i < s.master.lastProcess))

/-- What becomes of the messages of a call. -/
def wire (written : ℕ → Channel → Bool) : Call → Wire
  | .tell _ _ d => ⟨fun _ _ => d.written,d.kill = .ok⟩
  | _ => ⟨written,false⟩

end Call

namespace Fleet

def setMate (f : Fleet) (n : ℕ) (mate : Option Mate) : Fleet := { f with mates := Function.update f.mates n mate }

/-- A call of the master, and what the processes hear of it. -/
def call (f : Fleet) (run : Run) (wire : Wire) : Fleet where
  run := run
  mates n := (run.master.log.drop f.run.master.log.length).foldl
    (hear wire n (inherit f.run.master run.master)) (f.mates n)

/-- A step; `none` when it may not be made, or leaves the defined behaviour of C. -/
def step (f : Fleet) : Deed → Option Fleet
  | .call c written =>
    if c.Allowed f.run then (c.run f.run).toOption.map fun run => f.call run (c.wire written) else none
  | .read n => (f.mates n).map fun p => f.setMate n (some { p with box := p.box.read Worker.receive })
  | .signal n command => (f.mates n).map fun p => f.setMate n (some (p.kill (some command)))
  | .interrupt n command =>
    (f.mates n).bind fun p => if command ∈ p.signals then some (f.setMate n (p.interrupt command)) else none
  | .round n => (f.mates n).map fun p => f.setMate n p.round
  | .die n => some (f.setMate n none)

end Fleet

/-- The runs from an empty table on, when no process has been forked. -/
def sailing : TransitionSystem Fleet Deed :=
  .ofFunction (fun f => f.run.master.lastProcess = 0 ∧ f.run.phase = .asleep ∧ f.mates = fun _ => none) Fleet.step

/-! ### What a process knows -/

/-- A process that has been told to quit or to terminate. -/
def Worker.leaving (w : Worker) : Bool := w.quit || w.terminate

/-- The commands to quit and to terminate. -/
def Command.leaves (command : Command) : Bool := command = .quit || command = .terminate

namespace Mate
variable {p : Mate} {ch : Channel} {i : ℕ} {pid fd : ℤ} {written : Bool} {command : Option Command}

/-- The pid and the descriptor that a process has for a slot once it has read all its messages. -/
def view (p : Mate) (i : ℕ) : ℤ × ℤ := (p.settled.pid i,p.settled.channel0 i)

/-- A process knows the pid and the descriptor of a slot, unless the latest message about them could not
be written. -/
def Knows (p : Mate) (i : ℕ) (pid fd : ℤ) : Prop := p.missed i = false → p.view i = (pid,fd)

/-- A process leaves, or is about to learn that it has to. -/
def Told (p : Mate) : Prop :=
  p.exiting = true ∨ p.settled.leaving = true ∨
    ∃ command ∈ p.signals, command = none ∨ ∃ c, command = some c ∧ c.leaves = true

/-- What a message does to the view of a slot. -/
def look (i : ℕ) (v : ℤ × ℤ) (ch : Channel) : ℤ × ℤ :=
  if ch.slot = i ∧ ch.command = .openChannel then (ch.pid,ch.fd)
  else if ch.slot = i ∧ ch.command = .closeChannel then (v.1,-1)
  else v

theorem receive_look (i : ℕ) (w : Worker) (ch : Channel) :
    ((w.receive ch).pid i,(w.receive ch).channel0 i) = look i (w.pid i,w.channel0 i) ch := by
  unfold look Worker.receive
  by_cases hslot : ch.slot = i
  · subst hslot
    cases hcommand : ch.command <;> simp
  · cases hcommand : ch.command <;> simp [hslot,Ne.symm hslot]

theorem receive_leaving (w : Worker) (ch : Channel) :
    (w.receive ch).leaving = (w.leaving || ch.command.leaves) := by
  unfold Worker.receive Worker.leaving Command.leaves
  cases hcommand : ch.command <;> simp

/-- A change of the state between two messages that keeps table and descriptors keeps the view. -/
theorem view_modify {f : Worker → Worker} {b : Bool} {signals : List (Option Command)}
    (hf : ∀ w, (f w).pid = w.pid ∧ (f w).channel0 = w.channel0) (i : ℕ) :
    view { p with box := p.box.modify f, exiting := b, signals := signals } i = p.view i :=
  Mailbox.settled_modify (v := fun w : Worker => (w.pid i,w.channel0 i)) (receive_look i)
    fun w => by rw [(hf w).1,(hf w).2]

theorem settled_leaving (p : Mate) :
    p.settled.leaving = (p.box.state.leaving || p.box.inbox.any fun ch => ch.command.leaves) :=
  Mailbox.settled_flag receive_leaving

/-! A message. -/

theorem write_view (p : Mate) (written : Bool) (ch : Channel) (i : ℕ) :
    (p.write written ch).view i = if written then look i (p.view i) ch else p.view i := by
  cases written
  · rfl
  · simp only [view,settled,write,if_true,Mailbox.settled_send]
    exact receive_look i _ ch

theorem Knows.write_other (h : p.Knows i pid fd) (hch : ¬ ch.About i) : (p.write written ch).Knows i pid fd := by
  have hmissed : (p.write written ch).missed i = p.missed i := by
    unfold write
    dsimp only
    split
    · rename_i habout
      rw [Function.update_of_ne]
      rintro rfl
      exact hch habout
    · rfl
  have hlook : look i (p.view i) ch = p.view i := by
    unfold look
    rw [if_neg fun h => hch ⟨.inl h.2,h.1⟩,if_neg fun h => hch ⟨.inr h.2,h.1⟩]
  intro hm
  rw [write_view,hlook,ite_self]
  exact h (hmissed ▸ hm)

/-- A process knows what the latest message has told it. -/
theorem knows_write (p : Mate) (written : Bool) (i : ℕ) (pid fd : ℤ) :
    (p.write written ⟨.openChannel,pid,i,fd⟩).Knows i pid fd := by
  intro hm
  have hwritten : written = true := by simpa [write,Channel.About] using hm
  rw [write_view,hwritten,if_pos rfl]
  simp [look]

theorem Told.write (h : p.Told) : (p.write written ch).Told := by
  rcases h with h | h | h
  · exact .inl h
  · refine .inr (.inl ?_)
    cases written
    · exact h
    · simp only [settled,Mate.write,if_true,Mailbox.settled_send,receive_leaving]
      rw [show (p.box.settled Worker.receive).leaving = true from h,Bool.true_or]
  · exact .inr (.inr h)

theorem told_write (p : Mate) (h : ch.command.leaves = true) : (p.write true ch).Told := by
  refine .inr (.inl ?_)
  simp only [settled,write,if_true,Mailbox.settled_send,receive_leaving,h,Bool.or_true]

theorem Told.kill (h : p.Told) : (p.kill command).Told := by
  rcases h with h | h | ⟨c,hc,hleaves⟩
  · exact .inl h
  · exact .inr (.inl h)
  · exact .inr (.inr ⟨c,List.mem_append_left _ hc,hleaves⟩)

theorem told_kill (p : Mate) (h : command = none ∨ ∃ c, command = some c ∧ c.leaves = true) : (p.kill command).Told :=
  .inr (.inr ⟨command,by simp [Mate.kill],h⟩)

/-! What a process does by itself. -/

theorem read_view (p : Mate) (i : ℕ) : view { p with box := p.box.read Worker.receive } i = p.view i := by
  simp [view,settled]

theorem Told.read (h : p.Told) : Told { p with box := p.box.read Worker.receive } := by
  rcases h with h | h | h
  · exact .inl h
  · exact .inr (.inl (by simpa [settled] using h))
  · exact .inr (.inr h)

theorem round_view {q : Mate} (h : p.round = some q) (i : ℕ) : q.view i = p.view i ∧ q.missed = p.missed := by
  unfold round at h
  split at h
  · cases h
  cases h
  exact ⟨view_modify (f := fun w => { w with quit := false, reopen := false }) (fun _ => ⟨rfl,rfl⟩) i,rfl⟩

theorem Told.round {q : Mate} (h : p.Told) (hround : p.round = some q) : q.Told := by
  unfold Mate.round at hround
  split at hround
  · cases hround
  rename_i hstays
  cases hround
  rcases h with h | h | h
  · exact .inl (by simp [h])
  · -- the flag is set already, or by a message that waits
    rw [settled_leaving,Bool.or_eq_true] at h
    rcases h with hflag | hwaits
    · refine .inl ?_
      simp only [Worker.leaving,Bool.or_eq_true] at hflag
      simp [hflag.resolve_right hstays]
    · refine .inr (.inl ?_)
      rw [settled_leaving,Bool.or_eq_true]
      exact .inr hwaits
  · exact .inr (.inr h)

theorem interrupt_view {q : Mate} (h : p.interrupt command = some q) (i : ℕ) :
    q.view i = p.view i ∧ q.missed = p.missed := by
  cases command with
  | none => cases h
  | some c =>
    cases h
    refine ⟨view_modify (fun w => ?_) i,rfl⟩
    cases c <;> exact ⟨rfl,rfl⟩

theorem Told.interrupt {q : Mate} (h : p.Told) (hinterrupt : p.interrupt command = some q) : q.Told := by
  cases command with
  | none => cases hinterrupt
  | some c =>
    cases hinterrupt
    have hstate : ∀ w : Worker, (w.signalHandler c).leaving = (w.leaving || c.leaves) := by
      intro w
      cases c <;> simp [Worker.signalHandler,Worker.leaving,Command.leaves]
    rcases h with h | h | ⟨command,hmem,hleaves⟩
    · exact .inl h
    · refine .inr (.inl ?_)
      rw [settled_leaving] at h ⊢
      simp only [Mailbox.modify,hstate]
      grind
    · by_cases hc : command = some c
      · -- the signal that arrives
        subst hc
        obtain ⟨c',hc',hleaves⟩ := hleaves.resolve_left (by simp)
        cases hc'
        refine .inr (.inl ?_)
        rw [settled_leaving]
        simp [Mailbox.modify,hstate,hleaves]
      · exact .inr (.inr ⟨command,(List.mem_erase_of_ne hc).mpr hmem,hleaves⟩)

end Mate

/-! ### What a process hears of a call -/

section Hear
variable {wire : Wire} {n i : ℕ} {child : Mate} {mate : Option Mate} {events : List Event} {pid fd : ℤ}

/-- An event that neither forks the process nor writes to it leaves what signals leave. -/
theorem hear_frame {P : Mate → Prop} {e : Event} (hfork : ∀ pid, e ≠ .forked n pid) (hwrite : ∀ ch, e ≠ .write n ch)
    (hkill : ∀ p command, P p → P (p.kill command)) (h : ∀ p ∈ mate, P p) : ∀ p ∈ hear wire n child mate e, P p := by
  intro p hp
  cases e with
  | forked j pid =>
    have hj : j ≠ n := fun hj => hfork pid (hj ▸ rfl)
    rw [hear,if_neg hj] at hp
    exact h p hp
  | write j ch =>
    have hj : j ≠ n := fun hj => hwrite ch (hj ▸ rfl)
    rw [hear,if_neg hj] at hp
    exact h p hp
  | kill j pid command =>
    rw [hear] at hp
    split at hp
    · obtain ⟨q,hq,rfl⟩ := Option.map_eq_some_iff.mp (Option.mem_def.mp hp)
      exact hkill q command (h q hq)
    · exact h p hp
  | _ => exact h p hp

/-- A process that knows about a slot, or is written the truth about it, and is written nothing else about
it, knows about it afterwards. -/
theorem hear_knows (hfork : ∀ pid, .forked n pid ∉ events)
    (htrue : ∀ ch, .write n ch ∈ events → ch.About i → ch = ⟨.openChannel,pid,i,fd⟩)
    (h : (∀ p ∈ mate, p.Knows i pid fd) ∨ .write n ⟨.openChannel,pid,i,fd⟩ ∈ events) :
    ∀ p ∈ events.foldl (hear wire n child) mate, p.Knows i pid fd := by
  induction events generalizing mate with
  | nil => exact h.resolve_right (by simp)
  | cons e events ih =>
    refine ih (fun pid hmem => hfork pid (List.mem_cons_of_mem _ hmem))
      (fun ch hmem => htrue ch (List.mem_cons_of_mem _ hmem)) ?_
    by_cases hwrite : ∃ ch, e = .write n ch
    · obtain ⟨ch,rfl⟩ := hwrite
      rw [hear,if_pos rfl]
      by_cases habout : ch.About i
      · have hch := htrue ch List.mem_cons_self habout
        subst hch
        left
        intro p hp
        obtain ⟨q,-,rfl⟩ := Option.map_eq_some_iff.mp (Option.mem_def.mp hp)
        exact Mate.knows_write q _ i pid fd
      · rcases h with h | h
        · left
          intro p hp
          obtain ⟨q,hq,rfl⟩ := Option.map_eq_some_iff.mp (Option.mem_def.mp hp)
          exact (h q hq).write_other habout
        · rcases List.mem_cons.mp h with heq | h
          · cases heq
            exact absurd ⟨.inl rfl,rfl⟩ habout
          · exact .inr h
    · refine h.imp (fun hknows => ?_) fun hmem => ?_
      · exact hear_frame (fun pid heq => hfork pid (List.mem_cons.mpr (.inl heq.symm))) (fun ch heq => hwrite ⟨ch,heq⟩)
          (fun _ _ h => h) hknows
      · rcases List.mem_cons.mp hmem with heq | hmem
        · exact absurd ⟨_,heq.symm⟩ hwrite
        · exact hmem

/-- Something that tells a process to leave reaches it. -/
def Event.Orders (wire : Wire) (n : ℕ) : Event → Prop
  | .write i ch => i = n ∧ wire.written n ch = true ∧ ch.command.leaves = true
  | .kill i _ command => i = n ∧ wire.killed = true ∧ (command = none ∨ ∃ c, command = some c ∧ c.leaves = true)
  | _ => False

/-- A process that has been told to leave, or is told, has been told afterwards. -/
theorem hear_told (hfork : ∀ pid, .forked n pid ∉ events)
    (h : (∀ p ∈ mate, p.Told) ∨ ∃ e ∈ events, e.Orders wire n) :
    ∀ p ∈ events.foldl (hear wire n child) mate, p.Told := by
  induction events generalizing mate with
  | nil => exact h.resolve_right (by simp)
  | cons e events ih =>
    refine ih (fun pid hmem => hfork pid (List.mem_cons_of_mem _ hmem)) ?_
    have hstep : (∀ p ∈ mate, p.Told) ∨ e.Orders wire n → ∀ p ∈ hear wire n child mate e, p.Told := by
      intro h p hp
      cases e with
      | forked j pid =>
        have hj : j ≠ n := by
          rintro rfl
          exact hfork pid List.mem_cons_self
        rw [hear,if_neg hj] at hp
        exact h.resolve_right id p hp
      | write j ch =>
        rw [hear] at hp
        split at hp
        · obtain ⟨q,hq,rfl⟩ := Option.map_eq_some_iff.mp (Option.mem_def.mp hp)
          rcases h with h | ⟨-,hwritten,hleaves⟩
          · exact (h q hq).write
          · rw [hwritten]
            exact Mate.told_write q hleaves
        · rename_i hj
          exact h.resolve_right (fun ho => hj ho.1) p hp
      | kill j pid command =>
        rw [hear] at hp
        split at hp
        · obtain ⟨q,hq,rfl⟩ := Option.map_eq_some_iff.mp (Option.mem_def.mp hp)
          rcases h with h | ⟨-,-,hleaves⟩
          · exact (h q hq).kill
          · exact Mate.told_kill q hleaves
        · rename_i hj
          exact h.resolve_right (fun ho => hj ⟨ho.1,ho.2.1⟩) p hp
      | _ => exact h.resolve_right id p hp
    rcases h with h | ⟨e',hmem,horders⟩
    · exact .inl (hstep (.inl h))
    · rcases List.mem_cons.mp hmem with rfl | hmem
      · exact .inl (hstep (.inr horders))
      · exact .inr ⟨e',hmem,horders⟩

end Hear

/-! ### What a call says -/

/-- The message that announces the child of a slot. -/
def Master.announce (s : Master) (i : ℕ) : Channel :=
  ⟨.openChannel,(s.processes i).pid,i,(s.processes i).channel0⟩

/-- A call that forks no child: the children that run afterwards ran before, nothing but the truth is
written about them, and those that are marked as exiting were marked before or are told to leave. -/
structure Still (wire : Wire) (s s' : Master) : Prop where
  log : ∃ events, s'.log = s.log ++ events ∧ (∀ i pid, .forked i pid ∉ events) ∧
    (∀ n ch i, .write n ch ∈ events → s'.Survives i → ch.About i → ch = s'.announce i) ∧
    ∀ i, s'.Survives i → (s'.processes i).exiting = true →
      (s.processes i).exiting = true ∨ ∃ e ∈ events, e.Orders wire i
  survives : ∀ i, s'.Survives i → s.Survives i ∧ s'.announce i = s.announce i

/-- A call that forks a child for the slot `k`: the others that run ran before, nothing is written about
them, and they are written the truth about the new child. -/
structure Born (k : ℕ) (s s' : Master) : Prop where
  log : ∃ before after pid, s'.log = s.log ++ (before ++ .forked k pid :: after) ∧
    (∀ i pid, .forked i pid ∉ before ++ after) ∧
    (∀ n ch i, .write n ch ∈ before ++ after → ch.About i → i = k) ∧
    (∀ n ch, .write n ch ∈ after → n ≠ k ∧ ch = s'.announce k) ∧
    ∀ n, n ≠ k → s'.Survives n → s'.Survives k → .write n (s'.announce k) ∈ after
  survives : ∀ i, i ≠ k → s'.Survives i → s.Survives i ∧ s'.processes i = s.processes i
  exiting : (s'.processes k).exiting = false

namespace Fleet
variable {f : Fleet} {run : Run} {wire : Wire}

/-- What the processes know: every running child knows the others that run, and has been told to leave when
the master takes it for leaving. -/
structure Informed (f : Fleet) : Prop where
  knows : ∀ n, ∀ p ∈ f.mates n, f.run.master.Survives n → ∀ i, i ≠ n → f.run.master.Survives i →
    p.Knows i (f.run.master.processes i).pid (f.run.master.processes i).channel0
  told : ∀ n, ∀ p ∈ f.mates n, f.run.master.Survives n → (f.run.master.processes n).exiting = true → p.Told

theorem call_mates {events : List Event} (hlog : run.master.log = f.run.master.log ++ events) (n : ℕ) :
    (f.call run wire).mates n = events.foldl (hear wire n (inherit f.run.master run.master)) (f.mates n) := by
  simp [call,hlog]

theorem Informed.still (h : f.Informed) (hstill : Still wire f.run.master run.master) : (f.call run wire).Informed := by
  obtain ⟨events,hlog,hfork,htrue,horders⟩ := hstill.log
  refine ⟨fun n p hp hn i hi hlive => ?_,fun n p hp hn hexiting => ?_⟩
  · rw [call_mates hlog] at hp
    obtain ⟨hold,hsame⟩ := hstill.survives i hlive
    refine hear_knows (hfork n) (fun ch hmem => htrue n ch i hmem hlive) (.inl fun q hq => ?_) p hp
    have hknows := h.knows n q hq (hstill.survives n hn).1 i hi hold
    simp only [Master.announce,Channel.mk.injEq] at hsame
    rw [← hsame.2.1,← hsame.2.2.2] at hknows
    exact hknows
  · rw [call_mates hlog] at hp
    refine hear_told (hfork n) ?_ p hp
    rcases horders n hn hexiting with hold | horders
    · exact .inl fun q hq => h.told n q hq (hstill.survives n hn).1 hold
    · exact .inr horders

theorem Informed.born {k : ℕ} (h : f.Informed) (hborn : Born k f.run.master run.master) :
    (f.call run wire).Informed := by
  obtain ⟨before,after,pid,hlog,hfork,habout,hafter,hannounced⟩ := hborn.log
  -- the new child hears only what follows its birth, and that is written to the others
  have hnew : ∀ p ∈ (f.call run wire).mates k, ∃ commands : List Event, (∀ ch, .write k ch ∉ commands) ∧
      (∀ pid, .forked k pid ∉ commands) ∧
      p ∈ commands.foldl (hear wire k (inherit f.run.master run.master)) (some (inherit f.run.master run.master)) := by
    intro p hp
    rw [call_mates hlog,List.foldl_append,List.foldl_cons,hear,if_pos rfl] at hp
    exact ⟨after,fun ch hmem => (hafter k ch hmem).1 rfl,fun pid hmem => hfork k pid (List.mem_append_right _ hmem),hp⟩
  have hothers : ∀ n, n ≠ k → ∀ pid', .forked n pid' ∉ before ++ .forked k pid :: after := by
    intro n hn pid' hmem
    rcases List.mem_append.mp hmem with hmem | hmem
    · exact hfork n pid' (List.mem_append_left _ hmem)
    · rcases List.mem_cons.mp hmem with heq | hmem
      · cases heq
        exact hn rfl
      · exact hfork n pid' (List.mem_append_right _ hmem)
  have hwritten : ∀ n ch, .write n ch ∈ before ++ .forked k pid :: after → .write n ch ∈ before ++ after := by
    intro n ch hmem
    simpa using hmem
  refine ⟨fun n p hp hn i hi hlive => ?_,fun n p hp hn hexiting => ?_⟩
  · by_cases hnk : n = k
    · subst hnk
      obtain ⟨hold,hsame⟩ := hborn.survives i hi hlive
      obtain ⟨commands,hnone,hforks,hp⟩ := hnew p hp
      refine hear_knows hforks (fun ch hmem => absurd hmem (hnone ch)) (.inl fun q hq => ?_) p hp
      cases hq
      intro _
      simp only [Mate.view,Mate.settled,inherit,Mailbox.settled,List.foldl_nil,call,hsame]
    · rw [call_mates hlog] at hp
      by_cases hik : i = k
      · subst hik
        rw [List.foldl_append,List.foldl_cons] at hp
        refine hear_knows (fun pid hmem => hfork n pid (List.mem_append_right _ hmem))
          (fun ch hmem _ => (hafter n ch hmem).2) (.inr (hannounced n hnk hn hlive)) p hp
      · obtain ⟨hold,hsame⟩ := hborn.survives i hik hlive
        refine hear_knows (hothers n hnk) (fun ch hmem ha => absurd (habout n ch i (hwritten n ch hmem) ha) hik)
          (.inl fun q hq => ?_) p hp
        have hknows := h.knows n q hq (hborn.survives n hnk hn).1 i hi hold
        rw [← hsame] at hknows
        exact hknows
  · by_cases hnk : n = k
    · subst hnk
      rw [show (f.call run wire).run.master = run.master from rfl,hborn.exiting] at hexiting
      cases hexiting
    · rw [call_mates hlog] at hp
      obtain ⟨hold,hsame⟩ := hborn.survives n hnk hn
      refine hear_told (hothers n hnk) (.inl fun q hq => ?_) p hp
      rw [show (f.call run wire).run.master = run.master from rfl,hsame] at hexiting
      exact h.told n q hq hold hexiting

end Fleet

/-! ### The calls -/

namespace Master
variable {s s' : Master} {mode : Respawn} {o : Outcome} {wire : Wire} {k : ℕ}

/-- What `ngx_pass_open_channel` writes. -/
theorem passOpenChannel_events (s : Master) (cause : Cause) (ch : Channel) :
    ∃ events, (s.passOpenChannel cause ch).log = s.log ++ events ∧ (∀ i pid, .forked i pid ∉ events) ∧
      ∀ n ch', .write n ch' ∈ events ↔ (n < s.lastProcess ∧ n ≠ s.processSlot ∧ (s.processes n).pid ≠ -1 ∧
        (s.processes n).channel0 ≠ -1) ∧ ch' = ch := by
  refine ⟨_,rfl,by simp,fun n ch' => ?_⟩
  simp [eq_comm (a := ch)]

/-- A call that changes nothing but flags. -/
theorem still_refl (h : s'.processes = s.processes) (hlast : s'.lastProcess = s.lastProcess) (hlog : s'.log = s.log) :
    Still wire s s' := by
  refine ⟨⟨[],by simp [hlog],by simp,by simp,fun i _ hi => .inl (by rwa [h] at hi)⟩,fun i hi => ?_⟩
  simpa [Survives,announce,h,hlast] using hi

/-- A slot without a running child. -/
def Vacant (s : Master) (k : ℕ) : Prop := k < s.lastProcess → (s.processes k).pid = -1 ∨ (s.processes k).exited = true

theorem vacant_spawnSlot (s : Master) (h : mode.isSlot = false) : s.Vacant (s.spawnSlot mode) := by
  have hslot : s.spawnSlot mode = s.search (-1) := by
    cases mode with
    | slot i => cases h
    | _ => rfl
  intro hlt
  rw [hslot] at hlt ⊢
  exact .inl ((s.search_cases (-1)).2.resolve_right hlt.ne).2

/-- A call of `ngx_spawn_process` that fails for a slot without a running child, when nothing but the truth
about children is said after it. -/
theorem SpawnFails.still (h : SpawnFails s k s') (hk : s.Vacant k) {before after : List Event} {t : Master}
    (hprocesses : t.processes = s'.processes) (hlast : t.lastProcess = s'.lastProcess) {u : Master}
    (hu : s.log = u.log ++ before) (hlog : t.log = s'.log ++ after)
    (hsurvives : ∀ i, s.Survives i → u.Survives i ∧ s.processes i = u.processes i)
    (hfork : ∀ i pid, .forked i pid ∉ before ++ after)
    (hbefore : ∀ n ch i, .write n ch ∈ before → ch.About i → i = k)
    (hafter : ∀ n ch, .write n ch ∈ after → ∃ j, ch = s'.announce j) : Still wire u t := by
  obtain ⟨quiet,hquiet,hall⟩ := h.log
  have hold : ∀ i, t.Survives i → i ≠ k ∧ u.Survives i ∧ t.processes i = u.processes i := by
    intro i hi
    have hne : i ≠ k := by
      rintro rfl
      obtain ⟨fd0,fd1,hself⟩ := h.self
      obtain ⟨hlt,hexited,hpid,-⟩ := hi
      rw [hlast,h.lastProcess] at hlt
      rw [hprocesses,hself] at hexited hpid
      rcases hk hlt with hfree | hgone
      · exact hpid hfree
      · exact absurd (hgone.symm.trans hexited) (by decide)
    have hsame : t.processes i = s.processes i := by rw [hprocesses,h.other i hne]
    have hs : s.Survives i := by
      have hi' := hi
      unfold Survives at hi' ⊢
      rwa [hsame,hlast,h.lastProcess] at hi'
    exact ⟨hne,(hsurvives i hs).1,hsame.trans (hsurvives i hs).2⟩
  refine ⟨⟨before ++ (quiet ++ after),?_,?_,?_,?_⟩,fun i hi => ⟨(hold i hi).2.1,?_⟩⟩
  · rw [hlog,hquiet,hu]
    simp
  · intro i pid hmem
    rcases List.mem_append.mp hmem with hmem | hmem
    · exact hfork i pid (List.mem_append_left _ hmem)
    · rcases List.mem_append.mp hmem with hmem | hmem
      · exact hall _ hmem
      · exact hfork i pid (List.mem_append_right _ hmem)
  · intro n ch i hmem hi habout
    rcases List.mem_append.mp hmem with hmem | hmem
    · exact absurd (hbefore n ch i hmem habout) (hold i hi).1
    · rcases List.mem_append.mp hmem with hmem | hmem
      · exact absurd (hall _ hmem) id
      · obtain ⟨j,rfl⟩ := hafter n ch hmem
        obtain rfl : j = i := habout.2
        simp [announce,hprocesses]
  · intro i hi hexiting
    rw [(hold i hi).2.2] at hexiting
    exact .inl hexiting
  · simp [announce,(hold i hi).2.2]

/-- A call of `ngx_spawn_process` that forks a child for a slot without a running one, when nothing but its
announcement is said after it. -/
theorem SpawnForks.born {pid : ℤ} {p : Entry} (h : SpawnForks s mode pid p s') (hexiting : p.exiting = false)
    {before after : List Event} {u t : Master} (hprocesses : t.processes = s'.processes)
    (hlast : t.lastProcess = s'.lastProcess) (hu : s.log = u.log ++ before) (hlog : t.log = s'.log ++ after)
    (hsurvives : ∀ i, s.Survives i → u.Survives i ∧ s.processes i = u.processes i)
    (hfork : ∀ i pid, .forked i pid ∉ before ++ after)
    (hbefore : ∀ n ch i, .write n ch ∈ before → ch.About i → i = s.spawnSlot mode)
    (hafter : ∀ n ch, .write n ch ∈ after → n ≠ s.spawnSlot mode ∧ ch = s'.announce (s.spawnSlot mode))
    (hannounced : ∀ n, n ≠ s.spawnSlot mode → s'.Survives n → s'.Survives (s.spawnSlot mode) →
      .write n (s'.announce (s.spawnSlot mode)) ∈ after) : Born (s.spawnSlot mode) u t := by
  have hannounce : ∀ i, t.announce i = s'.announce i := fun i => by simp [announce,hprocesses]
  have hsurvivors : ∀ i, t.Survives i ↔ s'.Survives i := fun i => by simp [Survives,hprocesses,hlast]
  refine ⟨⟨before ++ [.spawn mode],after,pid,?_,?_,?_,?_,?_⟩,fun i hi hlive => ?_,?_⟩
  · rw [hlog,h.log,hu]
    simp
  · intro i pid' hmem
    refine hfork i pid' ?_
    simpa using hmem
  · intro n ch i hmem habout
    have hmem' : .write n ch ∈ before ++ after := by simpa using hmem
    rcases List.mem_append.mp hmem' with hmem | hmem
    · exact hbefore n ch i hmem habout
    · rw [(hafter n ch hmem).2] at habout
      exact habout.2.symm
  · intro n ch hmem
    rw [hannounce]
    exact hafter n ch hmem
  · intro n hn hsurv hk
    rw [hannounce]
    exact hannounced n hn ((hsurvivors n).mp hsurv) ((hsurvivors _).mp hk)
  · have hlive' := (hsurvivors i).mp hlive
    have hsame : s'.processes i = s.processes i := by rw [h.processes,Function.update_of_ne hi]
    have hs : s.Survives i := by
      obtain ⟨hlt,hrest⟩ := hlive'
      rw [hsame] at hrest
      exact ⟨h.lt hlt hi,hrest⟩
    exact ⟨(hsurvives i hs).1,by rw [hprocesses,hsame,(hsurvives i hs).2]⟩
  · rw [hprocesses,h.processes,Function.update_self]
    exact hexiting

theorem setMode_exiting (p : Entry) (h : mode.isSlot = false) : (p.setMode mode).exiting = false := by
  cases mode with
  | slot i => cases h
  | _ => rfl

/-- A start of a process that is announced. -/
theorem startWorker_said (hstart : s.startWorker mode o = .ok s') (hmode : mode.isSlot = false) :
    Still wire s s' ∨ ∃ k, Born k s s' := by
  obtain ⟨⟨t,child⟩,hspawn,hs'⟩ := bind_ok hstart
  cases hs'
  obtain ⟨events,hlog,hfork,hwrite⟩ := t.passOpenChannel_events (.spawn child) t.openMessage
  rcases spawnProcess_cases hspawn with ⟨-,-,hfails⟩ | ⟨pid,p,-,-,hforks⟩
  · exact .inl (hfails.still (t := t.passOpenChannel (.spawn child) t.openMessage) (s.vacant_spawnSlot hmode) rfl rfl
      (List.append_nil _).symm hlog (fun i hi => ⟨hi,rfl⟩) hfork (by simp)
      fun n ch hmem => ⟨_,((hwrite n ch).mp hmem).2⟩)
  · obtain ⟨fd0,fd1,hp⟩ := hforks.entry
    have hopen : t.openMessage = t.announce (s.spawnSlot mode) := by rw [openMessage,hforks.processSlot,announce]
    refine .inr ⟨_,hforks.born ?_ rfl rfl (List.append_nil _).symm hlog (fun i hi => ⟨hi,rfl⟩) hfork (by simp) ?_ ?_⟩
    · rw [hp]
      exact setMode_exiting _ hmode
    · intro n ch hmem
      obtain ⟨hn,hch⟩ := (hwrite n ch).mp hmem
      exact ⟨hforks.processSlot ▸ hn.2.1,hch.trans hopen⟩
    · intro n hn hlive _
      exact (hwrite n _).mpr ⟨⟨hlive.1,hforks.processSlot ▸ hn,hlive.2.2.1,hlive.2.2.2⟩,hopen.symm⟩

/-- `ngx_execute`: the new process has no channel. -/
theorem execute_said {child : Option Child} (hspawn : s.spawnProcess .detached o = .ok (s',child)) :
    Still wire s s' ∨ ∃ k, Born k s s' := by
  rcases spawnProcess_cases hspawn with ⟨-,-,hfails⟩ | ⟨pid,p,-,-,hforks⟩
  · exact .inl (hfails.still (s.vacant_spawnSlot rfl) rfl rfl (List.append_nil _).symm (List.append_nil _).symm
      (fun i hi => ⟨hi,rfl⟩) (by simp) (by simp) (by simp))
  · have hnone : (s'.processes (s.spawnSlot .detached)).channel0 = -1 := by
      rcases spawnProcess_channels hspawn with ⟨-,-,-,hlog⟩ | ⟨fd0,fd1,hends,⟨-,-,-,hlog⟩ | ⟨pid',p',hforks',h0,-⟩⟩
      · rw [hforks.log] at hlog
        simp at hlog
      · rw [hforks.log] at hlog
        simp at hlog
      · rw [hforks'.processes,Function.update_self,h0]
        exact (hends.of_none (if_pos (.inl rfl))).1
    obtain ⟨fd0,fd1,hp⟩ := hforks.entry
    refine .inr ⟨_,hforks.born ?_ rfl rfl (List.append_nil _).symm (List.append_nil _).symm (fun i hi => ⟨hi,rfl⟩)
      (by simp) (by simp) (by simp) fun n _ _ hk => absurd hnone hk.2.2.2⟩
    rw [hp]
    rfl

/-- An exit that is collected. -/
theorem collect_said {pid : ℤ} {status : BitVec 32} (h : s.collect pid status = .ok s') : Still wire s s' := by
  have hcollected := collect_cases h
  have hold : ∀ i, s'.Survives i → s'.processes i = s.processes i := by
    intro i hi
    refine hcollected.other i ?_
    rintro rfl
    have hlt := hi.1
    rw [hcollected.lastProcess] at hlt
    exact absurd ((hcollected.exited hlt).symm.trans hi.2.1) (by decide)
  refine ⟨⟨_,hcollected.log,by simp,by simp,fun i hi hexiting => .inl (hold i hi ▸ hexiting)⟩,fun i hi => ⟨?_,?_⟩⟩
  · have hi' := hi
    unfold Survives at hi' ⊢
    rwa [hold i hi,hcollected.lastProcess] at hi'
  · simp [announce,hold i hi]

/-- What the end of a round does with a worker that no message reaches. -/
theorem killWorker_entry (s : Master) (signo : Signo) (i : ℕ) (d : Kill) :
    ((s.killWorker signo i d).processes i).channel0 = (s.processes i).channel0 ∧
    (((s.killWorker signo i d).processes i).exited = false → (s.processes i).exited = false ∧
      (((s.killWorker signo i d).processes i).exiting = true → (s.processes i).exiting = true ∨ d = .ok ∧ signo ≠ .reopen)) := by
  unfold killWorker
  cases d with
  | ok =>
    dsimp only
    split <;> simp_all [emit]
  | esrch => simp [setFlags,setEntry]
  | failed => exact ⟨rfl,fun h => ⟨h,.inl⟩⟩

/-- What a round of a broadcast does with its worker: one that is marked as exiting afterwards was marked
before, or has been written a message or got a signal. -/
theorem signalWorker_entry (s : Master) (signo : Signo) (i : ℕ) (d : Delivery) :
    ((s.signalWorker signo i d).processes i).channel0 = (s.processes i).channel0 ∧
    (((s.signalWorker signo i d).processes i).exited = false → (s.processes i).exited = false ∧
      (((s.signalWorker signo i d).processes i).exiting = true → (s.processes i).exiting = true ∨
        (s.processes i).hears signo = true ∧ signo ≠ .reopen ∧ (signo.command ≠ none ∧ d.written = true ∨
          (signo.command = none ∨ d.written = false) ∧ d.kill = .ok))) := by
  unfold signalWorker
  dsimp only
  split
  · exact ⟨rfl,fun h => ⟨h,.inl⟩⟩
  rename_i hused
  split
  · exact ⟨by simp,fun h => ⟨by simpa using h,fun hexiting => .inl (by simpa using hexiting)⟩⟩
  rename_i hold
  split
  · exact ⟨rfl,fun h => ⟨h,.inl⟩⟩
  rename_i hstays
  have hhears : (s.processes i).hears signo = true := by
    simp only [Entry.hears]
    grind
  split
  · rename_i hnone
    obtain ⟨hchannel,hentry⟩ := killWorker_entry s signo i d.kill
    refine ⟨hchannel,fun h => ⟨(hentry h).1,fun hexiting => ?_⟩⟩
    rcases (hentry h).2 hexiting with h | ⟨hok,hsigno⟩
    · exact .inl h
    · exact .inr ⟨hhears,hsigno,.inr ⟨.inl hnone,hok⟩⟩
  · rename_i command hsome
    split
    · rename_i hunwritten
      rw [Bool.not_eq_true'] at hunwritten
      obtain ⟨hchannel,hentry⟩ := killWorker_entry (s.emit (.write i ⟨command,0,0,-1⟩)) signo i d.kill
      refine ⟨hchannel,fun h => ⟨(hentry h).1,fun hexiting => ?_⟩⟩
      rcases (hentry h).2 hexiting with h | ⟨hok,hsigno⟩
      · exact .inl h
      · exact .inr ⟨hhears,hsigno,.inr ⟨.inr hunwritten,hok⟩⟩
    · rename_i hwritten
      rw [Bool.not_eq_true',Bool.not_eq_false] at hwritten
      split
      · exact ⟨rfl,fun h => ⟨h,.inl⟩⟩
      · rename_i hsigno
        refine ⟨by simp [emit],fun h => ⟨by simpa [emit] using h,fun _ => .inr ⟨hhears,hsigno,.inl ⟨?_,hwritten⟩⟩⟩⟩
        simp [hsome]

/-- A round of a broadcast. -/
theorem signalWorker_said (s : Master) (signo : Signo) (i : ℕ) (d : Delivery) :
    Still ⟨fun _ _ => d.written,d.kill = .ok⟩ s (s.signalWorker signo i d) := by
  have htold := signalWorker_told s signo i d
  obtain ⟨hchannel,hentry⟩ := signalWorker_entry s signo i d
  have hevents : ∀ e ∈ (if (s.processes i).hears signo then (s.processes i).attempt signo i d else []),
      (∀ j pid, e ≠ .forked j pid) ∧ ∀ n ch j, e = .write n ch → ¬ ch.About j := by
    intro e he
    split at he
    · unfold Entry.attempt at he
      cases signo <;> cases d.written <;> simp [Signo.command] at he <;> grind [Channel.About]
    · cases he
  refine ⟨⟨_,htold.log,fun j pid hmem => (hevents _ hmem).1 j pid rfl,
    fun n ch j hmem _ habout => absurd habout ((hevents _ hmem).2 n ch j rfl),fun j hj hexiting => ?_⟩,fun j hj => ?_⟩
  · by_cases hji : j = i
    · subst hji
      rcases (hentry hj.2.1).2 hexiting with h | ⟨hhears,hsigno,hreached⟩
      · exact .inl h
      · right
        rw [if_pos hhears]
        -- a message, or a signal in its place
        rcases hreached with ⟨hsome,hwritten⟩ | ⟨hlost,hok⟩
        · refine ⟨.write j ⟨(signo.command.getD .reopen),0,0,-1⟩,?_,rfl,hwritten,?_⟩ <;>
            cases signo <;> simp_all [Entry.attempt,Signo.command,Command.leaves]
        · refine ⟨.kill j (s.processes j).pid signo.command,?_,rfl,by simp [hok],?_⟩ <;>
            cases signo <;> simp_all [Entry.attempt,Signo.command,Command.leaves]
    · rw [htold.other j hji] at hexiting
      exact .inl hexiting
  · by_cases hji : j = i
    · subst hji
      obtain ⟨hlt,hexited,hpid,hfd⟩ := hj
      refine ⟨⟨htold.lastProcess ▸ hlt,(hentry hexited).1,htold.pid ▸ hpid,hchannel ▸ hfd⟩,?_⟩
      simp [announce,htold.pid,hchannel]
    · have hsame := htold.other j hji
      have hj' := hj
      unfold Survives at hj' ⊢
      rw [hsame,htold.lastProcess] at hj'
      exact ⟨hj',by simp [announce,hsame]⟩

end Master

namespace Reaping
variable {r r' : Reaping} {i : ℕ} {o : Outcome} {wire : Wire}

/-- What is said about an exited child before its slot gets a successor or is dropped. -/
theorem passClose_said (r : Reaping) (i : ℕ) : ∃ events, (r.passClose i).master.log = r.master.log ++ events ∧
    (∀ j pid, .forked j pid ∉ events) ∧ ∀ n ch, .write n ch ∈ events → ch.slot = i := by
  refine ⟨_,by simp [passClose,Master.closeChannel,Master.emit,Master.setChannel,Master.setEntry]; rfl,by simp,
    fun n ch hmem => ?_⟩
  simp at hmem
  rw [← hmem.2]

/-- What is said about an exited child, if it had a channel. -/
theorem closing_said (hexited : (r.master.processes i).exited = true) {r₁ : Reaping}
    (hr₁ : r₁ = if (r.master.processes i).detached then r else r.passClose i) :
    ∃ before, r₁.master.log = r.master.log ++ before ∧ (∀ j pid, .forked j pid ∉ before) ∧
      (∀ n ch, .write n ch ∈ before → ch.slot = i) ∧ r₁.master.lastProcess = r.master.lastProcess ∧
      (∀ j, j ≠ i → r₁.master.processes j = r.master.processes j) ∧ (r₁.master.processes i).exited = true := by
  split at hr₁
  · subst hr₁
    exact ⟨[],by simp,by simp,by simp,rfl,fun _ _ => rfl,hexited⟩
  · subst hr₁
    obtain ⟨events,hlog,hfork,hwrite⟩ := r.passClose_said i
    have hclosed := r.passClose_closed i
    refine ⟨events,hlog,hfork,hwrite,hclosed.lastProcess,fun j hj => ?_,?_⟩
    · rw [hclosed.processes,Function.update_of_ne hj]
    · rw [hclosed.processes,Function.update_self]
      exact hexited

/-- Who is there after a slot is dropped was there before. -/
theorem drop_survives {j : ℕ} (h : (r.drop i).master.Survives j) :
    r.master.Survives j ∧ (r.drop i).master.processes j = r.master.processes j := by
  obtain ⟨⟨hi,hlast,hprocesses⟩ | ⟨hi,hlast,hprocesses⟩,-,-⟩ := r.drop_cases i
  · obtain ⟨hlt,hrest⟩ := h
    rw [hprocesses] at hrest
    exact ⟨⟨by omega,hrest⟩,by rw [hprocesses]⟩
  · have hne : j ≠ i := by
      rintro rfl
      have hpid := h.2.2.1
      rw [hprocesses,Function.update_self] at hpid
      exact hpid rfl
    have hsame : (r.drop i).master.processes j = r.master.processes j := by
      rw [hprocesses,Function.update_of_ne hne]
    have h' := h
    unfold Master.Survives at h' ⊢
    rw [hsame,hlast] at h'
    exact ⟨h',hsame⟩

/-- A round of the loop of `ngx_reap_children`. -/
theorem slot_said (h : r.slot i o = .ok r') :
    Still wire r.master r'.master ∨ ∃ k, Born k r.master r'.master := by
  rcases slot_cases h with ⟨-,rfl⟩ | ⟨-,-,rfl⟩ | ⟨-,hexited,r₁,hr₁,hcases⟩
  · exact .inl (Master.still_refl rfl rfl rfl)
  · exact .inl (Master.still_refl rfl rfl rfl)
  obtain ⟨before,hbefore,hfork,hwrite,hlast,hother,hgone⟩ := closing_said hexited hr₁
  have hsurvives : ∀ j, r₁.master.Survives j → r.master.Survives j ∧ r₁.master.processes j = r.master.processes j := by
    intro j hj
    have hne : j ≠ i := by
      rintro rfl
      exact absurd (hgone.symm.trans hj.2.1) (by decide)
    have hj' := hj
    unfold Master.Survives at hj' ⊢
    rw [hother j hne,hlast] at hj'
    exact ⟨hj',hother j hne⟩
  rcases hcases with ⟨hrespawn,hr'⟩ | ⟨-,rfl⟩
  · rcases respawn_cases hr' with ⟨-,s,hfails,rfl⟩ | ⟨pid,p,s,-,hforks,rfl⟩
    · exact .inl (hfails.still (fun _ => .inr hgone) rfl rfl hbefore (List.append_nil _).symm hsurvives
        (by simpa using hfork) (fun n ch j hmem habout => habout.2.symm.trans (hwrite n ch hmem)) (by simp))
    · obtain ⟨events,hlog,hnone,htold⟩ := s.passOpenChannel_events (.spawn (some ⟨i,p⟩)) s.openMessage
      obtain ⟨fd0,fd1,hp⟩ := hforks.entry
      have hopen : s.openMessage = s.announce i := by
        rw [Master.openMessage,hforks.processSlot]
        rfl
      refine .inr ⟨i,hforks.born (t := s.passOpenChannel (.spawn (some ⟨i,p⟩)) s.openMessage) ?_ rfl rfl hbefore hlog hsurvives (fun j pid hmem => ?_)
        (fun n ch j hmem habout => habout.2.symm.trans (hwrite n ch hmem)) ?_ ?_⟩
      · rw [hp]
        simp only [Reaping.respawns,Bool.and_eq_true,Bool.not_eq_true'] at hrespawn
        exact hrespawn.1.1.2
      · rcases List.mem_append.mp hmem with hmem | hmem
        · exact hfork j pid hmem
        · exact hnone j pid hmem
      · intro n ch hmem
        obtain ⟨hn,hch⟩ := (htold n ch).mp hmem
        exact ⟨hforks.processSlot ▸ hn.2.1,hch.trans hopen⟩
      · intro n hn hlive _
        exact (htold n _).mpr ⟨⟨hlive.1,hforks.processSlot ▸ hn,hlive.2.2.1,hlive.2.2.2⟩,hopen.symm⟩
  · left
    obtain ⟨-,hlog,-⟩ := r₁.drop_cases i
    have hsame : ∀ j, (r₁.drop i).master.Survives j →
        r.master.Survives j ∧ (r₁.drop i).master.processes j = r.master.processes j := fun j hj =>
      ⟨(hsurvives j (drop_survives hj).1).1,(drop_survives hj).2.trans (hsurvives j (drop_survives hj).1).2⟩
    refine ⟨⟨before,hlog.trans hbefore,hfork,fun n ch j hmem hj habout => ?_,fun j hj hexiting => ?_⟩,fun j hj => ?_⟩
    · obtain rfl : j = i := habout.2.symm.trans (hwrite n ch hmem)
      exact absurd (hexited.symm.trans (hsame j hj).1.2.1) (by decide)
    · exact .inl ((hsame j hj).2 ▸ hexiting)
    · exact ⟨(hsame j hj).1,by simp [Master.announce,(hsame j hj).2]⟩

end Reaping

/-! ### Whole runs -/

/-- What a call says. -/
theorem Call.said {c : Call} {s s' : Run} (hallowed : c.Allowed s) (h : c.run s = .ok s')
    (written : ℕ → Channel → Bool) : Still (c.wire written) s.master s'.master ∨ ∃ k, Born k s.master s'.master := by
  cases c with
  | start mode o =>
    obtain ⟨master,hstart,hs'⟩ := bind_ok h
    cases hs'
    exact Master.startWorker_said hstart hallowed.2
  | execute o =>
    obtain ⟨⟨master,child⟩,hspawn,hs'⟩ := bind_ok h
    cases hs'
    exact Master.execute_said hspawn
  | exit pid status =>
    obtain ⟨master,hstatus,hs'⟩ := bind_ok h
    cases hs'
    obtain ⟨t,hcollect,ht⟩ := bind_ok hstatus
    cases ht
    exact .inl (Master.collect_said hcollect)
  | flags new =>
    cases h
    exact .inl (Master.still_refl rfl rfl rfl)
  | reap =>
    cases h
    exact .inl (Master.still_refl rfl rfl rfl)
  | slot o =>
    obtain ⟨⟨i,hi,-⟩,-⟩ := And.intro hallowed trivial
    obtain ⟨ch,live,hphase⟩ := Run.slot_phase hi
    simp only [Call.run,Run.run,hphase] at h
    obtain ⟨r,hslot,hs'⟩ := bind_ok h
    cases hs'
    exact Reaping.slot_said hslot
  | reaped =>
    cases h
    exact .inl (Master.still_refl rfl rfl rfl)
  | tell signo i d =>
    cases h
    exact .inl (Master.signalWorker_said s.master signo i d)

namespace Fleet
variable {f f' : Fleet}

/-- A process that does something by itself, and knows and has been told what it did before. -/
theorem Informed.setMate (h : f.Informed) {n : ℕ} {p : Mate} (hp : f.mates n = some p) {mate : Option Mate}
    (hview : ∀ q ∈ mate, ∀ i, q.view i = p.view i ∧ q.missed = p.missed) (htold : ∀ q ∈ mate, p.Told → q.Told) :
    (f.setMate n mate).Informed := by
  refine ⟨fun m q hq hm i hi hlive => ?_,fun m q hq hm hexiting => ?_⟩
  · by_cases hmn : m = n
    · subst hmn
      simp only [Fleet.setMate,Function.update_self] at hq
      intro hmissed
      obtain ⟨hsame,hmissed'⟩ := hview q hq i
      rw [hsame]
      exact h.knows m p hp hm i hi hlive (hmissed' ▸ hmissed)
    · simp only [Fleet.setMate,Function.update_of_ne hmn] at hq
      exact h.knows m q hq hm i hi hlive
  · by_cases hmn : m = n
    · subst hmn
      simp only [Fleet.setMate,Function.update_self] at hq
      exact htold q hq (h.told m p hp hm hexiting)
    · simp only [Fleet.setMate,Function.update_of_ne hmn] at hq
      exact h.told m q hq hm hexiting

/-- Every step keeps what the processes know. -/
theorem Informed.step (h : f.Informed) {a : Deed} (hstep : f.step a = some f') : f'.Informed := by
  cases a with
  | call c written =>
    obtain ⟨hallowed,hcall⟩ := Option.ite_none_right_eq_some.mp hstep
    obtain ⟨run,hrun,rfl⟩ := Option.map_eq_some_iff.mp hcall
    rcases c.said hallowed (toOption_ok hrun) written with hstill | ⟨k,hborn⟩
    · exact h.still hstill
    · exact h.born hborn
  | read n =>
    obtain ⟨p,hp,rfl⟩ := Option.map_eq_some_iff.mp hstep
    refine h.setMate hp (fun q hq i => ?_) (fun q hq htold => ?_)
    · cases hq
      exact ⟨Mate.read_view p i,rfl⟩
    · cases hq
      exact htold.read
  | signal n command =>
    obtain ⟨p,hp,rfl⟩ := Option.map_eq_some_iff.mp hstep
    refine h.setMate hp (fun q hq i => ?_) (fun q hq htold => ?_)
    · cases hq
      exact ⟨rfl,rfl⟩
    · cases hq
      exact htold.kill
  | interrupt n command =>
    obtain ⟨p,hp,hinterrupt⟩ := Option.bind_eq_some_iff.mp hstep
    obtain ⟨-,hf'⟩ := Option.ite_none_right_eq_some.mp hinterrupt
    cases hf'
    exact h.setMate hp (fun q hq => Mate.interrupt_view hq) (fun q hq htold => htold.interrupt hq)
  | round n =>
    obtain ⟨p,hp,rfl⟩ := Option.map_eq_some_iff.mp hstep
    exact h.setMate hp (fun q hq => Mate.round_view hq) (fun q hq htold => htold.round hq)
  | die n =>
    cases hstep
    cases hp : f.mates n with
    | none =>
      refine ⟨fun m q hq => ?_,fun m q hq => ?_⟩ <;>
      · have hmn : m ≠ n := by
          rintro rfl
          simp [Fleet.setMate] at hq
        simp only [Fleet.setMate,Function.update_of_ne hmn] at hq
        first | exact h.knows m q hq | exact h.told m q hq
    | some p => exact h.setMate hp (by simp) (by simp)

end Fleet

/-- In every state that the master and its processes reach, whatever the order of their steps, a running child
that has read its messages knows every other running child, but for those whose latest announcement could not
be written; and every child that the master takes for leaving has been told to leave, is about to read or to be
interrupted by it, or is gone. -/
theorem fleet_informed {f : Fleet} (h : sailing.Reachable f) :
    (∀ n, ∀ p ∈ f.mates n, f.run.master.Survives n → ∀ i, i ≠ n → f.run.master.Survives i →
      p.Knows i (f.run.master.processes i).pid (f.run.master.processes i).channel0) ∧
    ∀ n, ∀ p ∈ f.mates n, f.run.master.Survives n → (f.run.master.processes n).exiting = true → p.Told := by
  have hinformed : f.Informed := by
    refine h.invariant (fun f hinit => ?_) fun f a f' _ hf hstep => hf.step hstep
    obtain ⟨-,-,hmates⟩ := hinit
    exact ⟨fun n p hp => by simp [hmates] at hp,fun n p hp => by simp [hmates] at hp⟩
  exact ⟨hinformed.knows,hinformed.told⟩

/-- Two workers: the first has read the announcement of the second, and its order to quit waits. -/
theorem fleet_informed_pair : ∃ f p, sailing.Reachable f ∧ f.mates 0 = some p ∧ p.view 1 = (101,12) ∧ p.Told := by
  obtain ⟨f,hf⟩ : ∃ f, TransitionSystem.replay Fleet.step ⟨⟨idleMaster,.asleep⟩,fun _ => none⟩
      [.call (.start .respawn ⟨.ready 10 11,some 100⟩) fun _ _ => true,
        .call (.start .respawn ⟨.ready 12 13,some 101⟩) fun _ _ => true,.read 0,
        .call (.tell .shutdown 0 ⟨true,.ok⟩) fun _ _ => true] = some f := ⟨_,rfl⟩
  have hreach : sailing.Reachable f := .of_replay (.init ⟨rfl,rfl,rfl⟩) hf
  obtain ⟨hknows,htold⟩ := fleet_informed hreach
  obtain ⟨p,hp,hmissed⟩ : ∃ p, f.mates 0 = some p ∧ p.missed 1 = false := by
    cases hf
    exact ⟨_,rfl,rfl⟩
  have hsurvive : f.run.master.Survives 0 ∧ f.run.master.Survives 1 := by
    cases hf
    exact ⟨⟨by decide,rfl,by decide,by decide⟩,⟨by decide,rfl,by decide,by decide⟩⟩
  have hview : ((f.run.master.processes 1).pid,(f.run.master.processes 1).channel0) = (101,12) := by
    cases hf
    rfl
  exact ⟨f,p,hreach,hp,(hknows 0 p hp hsurvive.1 1 (by decide) hsurvive.2 hmissed).trans hview,
    htold 0 p hp hsurvive.1 (by cases hf; rfl)⟩

end InsideNginx.Process
