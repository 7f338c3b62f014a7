import InsideNginx.Fault

/-! The process table of the master: spawning children, collecting their exit statuses, and
reaping. Every system call gets its result from an outcome that the environment chooses. -/
namespace InsideNginx.Process

/-- NGX_MAX_PROCESSES. -/
def maxProcesses : ℕ := 1024

/-- The argument `respawn` of `ngx_spawn_process`: a slot, or one of the negative modes. -/
inductive Respawn
  | slot (i : ℕ)
  | norespawn
  | justSpawn
  | respawn
  | justRespawn
  | detached
  deriving DecidableEq, Repr

/-- `ngx_process_t`, without what is only handed on to the child. -/
structure Entry where
  pid : ℤ
  status : BitVec 32
  channel0 : ℤ
  channel1 : ℤ
  respawn : Bool
  justSpawn : Bool
  detached : Bool
  exiting : Bool
  exited : Bool
  deriving DecidableEq, Repr

/-- NGX_CMD_OPEN_CHANNEL and its siblings. -/
inductive Command
  | openChannel
  | closeChannel
  | quit
  | terminate
  | reopen
  deriving DecidableEq, Repr

/-- `ngx_channel_t`. -/
structure Channel where
  command : Command
  pid : ℤ
  slot : ℕ
  fd : ℤ
  deriving DecidableEq, Repr

/-- A child that `ngx_spawn_process` has returned: its slot, and the entry at that moment. -/
structure Child where
  slot : ℕ
  entry : Entry
  deriving DecidableEq, Repr

/-- What a broadcast is about: the exit of a child, or a call of `ngx_spawn_process`, by its result. -/
inductive Cause
  | exit (slot : ℕ) (pid : ℤ)
  | spawn (child : Option Child)
  deriving DecidableEq, Repr

/-- What the master has done apart from its own variables. -/
inductive Event
  | spawn (mode : Respawn)
  | forked (slot : ℕ) (pid : ℤ)
  | waited (pid : ℤ)
  | close (fd : ℤ)
  | broadcast (cause : Cause) (ch : Channel)
  | write (target : ℕ) (ch : Channel)
  | kill (target : ℕ) (pid : ℤ) (command : Option Command)
  deriving DecidableEq, Repr

/-- The flags of `ngx_process_cycle.c`, which the signal handler sets, and `ngx_new_binary`. -/
structure Flags where
  reap : Bool
  sigio : Bool
  sigalrm : Bool
  terminate : Bool
  quit : Bool
  reconfigure : Bool
  reopen : Bool
  changeBinary : Bool
  newBinary : ℤ
  daemonized : Bool
  noaccept : Bool
  noaccepting : Bool
  restart : Bool
  deriving DecidableEq, Repr

/-- The global variables of `ngx_process.c` and `ngx_process_cycle.c` without their prefix, and a
log of what happened, the latest event last. -/
structure Master where
  processes : ℕ → Entry
  lastProcess : ℕ
  processSlot : ℕ
  channel : ℤ
  flags : Flags
  log : List Event

/-- A master without children. -/
def idleMaster : Master where
  processes _ := ⟨0,0,0,0,false,false,false,false,false⟩
  lastProcess := 0
  processSlot := 0
  channel := 0
  flags := ⟨false,false,false,false,false,false,false,false,0,true,false,false,false⟩
  log := []

/-- What the calls that set up a channel return: `socketpair` may fail, or one of the calls on its
two descriptors. -/
inductive Pair
  | none
  | unusable (fd0 fd1 : ℤ)
  | ready (fd0 fd1 : ℤ)
  deriving DecidableEq, Repr

/-- The system calls of one `ngx_spawn_process`: the channel, and the pid that `fork` returns. -/
structure Outcome where
  pair : Pair
  fork : Option ℕ+
  deriving DecidableEq, Repr

def Outcome.pid? (o : Outcome) : Option ℤ := o.fork.map fun pid : ℕ+ => ((pid : ℕ) : ℤ)

namespace Master

def setEntry (s : Master) (i : ℕ) (p : Entry) : Master :=
  { s with processes := Function.update s.processes i p }

def emit (s : Master) (event : Event) : Master := { s with log := s.log ++ [event] }

/-- Where the loop `for (i = 0; i < ngx_last_process; i++)` finds the pid, or its end. -/
def search (s : Master) (pid : ℤ) : ℕ :=
  ((List.range s.lastProcess).find? fun i => (s.processes i).pid = pid).getD s.lastProcess

/-- `ngx_close_channel` of the channel of a slot. -/
def closeChannel (s : Master) (i : ℕ) : Master :=
  (s.emit (.close (s.processes i).channel0)).emit (.close (s.processes i).channel1)

def setChannel (s : Master) (i : ℕ) (fd0 fd1 : ℤ) : Master :=
  s.setEntry i { s.processes i with channel0 := fd0, channel1 := fd1 }

/-- The channel of a new child, and whether the spawning goes on. -/
def openChannel (s : Master) (i : ℕ) (mode : Respawn) (pair : Pair) : Master × Bool :=
  if mode = .detached then (s.setChannel i (-1) (-1),true)
  else
    match pair with
    | .none => (s,false)
    | .unusable fd0 fd1 => ((s.setChannel i fd0 fd1).closeChannel i,false)
    | .ready fd0 fd1 => ({ s.setChannel i fd0 fd1 with channel := fd1 },true)

end Master

/-- The flags of a new entry. -/
def Entry.setMode (p : Entry) : Respawn → Entry
  | .slot _ => p
  | .norespawn => { p with exiting := false, respawn := false, justSpawn := false, detached := false }
  | .justSpawn => { p with exiting := false, respawn := false, justSpawn := true, detached := false }
  | .respawn => { p with exiting := false, respawn := true, justSpawn := false, detached := false }
  | .justRespawn => { p with exiting := false, respawn := true, justSpawn := true, detached := false }
  | .detached => { p with exiting := false, respawn := false, justSpawn := false, detached := true }

def Respawn.isSlot : Respawn → Bool
  | .slot _ => true
  | _ => false

namespace Master

/-- What `ngx_spawn_process` does once there is a channel. -/
def forkChild (s : Master) (i : ℕ) (mode : Respawn) (fork : Option ℤ) : Master × Option Child :=
  let s := { s with processSlot := i }
  match fork with
  | none => (s.closeChannel i,none)
  | some pid =>
    let p := { s.processes i with pid := pid, exited := false }.setMode mode
    let s := (s.setEntry i p).emit (.forked i pid)
    let s := if !mode.isSlot && i = s.lastProcess then { s with lastProcess := s.lastProcess + 1 } else s
    (s,some ⟨i,p⟩)

/-- The slot that `ngx_spawn_process` takes. -/
def spawnSlot (s : Master) : Respawn → ℕ
  | .slot i => i
  | _ => s.search (-1)

/-- `ngx_spawn_process`, in the master; NGX_INVALID_PID is `none`. -/
def spawnProcess (s : Master) (mode : Respawn) (o : Outcome) : Except Fault (Master × Option Child) :=
  let i := s.spawnSlot mode
  let s := s.emit (.spawn mode)
  if !mode.isSlot && i = maxProcesses then .ok (s,none)
  else if maxProcesses ≤ i then .error .outOfBounds
  else
    match s.openChannel i mode o.pair with
    | (s,false) => .ok (s,none)
    | (s,true) => .ok (s.forkChild i mode o.pid?)

end Master

/-- What `waitpid` returns: no child has exited, an interruption, an exit, or another error. -/
inductive Wait
  | running
  | interrupted
  | child (pid : ℤ) (status : BitVec 32)
  | failed
  deriving DecidableEq, Repr

/-- WEXITSTATUS. -/
def exitStatus (status : BitVec 32) : BitVec 32 := (status &&& 0xff00) >>> 8

namespace Master

/-- What `ngx_process_get_status` does with a child that `waitpid` reports. -/
def collect (s : Master) (pid : ℤ) (status : BitVec 32) : Except Fault Master :=
  let i := s.search pid
  let s := s.emit (.waited pid)
  let s := if i < s.lastProcess then s.setEntry i { s.processes i with status := status, exited := true } else s
  if exitStatus status = 2 then
    if maxProcesses ≤ i then .error .outOfBounds
    else if (s.processes i).respawn then .ok (s.setEntry i { s.processes i with respawn := false })
    else .ok s
  else .ok s

/-- `ngx_process_get_status`, with the results of `waitpid` in turn. -/
def processGetStatus (s : Master) : List Wait → Except Fault Master
  | [] | .running :: _ | .failed :: _ => .ok s
  | .interrupted :: waits => s.processGetStatus waits
  | .child pid status :: waits => do
    let s ← s.collect pid status
    s.processGetStatus waits

/-- `ngx_pass_open_channel`. -/
def passOpenChannel (s : Master) (cause : Cause) (ch : Channel) : Master :=
  let receives i := i ≠ s.processSlot ∧ (s.processes i).pid ≠ -1 ∧ (s.processes i).channel0 ≠ -1
  { s with log := s.log ++ .broadcast cause ch :: ((List.range s.lastProcess).filter receives).map (.write · ch) }

/-- The message about the child in `ngx_process_slot`. -/
def openMessage (s : Master) : Channel :=
  ⟨.openChannel,(s.processes s.processSlot).pid,s.processSlot,(s.processes s.processSlot).channel0⟩

end Master

namespace Master

/-- One round of `ngx_start_worker_processes`. -/
def startWorker (s : Master) (mode : Respawn) (o : Outcome) : Except Fault Master := do
  let (s,child) ← s.spawnProcess mode o
  return s.passOpenChannel (.spawn child) s.openMessage

/-- `ngx_start_worker_processes`. -/
def startWorkerProcesses (s : Master) (n : ℕ) (mode : Respawn) (o : ℕ → Outcome) : Except Fault Master :=
  (List.range n).foldlM (fun s i => s.startWorker mode (o i)) s

end Master

/-- The variables of `ngx_reap_children`, with the master. -/
structure Reaping where
  master : Master
  ch : Channel
  live : Bool

namespace Reaping

/-- What the pass does first for an exited child that is not detached. -/
def passClose (r : Reaping) (i : ℕ) : Reaping :=
  let pid := (r.master.processes i).pid
  let s := (r.master.closeChannel i).setChannel i (-1) (-1)
  let ch := { r.ch with pid := pid, slot := i }
  let receives n := (s.processes n).exited = false ∧ (s.processes n).pid ≠ -1 ∧ (s.processes n).channel0 ≠ -1
  { r with
    master := { s with
      log := s.log ++ .broadcast (.exit i pid) ch :: ((List.range s.lastProcess).filter receives).map (.write · ch) }
    ch := ch }

/-- What the pass does with the slot of an exited child that gets no successor. -/
def drop (r : Reaping) (i : ℕ) : Reaping :=
  let s := r.master
  let s :=
    if (s.processes i).pid = s.flags.newBinary then
      { s with flags := { s.flags with
          newBinary := 0, restart := s.flags.restart || s.flags.noaccepting, noaccepting := false } }
    else s
  let s :=
    if i + 1 = s.lastProcess then { s with lastProcess := i }
    else s.setEntry i { s.processes i with pid := -1 }
  { r with master := s }

/-- Whether an exited child gets a successor. -/
def respawns (r : Reaping) (i : ℕ) : Bool :=
  (r.master.processes i).respawn && !(r.master.processes i).exiting && !r.master.flags.terminate &&
    !r.master.flags.quit

/-- What the pass does with the slot of an exited child that gets a successor. -/
def respawn (r : Reaping) (i : ℕ) (o : Outcome) : Except Fault Reaping := do
  let (s,child) ← r.master.spawnProcess (.slot i) o
  if child.isNone then return { r with master := s }
  else
    let ch := s.openMessage
    return ⟨s.passOpenChannel (.spawn child) ch,ch,true⟩

/-- The body of the loop of `ngx_reap_children`. -/
def slot (r : Reaping) (i : ℕ) (o : Outcome) : Except Fault Reaping :=
  let p := r.master.processes i
  if p.pid = -1 then .ok r
  else if p.exited then
    let r := if p.detached then r else r.passClose i
    if r.respawns i then r.respawn i o else .ok (r.drop i)
  else .ok { r with live := r.live || (p.exiting || !p.detached) }

/-- The loop from a slot on. -/
def slots (o : ℕ → Outcome) : ℕ → ℕ → Reaping → Except Fault Reaping
  | 0,_,r => .ok r
  | n + 1,i,r =>
    if i < r.master.lastProcess then do
      let r ← r.slot i (o i)
      slots o n (i + 1) r
    else .ok r

end Reaping

/-- `ngx_reap_children`: the master afterwards, and `live`. As `ngx_last_process` only goes down,
its first value bounds the rounds of the loop. -/
def Master.reapChildren (s : Master) (o : ℕ → Outcome) : Except Fault (Master × Bool) := do
  let r ← Reaping.slots o s.lastProcess 0 ⟨s,⟨.closeChannel,0,0,-1⟩,false⟩
  return (r.master,r.live)

/-! ### What the calls do, one lemma each -/

/-- Whether `ngx_spawn_process` gets past the channel. -/
def Pair.opens (pair : Pair) (mode : Respawn) : Bool :=
  mode = .detached ||
    match pair with
    | .ready _ _ => true
    | _ => false

/-- The pid of the child, when no system call fails. -/
def Outcome.forks (o : Outcome) (mode : Respawn) : Option ℤ := if o.pair.opens mode then o.pid? else none

theorem Outcome.pid_eq_some {o : Outcome} {mode : Respawn} {pid : ℤ} (h : o.forks mode = some pid) :
    o.pid? = some pid ∧ 0 < pid := by
  unfold forks at h
  rw [Option.ite_none_right_eq_some] at h
  obtain ⟨q,-,rfl⟩ := Option.map_eq_some_iff.mp h.2
  exact ⟨h.2,Int.natCast_pos.mpr q.pos⟩

/-- An event that is neither a message nor the birth or the end of a child. -/
def Event.Quiet : Event → Prop
  | .spawn _ | .close _ => True
  | _ => False

namespace Master

variable {s s' : Master} {mode : Respawn} {o : Outcome} {i : ℕ}

@[simp] theorem setEntry_self (s : Master) (i : ℕ) (p : Entry) : (s.setEntry i p).processes i = p := by
  simp [setEntry]

theorem setEntry_of_ne (s : Master) (p : Entry) {j : ℕ} (h : j ≠ i) :
    (s.setEntry i p).processes j = s.processes j := by simp [setEntry,h]

/-- The search ends at an entry with the pid that has none before it, or at the end. -/
theorem search_cases (s : Master) (pid : ℤ) :
    (∀ j < s.search pid, (s.processes j).pid ≠ pid) ∧
    (s.search pid < s.lastProcess ∧ (s.processes (s.search pid)).pid = pid ∨ s.search pid = s.lastProcess) := by
  unfold search
  cases hfind : (List.range s.lastProcess).find? fun i => (s.processes i).pid = pid with
  | none =>
    rw [List.find?_range_eq_none] at hfind
    exact ⟨fun j hj => by simpa using hfind j hj,.inr rfl⟩
  | some i =>
    rw [List.find?_range_eq_some] at hfind
    obtain ⟨hpid,hmem,hbefore⟩ := hfind
    exact ⟨fun j hj => by simpa using hbefore j hj,.inl ⟨List.mem_range.mp hmem,by simpa using hpid⟩⟩

/-- A call of `ngx_spawn_process` that fails: the entry of the slot keeps all but its channel. -/
structure SpawnFails (s : Master) (i : ℕ) (s' : Master) : Prop where
  other : ∀ j, j ≠ i → s'.processes j = s.processes j
  self : ∃ fd0 fd1, s'.processes i = { s.processes i with channel0 := fd0, channel1 := fd1 }
  lastProcess : s'.lastProcess = s.lastProcess
  flags : s'.flags = s.flags
  log : ∃ events, s'.log = s.log ++ events ∧ ∀ e ∈ events, e.Quiet

/-- A call of `ngx_spawn_process` that forks a child. -/
structure SpawnForks (s : Master) (mode : Respawn) (pid : ℤ) (p : Entry) (s' : Master) : Prop where
  processes : s'.processes = Function.update s.processes (s.spawnSlot mode) p
  entry : ∃ fd0 fd1, p = { s.processes (s.spawnSlot mode) with
    pid := pid, exited := false, channel0 := fd0, channel1 := fd1 }.setMode mode
  processSlot : s'.processSlot = s.spawnSlot mode
  lastProcess : s'.lastProcess =
    if !mode.isSlot && s.spawnSlot mode = s.lastProcess then s.lastProcess + 1 else s.lastProcess
  inRange : s.spawnSlot mode < maxProcesses
  flags : s'.flags = s.flags
  log : s'.log = s.log ++ [.spawn mode,.forked (s.spawnSlot mode) pid]

/-- The channel of a slot is set, and nothing else has happened. -/
structure Opened (s : Master) (i : ℕ) (t : Master) : Prop where
  processes : ∃ fd0 fd1, t.processes =
    Function.update s.processes i { s.processes i with channel0 := fd0, channel1 := fd1 }
  lastProcess : t.lastProcess = s.lastProcess
  flags : t.flags = s.flags
  log : t.log = s.log

/-- The channel is set up, or the call fails. -/
theorem openChannel_cases (s : Master) (i : ℕ) (mode : Respawn) (pair : Pair) :
    (∃ t, s.openChannel i mode pair = (t,false) ∧ pair.opens mode = false ∧ SpawnFails s i t) ∨
    ∃ t, s.openChannel i mode pair = (t,true) ∧ pair.opens mode = true ∧ Opened s i t := by
  unfold openChannel
  split
  · rename_i hmode
    exact .inr ⟨_,rfl,by simp [Pair.opens,hmode],⟨_,_,rfl⟩,rfl,rfl,rfl⟩
  · rename_i hmode
    cases pair with
    | none => exact .inl ⟨_,rfl,by simpa [Pair.opens],fun _ _ => rfl,⟨_,_,rfl⟩,rfl,rfl,⟨[],by simp,by simp⟩⟩
    | unusable fd0 fd1 =>
      refine .inl ⟨_,rfl,by simpa [Pair.opens],fun j hj => setEntry_of_ne _ _ hj,⟨fd0,fd1,setEntry_self _ _ _⟩,
        rfl,rfl,⟨[.close fd0,.close fd1],?_,by simp [Event.Quiet]⟩⟩
      simp [closeChannel,emit,setChannel,setEntry]
    | ready fd0 fd1 => exact .inr ⟨_,rfl,by simp [Pair.opens],⟨fd0,fd1,rfl⟩,rfl,rfl,rfl⟩

theorem Opened.fork_none {t : Master} (h : Opened s i t) (mode : Respawn) :
    ∃ u, t.forkChild i mode none = (u,none) ∧ SpawnFails s i u := by
  obtain ⟨fd0,fd1,hprocesses⟩ := h.processes
  refine ⟨_,rfl,fun j hj => ?_,⟨fd0,fd1,?_⟩,h.lastProcess,h.flags,
    ⟨[.close (t.processes i).channel0,.close (t.processes i).channel1],?_,?_⟩⟩
  · simp [closeChannel,emit,hprocesses,hj]
  · simp [closeChannel,emit,hprocesses]
  · simp [closeChannel,emit,h.log]
  · simp [Event.Quiet]

theorem Opened.fork_some {t : Master} (h : Opened (s.emit (.spawn mode)) (s.spawnSlot mode) t) (pid : ℤ)
    (hrange : s.spawnSlot mode < maxProcesses) :
    ∃ u p, t.forkChild (s.spawnSlot mode) mode (some pid) = (u,some ⟨s.spawnSlot mode,p⟩) ∧
      SpawnForks s mode pid p u := by
  obtain ⟨fd0,fd1,hprocesses⟩ := h.processes
  have hlast : t.lastProcess = s.lastProcess := h.lastProcess
  unfold forkChild
  dsimp only [setEntry,emit]
  split
  · rename_i hnew
    rw [hlast] at hnew
    refine ⟨_,_,rfl,?_,⟨fd0,fd1,?_⟩,rfl,?_,hrange,h.flags,?_⟩
    · simp [hprocesses,emit]
    · simp [hprocesses,emit]
    · rw [if_pos hnew,hlast]
    · simp [h.log,emit]
  · rename_i hold
    rw [hlast] at hold
    refine ⟨_,_,rfl,?_,⟨fd0,fd1,?_⟩,rfl,?_,hrange,h.flags,?_⟩
    · simp [hprocesses,emit]
    · simp [hprocesses,emit]
    · rw [if_neg hold,hlast]
    · simp [h.log,emit]

/-- A failure of the rest of the call is a failure of the call. -/
theorem SpawnFails.of_emit (h : SpawnFails (s.emit (.spawn mode)) i s') : SpawnFails s i s' := by
  obtain ⟨events,hlog,hquiet⟩ := h.log
  refine ⟨h.other,h.self,h.lastProcess,h.flags,⟨.spawn mode :: events,?_,?_⟩⟩
  · rw [hlog]
    simp [emit]
  · simpa [Event.Quiet] using hquiet

/-- A call of `ngx_spawn_process` fails, as the table is full or a system call fails, or it forks a
child. -/
theorem spawnProcess_cases {child : Option Child} (h : s.spawnProcess mode o = .ok (s',child)) :
    (child = none ∧ (o.forks mode = none ∨ mode.isSlot = false ∧ s.spawnSlot mode = maxProcesses) ∧
      SpawnFails s (s.spawnSlot mode) s') ∨
    ∃ pid p, o.forks mode = some pid ∧ child = some ⟨s.spawnSlot mode,p⟩ ∧ SpawnForks s mode pid p s' := by
  unfold spawnProcess at h
  dsimp only at h
  split at h
  · rename_i hfull
    rw [Bool.and_eq_true,Bool.not_eq_true',decide_eq_true_eq] at hfull
    cases h
    exact .inl ⟨rfl,.inr hfull,fun _ _ => rfl,⟨_,_,rfl⟩,rfl,rfl,⟨[.spawn mode],rfl,by simp [Event.Quiet]⟩⟩
  split at h
  · cases h
  rename_i hrange
  rcases openChannel_cases (s.emit (.spawn mode)) (s.spawnSlot mode) mode o.pair with
    ⟨t,hopen,hpair,hfails⟩ | ⟨t,hopen,hpair,hopened⟩
  · rw [hopen] at h
    cases h
    exact .inl ⟨rfl,.inl (by simp [Outcome.forks,hpair]),hfails.of_emit⟩
  rw [hopen] at h
  dsimp only at h
  cases hfork : o.pid? with
  | none =>
    obtain ⟨u,hu,hfails⟩ := hopened.fork_none mode
    rw [hfork,hu] at h
    cases h
    exact .inl ⟨rfl,.inl (by simp [Outcome.forks,hpair,hfork]),hfails.of_emit⟩
  | some pid =>
    obtain ⟨u,p,hu,hforks⟩ := hopened.fork_some pid (not_le.mp hrange)
    rw [hfork,hu] at h
    cases h
    exact .inr ⟨pid,p,by simp [Outcome.forks,hpair,hfork],rfl,hforks⟩

/-- The slots in use after a call are those before it and the slot of the call. -/
theorem SpawnForks.lt {pid : ℤ} {p : Entry} (h : SpawnForks s mode pid p s') {j : ℕ} (hj : j < s'.lastProcess)
    (hne : j ≠ s.spawnSlot mode) : j < s.lastProcess := by
  rw [h.lastProcess] at hj
  split at hj
  · rename_i hnew
    simp only [Bool.and_eq_true,decide_eq_true_eq] at hnew
    omega
  · exact hj

/-- A call of `ngx_spawn_process` stays in the table when it takes a slot of the table, or a new one. -/
theorem spawnProcess_ok (o : Outcome) (h : s.spawnSlot mode < maxProcesses ∨
    mode.isSlot = false ∧ s.spawnSlot mode = maxProcesses) :
    ∃ s' child, s.spawnProcess mode o = .ok (s',child) := by
  unfold spawnProcess
  dsimp only
  split
  · exact ⟨_,_,rfl⟩
  rename_i hfull
  rw [if_neg]
  · split <;> exact ⟨_,_,rfl⟩
  · intro hrange
    rcases h with h | ⟨hmode,hmax⟩
    · omega
    · simp [hmode,hmax] at hfull

/-- What `ngx_process_get_status` does with a pid: only the entry that the search ends at changes,
and its pid, its channel and its flags `detached` and `just_spawn` do not. -/
structure Collected (s : Master) (pid : ℤ) (s' : Master) : Prop where
  other : ∀ j, j ≠ s.search pid → s'.processes j = s.processes j
  samePid : ∀ j, (s'.processes j).pid = (s.processes j).pid
  detached : ∀ j, (s'.processes j).detached = (s.processes j).detached
  justSpawn : ∀ j, (s'.processes j).justSpawn = (s.processes j).justSpawn
  channel0 : ∀ j, (s'.processes j).channel0 = (s.processes j).channel0
  channel1 : ∀ j, (s'.processes j).channel1 = (s.processes j).channel1
  exited : s.search pid < s.lastProcess → (s'.processes (s.search pid)).exited = true
  lastProcess : s'.lastProcess = s.lastProcess
  flags : s'.flags = s.flags
  log : s'.log = s.log ++ [.waited pid]

/-- The entry at the end of the search is stored without another pid. -/
theorem Collected.of_setEntry {pid : ℤ} {p : Entry} (hpid : p.pid = (s.processes (s.search pid)).pid)
    (hdetached : p.detached = (s.processes (s.search pid)).detached)
    (hjustSpawn : p.justSpawn = (s.processes (s.search pid)).justSpawn)
    (hchannel0 : p.channel0 = (s.processes (s.search pid)).channel0)
    (hchannel1 : p.channel1 = (s.processes (s.search pid)).channel1)
    (hexited : s.search pid < s.lastProcess → p.exited = true) :
    Collected s pid ((s.emit (.waited pid)).setEntry (s.search pid) p) := by
  have hsame : ∀ {α : Type} (f : Entry → α) (j : ℕ), f p = f (s.processes (s.search pid)) →
      f (((s.emit (.waited pid)).setEntry (s.search pid) p).processes j) = f (s.processes j) := by
    intro α f j hf
    by_cases hj : j = s.search pid
    · simpa [hj] using hf
    · rw [setEntry_of_ne _ _ hj]
      rfl
  refine ⟨fun j hj => setEntry_of_ne _ _ hj,fun j => hsame _ j hpid,fun j => hsame _ j hdetached,
    fun j => hsame _ j hjustSpawn,fun j => hsame _ j hchannel0,fun j => hsame _ j hchannel1,fun h => ?_,rfl,rfl,rfl⟩
  · simpa using hexited h

theorem collect_cases {pid : ℤ} {status : BitVec 32} (h : s.collect pid status = .ok s') :
    Collected s pid s' := by
  unfold collect at h
  dsimp only at h
  by_cases hfound : s.search pid < s.lastProcess
  · have hfound' : s.search pid < (s.emit (.waited pid)).lastProcess := hfound
    simp only [hfound',if_true] at h
    split at h
    · split at h
      · cases h
      split at h
      · cases h
        simp only [setEntry,Function.update_self,Function.update_idem]
        exact .of_setEntry rfl rfl rfl rfl rfl fun _ => rfl
      · cases h
        exact .of_setEntry rfl rfl rfl rfl rfl fun _ => rfl
    · cases h
      exact .of_setEntry rfl rfl rfl rfl rfl fun _ => rfl
  · have hfound' : ¬ s.search pid < (s.emit (.waited pid)).lastProcess := hfound
    have hnone : Collected s pid (s.emit (.waited pid)) :=
      ⟨fun _ _ => rfl,fun _ => rfl,fun _ => rfl,fun _ => rfl,fun _ => rfl,fun _ => rfl,fun h => absurd h hfound,
        rfl,rfl,rfl⟩
    simp only [hfound',if_false] at h
    split at h
    · split at h
      · cases h
      split at h
      · cases h
        exact .of_setEntry rfl rfl rfl rfl rfl fun h => absurd h hfound
      · cases h
        exact hnone
    · cases h
      exact hnone

theorem collect_ok {pid : ℤ} (status : BitVec 32) (h : s.search pid < maxProcesses) :
    ∃ s', s.collect pid status = .ok s' := by
  unfold collect
  dsimp only
  split
  · rw [if_neg (not_le.mpr h)]
    split_ifs <;> exact ⟨_,rfl⟩
  · exact ⟨_,rfl⟩

end Master

namespace Reaping

variable {r r' : Reaping} {i : ℕ} {o : Outcome}

/-- What the messages about an exited child leave as it is. -/
structure Closed (r : Reaping) (i : ℕ) (r' : Reaping) : Prop where
  processes : r'.master.processes =
    Function.update r.master.processes i { r.master.processes i with channel0 := -1, channel1 := -1 }
  lastProcess : r'.master.lastProcess = r.master.lastProcess
  flags : r'.master.flags = r.master.flags
  live : r'.live = r.live

theorem passClose_closed (r : Reaping) (i : ℕ) : Closed r i (r.passClose i) := by
  refine ⟨?_,rfl,rfl,rfl⟩
  simp [passClose,Master.setChannel,Master.setEntry,Master.closeChannel,Master.emit]

/-- The first part of a round leaves what the second part decides by. -/
theorem passClose_respawns (r : Reaping) (i : ℕ) : (r.passClose i).respawns i = r.respawns i := by
  have hclosed := r.passClose_closed i
  unfold respawns
  rw [hclosed.processes,hclosed.flags,Function.update_self]

/-- One round of the loop of `ngx_reap_children`: the slot is free, its child runs, or its child
has exited; then the exit is announced, and the slot gets a successor or is dropped. -/
theorem slot_cases (h : r.slot i o = .ok r') :
    (r.master.processes i).pid = -1 ∧ r' = r ∨
    ((r.master.processes i).pid ≠ -1 ∧ (r.master.processes i).exited = false ∧
      r' = { r with live := r.live || ((r.master.processes i).exiting || !(r.master.processes i).detached) }) ∨
    (r.master.processes i).pid ≠ -1 ∧ (r.master.processes i).exited = true ∧
      ∃ r₁, r₁ = (if (r.master.processes i).detached then r else r.passClose i) ∧
        (r₁.respawns i = true ∧ r₁.respawn i o = .ok r' ∨ r₁.respawns i = false ∧ r' = r₁.drop i) := by
  unfold slot at h
  dsimp only at h
  split at h
  · rename_i hfree
    cases h
    exact .inl ⟨hfree,rfl⟩
  rename_i hused
  split at h
  · rename_i hexited
    generalize (if (r.master.processes i).detached then r else r.passClose i) = r₁ at h
    refine .inr (.inr ⟨hused,hexited,r₁,rfl,?_⟩)
    split at h
    · rename_i hrespawns
      exact .inl ⟨hrespawns,h⟩
    · rename_i hrespawns
      cases h
      exact .inr ⟨Bool.not_eq_true _ ▸ hrespawns,rfl⟩
  · rename_i hexited
    cases h
    exact .inr (.inl ⟨hused,Bool.not_eq_true _ ▸ hexited,rfl⟩)

/-- A respawn fails, or puts the new child into the slot and announces it. -/
theorem respawn_cases (h : r.respawn i o = .ok r') :
    (o.forks (.slot i) = none ∧ ∃ s, Master.SpawnFails r.master i s ∧ r' = { r with master := s }) ∨
    ∃ pid p s, o.forks (.slot i) = some pid ∧ Master.SpawnForks r.master (.slot i) pid p s ∧
      r' = ⟨s.passOpenChannel (.spawn (some ⟨i,p⟩)) s.openMessage,s.openMessage,true⟩ := by
  obtain ⟨⟨s,child⟩,hspawn,hrest⟩ := bind_ok h
  rcases Master.spawnProcess_cases hspawn with ⟨rfl,hnone,hfails⟩ | ⟨pid,p,hfork,rfl,hforks⟩
  · cases hrest
    exact .inl ⟨hnone.resolve_right fun h => Bool.noConfusion h.1,s,hfails,rfl⟩
  · cases hrest
    exact .inr ⟨pid,p,s,hfork,hforks,rfl⟩

/-- What becomes of a slot that is dropped. -/
theorem drop_cases (r : Reaping) (i : ℕ) :
    (i + 1 = r.master.lastProcess ∧ (r.drop i).master.lastProcess = i ∧
      (r.drop i).master.processes = r.master.processes ∨
    i + 1 ≠ r.master.lastProcess ∧ (r.drop i).master.lastProcess = r.master.lastProcess ∧
      (r.drop i).master.processes =
        Function.update r.master.processes i { r.master.processes i with pid := -1 }) ∧
    (r.drop i).master.log = r.master.log ∧ (r.drop i).live = r.live ∧ (r.drop i).ch = r.ch := by
  unfold drop
  dsimp only
  split <;> split <;> simp_all [Master.setEntry]

theorem drop_flags (r : Reaping) (i : ℕ) :
    (r.drop i).master.flags.terminate = r.master.flags.terminate ∧
    (r.drop i).master.flags.quit = r.master.flags.quit := by
  unfold drop
  dsimp only
  split <;> split <;> simp [Master.setEntry]

/-- A round changes no entry but that of its slot, and that one only when its child has exited. -/
theorem slot_other (h : r.slot i o = .ok r') {j : ℕ}
    (hj : j ≠ i ∨ (r.master.processes i).exited = false) : r'.master.processes j = r.master.processes j := by
  rcases slot_cases h with ⟨-,rfl⟩ | ⟨-,-,rfl⟩ | ⟨-,hexited,r₁,hr₁,hcases⟩
  · rfl
  · rfl
  have hji : j ≠ i := by simpa [hexited] using hj
  have hr₁j : r₁.master.processes j = r.master.processes j := by
    split at hr₁
    · rw [hr₁]
    · rw [hr₁,(r.passClose_closed i).processes,Function.update_of_ne hji]
  rw [← hr₁j]
  rcases hcases with ⟨-,hrespawn⟩ | ⟨-,rfl⟩
  · rcases respawn_cases hrespawn with ⟨-,s,hfails,rfl⟩ | ⟨pid,p,s,-,hforks,rfl⟩
    · exact hfails.other j hji
    · exact (congrFun hforks.processes j).trans (Function.update_of_ne hji _ _)
  · obtain ⟨⟨-,-,hprocesses⟩ | ⟨-,-,hprocesses⟩,-⟩ := r₁.drop_cases i
    · rw [hprocesses]
    · rw [hprocesses,Function.update_of_ne hji]

/-- A round for a slot of the table stays in the table. -/
theorem slot_ok (r : Reaping) (o : Outcome) (hi : i < maxProcesses) : ∃ r', r.slot i o = .ok r' := by
  unfold slot
  dsimp only
  split
  · exact ⟨_,rfl⟩
  split
  · generalize (if (r.master.processes i).detached then r else r.passClose i) = r₁
    split
    · obtain ⟨s,child,hspawn⟩ : ∃ s child, r₁.master.spawnProcess (.slot i) o = .ok (s,child) :=
        Master.spawnProcess_ok o (.inl hi)
      unfold respawn
      rw [hspawn]
      cases child <;> exact ⟨_,rfl⟩
    · exact ⟨_,rfl⟩
  · exact ⟨_,rfl⟩

end Reaping

end InsideNginx.Process
