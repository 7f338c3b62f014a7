import InsideNginx.General.TransitionSystem
import InsideNginx.Process.Table

/-! The loop of the master: signals wake it up, it reaps, and then handles one request after the
other. -/
namespace InsideNginx.Process

/-- The signals of the master, each with what its handler finds out. -/
inductive Signal
  | reconfigure
  | reopen
  | noaccept
  | terminate
  | shutdown
  | changebin (parentRuns : Bool)
  | alrm
  | int
  | io
  | chld (waits : List Wait)
  deriving DecidableEq, Repr

/-- The signals to the workers. -/
inductive Signo
  | shutdown
  | terminate
  | reopen
  | kill
  deriving DecidableEq, Repr

/-- The command that `ngx_signal_worker_processes` sends in place of the signal. -/
def Signo.command : Signo → Option Command
  | .shutdown => some .quit
  | .terminate => some .terminate
  | .reopen => some .reopen
  | .kill => none

/-- What `kill` returns. -/
inductive Kill
  | ok
  | esrch
  | failed
  deriving DecidableEq, Repr

/-- What comes of an attempt to tell a worker something: whether `ngx_write_channel` returns
NGX_OK, and what `kill` returns otherwise. -/
structure Delivery where
  written : Bool
  kill : Kill
  deriving DecidableEq, Repr

namespace Master

def setFlags (s : Master) (flags : Flags) : Master := { s with flags := flags }

/-- `ngx_signal_handler` in the master. -/
def signalHandler (s : Master) : Signal → Except Fault Master
  | .shutdown => .ok (s.setFlags { s.flags with quit := true })
  | .terminate | .int => .ok (s.setFlags { s.flags with terminate := true })
  | .noaccept => .ok (if s.flags.daemonized then s.setFlags { s.flags with noaccept := true } else s)
  | .reconfigure => .ok (s.setFlags { s.flags with reconfigure := true })
  | .reopen => .ok (s.setFlags { s.flags with reopen := true })
  | .changebin parentRuns =>
    .ok (if parentRuns || 0 < s.flags.newBinary then s else s.setFlags { s.flags with changeBinary := true })
  | .alrm => .ok (s.setFlags { s.flags with sigalrm := true })
  | .io => .ok (s.setFlags { s.flags with sigio := true })
  | .chld waits => (s.setFlags { s.flags with reap := true }).processGetStatus waits

/-- The end of a round of `ngx_signal_worker_processes`, for a worker that no message reaches. -/
def killWorker (s : Master) (signo : Signo) (i : ℕ) (kill : Kill) : Master :=
  let p := s.processes i
  let s := s.emit (.kill i p.pid signo.command)
  match kill with
  | .ok => if signo = .reopen then s else s.setEntry i { p with exiting := true }
  | .esrch => (s.setEntry i { p with exited := true, exiting := false }).setFlags { s.flags with reap := true }
  | .failed => s

/-- One round of `ngx_signal_worker_processes`. -/
def signalWorker (s : Master) (signo : Signo) (i : ℕ) (d : Delivery) : Master :=
  let p := s.processes i
  if p.detached || p.pid = -1 then s
  else if p.justSpawn then s.setEntry i { p with justSpawn := false }
  else if p.exiting && signo = .shutdown then s
  else
    match signo.command with
    | none => s.killWorker signo i d.kill
    | some command =>
      let s := s.emit (.write i ⟨command,0,0,-1⟩)
      if !d.written then s.killWorker signo i d.kill
      else if signo = .reopen then s
      else s.setEntry i { p with exiting := true }

/-- `ngx_signal_worker_processes`. -/
def signalWorkerProcesses (s : Master) (signo : Signo) (d : ℕ → Delivery) : Master :=
  (List.range s.lastProcess).foldl (fun s i => s.signalWorker signo i (d i)) s

end Master

/-- What the master loop takes from a configuration: `ccf->worker_processes`, and whether a path
has a manager or a loader. -/
structure Conf where
  workerProcesses : ℕ
  manager : Bool
  loader : Bool
  deriving DecidableEq, Repr

/-- The outcomes for `ngx_start_worker_processes` and then `ngx_start_cache_manager_processes`. -/
structure Starts where
  workers : ℕ → Outcome
  manager : Outcome
  loader : Outcome

namespace Master

/-- `ngx_start_cache_manager_processes`. -/
def startCacheManagerProcesses (s : Master) (conf : Conf) (respawn : Bool) (o : Starts) : Except Fault Master :=
  if !conf.manager then .ok s
  else do
    let s ← s.startWorker (if respawn then .justRespawn else .respawn) o.manager
    if !conf.loader then return s
    else s.startWorker (if respawn then .justSpawn else .norespawn) o.loader

/-- `ngx_start_worker_processes` followed by `ngx_start_cache_manager_processes`. -/
def startProcesses (s : Master) (conf : Conf) (mode : Respawn) (respawn : Bool) (o : Starts) :
    Except Fault Master := do
  let s ← s.startWorkerProcesses conf.workerProcesses mode o.workers
  s.startCacheManagerProcesses conf respawn o

end Master

/-- The local variables of `ngx_master_process_cycle`, with the master. -/
structure Cycle where
  master : Master
  conf : Conf
  delay : BitVec 64
  sigio : ℕ
  live : Bool

/-- What the calls of one round of the loop return: `conf` is the result of `ngx_init_cycle`, and
`exec` the outcome of `ngx_execute` in `ngx_exec_new_binary` if that gets so far. -/
structure Answers where
  tell : Signo → ℕ → Delivery
  conf : Option Conf
  starts : Starts
  restarts : Starts
  exec : Option Outcome
  noaccept : ℕ → Delivery

/-- Where a round ends: at the top of the loop, or in `ngx_master_process_exit`. -/
inductive Next
  | back (c : Cycle)
  | exit (s : Master)

namespace Cycle

def flags (c : Cycle) : Flags := c.master.flags

def setMaster (c : Cycle) (s : Master) : Cycle := { c with master := s }

def setFlags (c : Cycle) (flags : Flags) : Cycle := c.setMaster (c.master.setFlags flags)

def tell (c : Cycle) (signo : Signo) (d : ℕ → Delivery) : Cycle :=
  c.setMaster (c.master.signalWorkerProcesses signo d)

/-- What the loop does about the timer before it sleeps. -/
def arm (c : Cycle) : Cycle :=
  if c.delay ≠ 0 ∧ c.flags.sigalrm then
    { c.setFlags { c.flags with sigalrm := false } with sigio := 0, delay := c.delay*2 }
  else c

/-- The reaping after a wake-up. -/
def reap (c : Cycle) (o : ℕ → Outcome) : Except Fault Cycle :=
  if c.flags.reap then do
    let (s,live) ← (c.master.setFlags { c.flags with reap := false }).reapChildren o
    return { c with master := s, live := live }
  else .ok c

/-- From the top of the loop to the end of `ngx_reap_children`. -/
def wake (c : Cycle) (signals : List Signal) (o : ℕ → Outcome) : Except Fault Cycle := do
  let c := c.arm
  let s ← signals.foldlM Master.signalHandler c.master
  (c.setMaster s).reap o

/-- The branch for `ngx_terminate`. -/
def terminate (c : Cycle) (x : Answers) : Cycle :=
  let c := if c.delay = 0 then { c with delay := 50 } else c
  if c.sigio ≠ 0 then { c with sigio := c.sigio - 1 }
  else
    let c := { c with sigio := c.conf.workerProcesses + 2 }
    if 1000 < c.delay then c.tell .kill (x.tell .kill) else c.tell .terminate (x.tell .terminate)

/-- The branch for `ngx_reconfigure` beside a new binary. -/
def upgrade (c : Cycle) (x : Answers) : Except Fault Cycle := do
  let s ← c.master.startProcesses c.conf .respawn false x.starts
  return c.setMaster (s.setFlags { s.flags with noaccepting := false })

/-- The branch for `ngx_reconfigure` once `ngx_init_cycle` has succeeded. -/
def reload (c : Cycle) (conf : Conf) (x : Answers) : Except Fault Cycle := do
  let s ← c.master.startProcesses conf .justRespawn true x.starts
  return { c with master := s, conf := conf, live := true }.tell .shutdown (x.tell .shutdown)

/-- The branch for `ngx_restart`, where the source names an undeclared `dd`. -/
def restart (dd : Respawn) (c : Cycle) (x : Answers) : Except Fault Cycle :=
  if c.flags.restart then do
    let s ← (c.master.setFlags { c.flags with restart := false }).startProcesses c.conf dd false x.restarts
    return { c with master := s, live := true }
  else .ok c

/-- The branch for `ngx_reopen`. -/
def reopen (c : Cycle) (x : Answers) : Cycle :=
  if c.flags.reopen then (c.setFlags { c.flags with reopen := false }).tell .reopen (x.tell .reopen) else c

/-- The branch for `ngx_change_binary`. -/
def changeBinary (c : Cycle) (x : Answers) : Except Fault Cycle :=
  if c.flags.changeBinary then
    let c := c.setFlags { c.flags with changeBinary := false }
    match x.exec with
    | none => .ok (c.setFlags { c.flags with newBinary := -1 })
    | some o => do
      let (s,child) ← c.master.spawnProcess .detached o
      return c.setMaster (s.setFlags { s.flags with newBinary := (child.map (·.entry.pid)).getD (-1) })
  else .ok c

/-- The branch for `ngx_noaccept`. -/
def noaccept (c : Cycle) (x : Answers) : Cycle :=
  if c.flags.noaccept then
    (c.setFlags { c.flags with noaccept := false, noaccepting := true }).tell .shutdown x.noaccept
  else c

/-- The branches after the one for `ngx_reconfigure`. -/
def rest (dd : Respawn) (c : Cycle) (x : Answers) : Except Fault Cycle := do
  let c ← c.restart dd x
  let c ← (c.reopen x).changeBinary x
  return c.noaccept x

/-- From the test of `live` to the end of the round. -/
def act (dd : Respawn) (c : Cycle) (x : Answers) : Except Fault Next :=
  if !c.live && (c.flags.terminate || c.flags.quit) then .ok (.exit c.master)
  else if c.flags.terminate then .ok (.back (c.terminate x))
  else if c.flags.quit then .ok (.back (c.tell .shutdown (x.tell .shutdown)))
  else if c.flags.reconfigure then
    let c := c.setFlags { c.flags with reconfigure := false }
    if c.flags.newBinary ≠ 0 then do
      let c ← c.upgrade x
      return .back c
    else
      match x.conf with
      | none => .ok (.back c)
      | some conf => do
        let c ← c.reload conf x
        let c ← c.rest dd x
        return .back c
  else do
    let c ← c.rest dd x
    return .back c

end Cycle

/-- Where the master is: in `sigsuspend`, after the reaping, or in `ngx_master_process_exit`. -/
inductive Stage
  | asleep (c : Cycle)
  | awake (c : Cycle)
  | exited (s : Master)

/-- The steps: any signals wake the master up, which reaps; then it handles its flags. -/
inductive Turn
  | wake (signals : List Signal) (o : ℕ → Outcome)
  | act (x : Answers)

/-- A step; `none` when it is not the turn of this step, or it leaves the defined behaviour of C. -/
def Stage.turn (dd : Respawn) : Stage → Turn → Option Stage
  | .asleep c,.wake signals o => (c.wake signals o).toOption.map .awake
  | .awake c,.act x =>
    (c.act dd x).toOption.map fun next =>
      match next with
      | .back c => .asleep c
      | .exit s => .exited s
  | _,_ => none

/-- What `ngx_master_process_cycle` does before its loop. -/
def startCycle (s : Master) (conf : Conf) (o : Starts) : Except Fault Cycle := do
  let s ← s.startProcesses conf .respawn false o
  return ⟨s.setFlags { s.flags with newBinary := 0 },conf,0,0,true⟩

/-- The runs of the master from an empty table on, with any flags. -/
def cycling (dd : Respawn) : TransitionSystem Stage Turn :=
  .ofFunction (fun stage => ∃ s conf o c, s.lastProcess = 0 ∧ startCycle s conf o = .ok c ∧ stage = .asleep c)
    (Stage.turn dd)

end InsideNginx.Process
