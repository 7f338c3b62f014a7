import InsideNginx.General.Attempt
import InsideNginx.General.Custody

/-! `ngx_init_cycle` from the point on where the modules of the new cycle are configured, in a process
that is not the signaller. Lists are sequences. What the call takes and gives back is on record:
descriptors, shared memory segments, and the files that it has deleted. -/
namespace InsideNginx.Cycle
open Transfer

/-- The bytes of an `ngx_str_t`. -/
abbrev Str := List UInt8

/-- Whether `ngx_strncmp` returns 0 for strings of one length: it stops at a NUL. -/
def strncmpEq : Str → Str → Bool
  | a::as,b::bs => a == b && (a == 0 || strncmpEq as bs)
  | _,_ => true

/-- Two strings have the same length and compare equal. -/
def sameStr (a b : Str) : Bool := a.length == b.length && strncmpEq a b

/-- The file name that a string means to the system. -/
def path (name : Str) : Str := name.takeWhile (· != 0)

/-- `NGX_INVALID_FILE`, and the same for sockets. -/
def invalidFile : ℤ := -1

/-- `ngx_stderr`. -/
def stderr : ℤ := 2

/-- `NGX_PROCESS_MASTER`. -/
def processMaster : ℕ := 1

/-- `ngx_open_file_t`. -/
structure OpenFile where
  name : Str
  fd : ℤ
  deriving DecidableEq, Repr

/-- `ngx_shm_zone_t` with its `ngx_shm_t`; `existing` is `shm.exists`. -/
structure ShmZone where
  name : Str
  tag : ℕ
  size : ℕ
  noreuse : Bool
  addr : ℕ
  existing : Bool
  data : Option ℕ
  deriving DecidableEq, Repr

/-- `ngx_listening_t` with addresses of a type `A`, `toOpen` for `open`, and the index of the entry for
`previous`. `unixName` is the file of a socket of the family `AF_UNIX`. -/
structure Listening (A : Type) where
  sockaddr : A
  type : ℕ
  fd : ℤ
  backlog : ℤ
  deferredAccept : Bool
  reuseport : Bool
  unixName : Option Str
  ignore : Bool
  remain : Bool
  toOpen : Bool
  listen : Bool
  addDeferred : Bool
  deleteDeferred : Bool
  addReuseport : Bool
  previous : Option ℕ

/-- `ngx_cycle_t` with the names of its core configuration; `isInit` is `ngx_is_init_cycle`. -/
structure NgxCycle (A : Type) where
  isInit : Bool
  pid : Str
  oldpid : Str
  lockFile : Str
  openFiles : List OpenFile
  sharedMemory : List ShmZone
  listening : List (Listening A)

/-- What the system and the functions that are called decide. A descriptor of -1 is a failed call; entries
are told apart by their index. -/
structure Env (A : Type) where
  testConfig : Bool
  atomicOps : Bool
  newBinary : Bool
  process : ℕ
  pidOpen : ℤ
  pidWrite : Bool
  lockOpen : ℤ
  deleteFile : Str → Bool
  createPaths : Bool
  logOpenDefault : Option (List OpenFile)
  fileOpen : ℕ → ℤ
  fcntl : ℕ → Bool
  shmAlloc : ℕ → Option (ℕ × Bool)
  sameAddress : ℕ → Bool
  zonePool : ℕ → Bool
  zoneInit : ℕ → ShmZone → Option ℕ → Option (Option ℕ)
  cmpSockaddr : A → A → Bool
  socket : ℕ → ℤ
  openSockets : Bool
  initModules : Bool

/-- The state of the call. -/
structure Reload (A : Type) where
  old : NgxCycle A
  cycle : NgxCycle A
  descriptors : List (Transfer ℤ)
  segments : List (Transfer ℕ)
  deleted : List Str

variable {A : Type}

namespace Reload

def opens (s : Reload A) (fd : ℤ) : Reload A := { s with descriptors := s.descriptors ++ [handed fd] }

def closes (s : Reload A) (fd : ℤ) : Reload A := { s with descriptors := s.descriptors ++ [freed fd] }

def setFile (s : Reload A) (i : ℕ) (file : OpenFile) : Reload A :=
  { s with cycle := { s.cycle with openFiles := s.cycle.openFiles.set i file } }

def setZone (s : Reload A) (i : ℕ) (zone : ShmZone) : Reload A :=
  { s with cycle := { s.cycle with sharedMemory := s.cycle.sharedMemory.set i zone } }

end Reload

/-- `ngx_delete_file`. -/
def deleteFile (env : Env A) (name : Str) (s : Reload A) : Reload A :=
  if env.deleteFile (path name) then { s with deleted := s.deleted ++ [path name] } else s

/-! ### The pid file, the lock file, the paths and the logs -/

/-- `ngx_create_pidfile`. -/
def createPidfile (env : Env A) : Attempt (Reload A) := fun s =>
  if processMaster < env.process then .ok s
  else if env.pidOpen = invalidFile then .error s
  else
    let s := s.opens env.pidOpen
    if !env.testConfig && !env.pidWrite then .error s
    else .ok (s.closes env.pidOpen)

/-- `ngx_delete_pidfile`, for the old cycle. -/
def deletePidfile (env : Env A) (s : Reload A) : Reload A :=
  deleteFile env (if env.newBinary then s.old.oldpid else s.old.pid) s

/-- The new cycle has another name for the pid file. -/
def NgxCycle.newPid (cycle old : NgxCycle A) : Bool := !sameStr cycle.pid old.pid

def writePid (env : Env A) : Attempt (Reload A) := fun s =>
  if env.testConfig then createPidfile env s
  else if !s.old.isInit then
    if s.cycle.newPid s.old then (createPidfile env).andThen (.always (deletePidfile env)) s
    else .ok s
  else .ok s

/-- `ngx_test_lockfile`. -/
def testLockfile (env : Env A) : Attempt (Reload A) := fun s =>
  if env.atomicOps then .ok s
  else if env.lockOpen = invalidFile then .error s
  else .ok (deleteFile env s.cycle.lockFile ((s.opens env.lockOpen).closes env.lockOpen))

/-- `ngx_create_paths`. -/
def createPaths (env : Env A) : Attempt (Reload A) := fun s => if env.createPaths then .ok s else .error s

/-- `ngx_log_open_default`, which may add files. -/
def logOpenDefault (env : Env A) : Attempt (Reload A) := fun s =>
  match env.logOpenDefault with
  | none => .error s
  | some files => .ok { s with cycle := { s.cycle with openFiles := s.cycle.openFiles ++ files } }

/-- Open one of the new files. -/
def openFile (env : Env A) (i : ℕ) : Attempt (Reload A) := fun s =>
  match s.cycle.openFiles[i]? with
  | none => .ok s
  | some file =>
    if file.name = [] then .ok s
    else
      let s := s.setFile i { file with fd := env.fileOpen i }
      if env.fileOpen i = invalidFile then .error s
      else
        let s := s.opens (env.fileOpen i)
        if env.fcntl i then .ok s else .error s

def openFiles (env : Env A) : Attempt (Reload A) := fun s =>
  Attempt.loop (openFile env) 0 s.cycle.openFiles.length s

/-! ### Shared memory -/

/-- The test for the reuse of an old zone with the same name. -/
def ShmZone.reuses (zone ozone : ShmZone) : Bool :=
  zone.tag == ozone.tag && zone.size == ozone.size && !zone.noreuse

/-- The old zone with this name: the inner loop stops at the first one. -/
def oldZone (old : List ShmZone) (zone : ShmZone) : Option ShmZone := old.find? fun o => sameStr zone.name o.name

/-- The old zone whose memory a new one gets. -/
def reusedZone (old : List ShmZone) (zone : ShmZone) : Option ShmZone := (oldZone old zone).filter zone.reuses

/-- Call `init` of the zone. -/
def initZone (env : Env A) (i : ℕ) (zone : ShmZone) (data : Option ℕ) : Attempt (Reload A) := fun s =>
  match env.zoneInit i zone data with
  | none => .error (s.setZone i zone)
  | some data => .ok (s.setZone i { zone with data := data })

/-- `ngx_init_zone_pool`. -/
def initZonePool (env : Env A) (i : ℕ) (zone : ShmZone) : Bool :=
  if zone.existing then env.sameAddress i else env.zonePool i

def createZone (env : Env A) (i : ℕ) : Attempt (Reload A) := fun s =>
  match s.cycle.sharedMemory[i]? with
  | none => .ok s
  | some zone =>
    if zone.size = 0 then .error s
    else
      match reusedZone s.old.sharedMemory zone with
      | some ozone => initZone env i { zone with addr := ozone.addr } ozone.data s
      | none =>
        match env.shmAlloc i with
        | none => .error s
        | some (addr,existing) =>
          let zone := { zone with addr := addr, existing := existing }
          let s := { s.setZone i zone with segments := s.segments ++ [handed addr] }
          if initZonePool env i zone then initZone env i zone none s else .error s

def createZones (env : Env A) : Attempt (Reload A) := fun s =>
  Attempt.loop (createZone env) 0 s.cycle.sharedMemory.length s

/-- An old zone lives on in the new cycle. -/
def ShmZone.live (ozone : ShmZone) (zones : List ShmZone) : Bool :=
  match zones.find? fun zone => sameStr ozone.name zone.name with
  | some zone => ozone.tag == zone.tag && ozone.size == zone.size && !ozone.noreuse
  | none => false

def freeZones (s : Reload A) : Reload A :=
  { s with segments := s.segments ++
      (s.old.sharedMemory.filter fun ozone => !ozone.live s.cycle.sharedMemory).map fun ozone => freed ozone.addr }

/-! ### Listening sockets -/

/-- The tests for the inheritance of an old socket. -/
def Listening.inheritable (cmp : A → A → Bool) (nls ls : Listening A) : Bool :=
  !ls.ignore && !ls.remain && ls.type == nls.type && cmp nls.sockaddr ls.sockaddr

/-- A new entry gets the socket of the old one with index `i`. -/
def Listening.inherit (nls ls : Listening A) (i : ℕ) : Listening A where
  __ := nls
  fd := ls.fd
  previous := some i
  listen := nls.listen || ls.backlog != nls.backlog
  deleteDeferred := nls.deleteDeferred || (ls.deferredAccept && !nls.deferredAccept)
  addDeferred := nls.addDeferred || (!ls.deferredAccept && nls.deferredAccept)
  addReuseport := nls.addReuseport || (nls.reuseport && !ls.reuseport)

def Listening.markOpen (nls : Listening A) : Listening A :=
  { nls with toOpen := true, addDeferred := nls.addDeferred || nls.deferredAccept }

/-- The loop over the old entries for one new entry. -/
def inheritOne (cmp : A → A → Bool) (ls : List (Listening A)) (nls : Listening A) :
    List (Listening A) × Listening A :=
  match ls.findFinIdx? (nls.inheritable cmp) with
  | none => (ls,nls)
  | some i => (ls.set i { ls[i] with remain := true },nls.inherit ls[i] i)

/-- The loop over the new entries. -/
def inheritAll (cmp : A → A → Bool) : List (Listening A) → List (Listening A) → List (Listening A) × List (Listening A)
  | ls,[] => (ls,[])
  | ls,nls::rest =>
    let (ls,nls) := inheritOne cmp ls nls
    let nls := if nls.fd = invalidFile then nls.markOpen else nls
    let (ls,rest) := inheritAll cmp ls rest
    (ls,nls::rest)

def handleListening (env : Env A) (s : Reload A) : Reload A :=
  if s.old.listening = [] then
    { s with cycle := { s.cycle with listening := s.cycle.listening.map Listening.markOpen } }
  else
    let (ls,nls) := inheritAll env.cmpSockaddr (s.old.listening.map fun l => { l with remain := false }) s.cycle.listening
    { s with old := { s.old with listening := ls }, cycle := { s.cycle with listening := nls } }

/-- The sockets that `ngx_open_listening_sockets` leaves open: some of the entries marked so. -/
def Listening.openWith (fd : ℤ) (l : Listening A) : Listening A :=
  if l.toOpen = true ∧ fd ≠ invalidFile then { l with fd := fd } else l

/-- `ngx_open_listening_sockets`. -/
def openListeningSockets (env : Env A) : Attempt (Reload A) := fun s =>
  let opened := (s.cycle.listening.mapIdx fun n l => if l.toOpen then env.socket n else invalidFile).filter
    (· ≠ invalidFile)
  let s := { s with
    cycle := { s.cycle with listening := s.cycle.listening.mapIdx fun n => Listening.openWith (env.socket n) }
    descriptors := s.descriptors ++ opened.map handed }
  if env.openSockets then .ok s else .error s

/-! ### The end -/

/-- The sockets of the old cycle that are closed. -/
def Listening.unneeded (l : Listening A) : Bool := !l.remain && l.fd != invalidFile

def closeListening (env : Env A) (s : Reload A) : Reload A :=
  let gone := s.old.listening.filter Listening.unneeded
  { s with
    descriptors := s.descriptors ++ gone.map fun l => freed l.fd
    deleted := s.deleted ++ ((gone.filterMap (·.unixName)).map path).filter env.deleteFile }

/-- The files that the loops over open files close. -/
def OpenFile.ours (file : OpenFile) : Bool := file.fd != invalidFile && file.fd != stderr

def closeFiles (files : List OpenFile) (s : Reload A) : Reload A :=
  { s with descriptors := s.descriptors ++ (files.filter OpenFile.ours).map fun file => freed file.fd }

/-- Close and delete what is left from the old cycle. -/
def release (env : Env A) (s : Reload A) : Reload A :=
  let s := closeListening env (freeZones s)
  closeFiles s.old.openFiles s

/-- A socket that this call has opened. -/
def Listening.opened (l : Listening A) : Bool := l.fd != invalidFile && l.toOpen

/-- `failed`. -/
def rollback (env : Env A) (s : Reload A) : Reload A :=
  let s := closeFiles s.cycle.openFiles s
  if env.testConfig then s
  else { s with descriptors := s.descriptors ++ (s.cycle.listening.filter Listening.opened).map fun l => freed l.fd }

/-- All before the zones. -/
def early (env : Env A) : Attempt (Reload A) :=
  (writePid env).andThen ((testLockfile env).andThen ((createPaths env).andThen
    ((logOpenDefault env).andThen (openFiles env))))

def prepare (env : Env A) : Attempt (Reload A) :=
  (early env).andThen ((createZones env).andThen ((Attempt.always (handleListening env)).andThen
    (openListeningSockets env)))

/-- How the call ends; it exits when `ngx_init_modules` fails. -/
inductive Outcome (A : Type)
  | done (s : Reload A)
  | failed (s : Reload A)
  | exited (s : Reload A)

/-- `ngx_init_cycle`, from the point where the modules have been configured. -/
def initCycle (env : Env A) (old cycle : NgxCycle A) : Outcome A :=
  match prepare env ⟨old,cycle,[],[],[]⟩ with
  | .error s => .failed (rollback env s)
  | .ok s => if env.initModules then .done (release env s) else .exited s

end InsideNginx.Cycle
