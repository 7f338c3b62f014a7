import InsideNginx.Process.Cycle

/-! What signals do to the process table, and whom a broadcast to the workers tells what. -/
namespace InsideNginx.Process

/-- A worker that a broadcast tries to tell something: it is not skipped. -/
def Entry.hears (p : Entry) (signo : Signo) : Bool :=
  !p.detached && p.pid ≠ -1 && !p.justSpawn && !(p.exiting && signo = .shutdown)

/-- One attempt to tell a worker something: a message, and a signal if it cannot be written. -/
def Entry.attempt (p : Entry) (signo : Signo) (i : ℕ) (d : Delivery) : List Event :=
  match signo.command with
  | none => [.kill i p.pid none]
  | some command => .write i ⟨command,0,0,-1⟩ :: if d.written then [] else [.kill i p.pid (some command)]

namespace Master
variable {s s' : Master} {signo : Signo} {i : ℕ}

/-- Whether the master has been told to leave. -/
def stopping (s : Master) : Bool := s.flags.terminate || s.flags.quit

/-! ### Signals -/

/-- What signals may change: that children have exited, and flags. -/
structure Noted (s s' : Master) : Prop where
  pid : ∀ j, (s'.processes j).pid = (s.processes j).pid
  detached : ∀ j, (s'.processes j).detached = (s.processes j).detached
  justSpawn : ∀ j, (s'.processes j).justSpawn = (s.processes j).justSpawn
  lastProcess : s'.lastProcess = s.lastProcess
  stopping : s.stopping = true → s'.stopping = true
  log : ∃ events, s'.log = s.log ++ events ∧ ∀ e ∈ events, ∃ pid, e = .waited pid

theorem Noted.refl (s : Master) : Noted s s :=
  ⟨fun _ => rfl,fun _ => rfl,fun _ => rfl,rfl,id,[],by simp,by simp⟩

theorem Noted.trans {t : Master} (h : Noted s t) (h' : Noted t s') : Noted s s' := by
  obtain ⟨xs,hxs,hall⟩ := h.log
  obtain ⟨ys,hys,hall'⟩ := h'.log
  refine ⟨fun j => (h'.pid j).trans (h.pid j),fun j => (h'.detached j).trans (h.detached j),
    fun j => (h'.justSpawn j).trans (h.justSpawn j),h'.lastProcess.trans h.lastProcess,
    fun hs => h'.stopping (h.stopping hs),xs ++ ys,?_,?_⟩
  · rw [hys,hxs,List.append_assoc]
  · intro e he
    rcases List.mem_append.mp he with he | he
    · exact hall e he
    · exact hall' e he

theorem noted_setFlags {flags : Flags} (h : s.stopping = true → (s.setFlags flags).stopping = true) :
    Noted s (s.setFlags flags) := ⟨fun _ => rfl,fun _ => rfl,fun _ => rfl,rfl,h,[],by simp [setFlags],by simp⟩

theorem noted_collect {pid : ℤ} {status : BitVec 32} (h : s.collect pid status = .ok s') : Noted s s' := by
  have hcollected := collect_cases h
  refine ⟨hcollected.samePid,hcollected.detached,hcollected.justSpawn,hcollected.lastProcess,fun hs => ?_,
    [.waited pid],hcollected.log,by simp⟩
  rw [stopping,hcollected.flags]
  exact hs

theorem noted_processGetStatus {waits : List Wait} (h : s.processGetStatus waits = .ok s') : Noted s s' := by
  induction waits generalizing s with
  | nil =>
    cases h
    exact .refl _
  | cons wait waits ih =>
    cases wait with
    | running =>
      cases h
      exact .refl _
    | failed =>
      cases h
      exact .refl _
    | interrupted => exact ih h
    | child pid status =>
      obtain ⟨t,ht,hrest⟩ := bind_ok h
      exact (noted_collect ht).trans (ih hrest)

theorem noted_signalHandler {signal : Signal} (h : s.signalHandler signal = .ok s') : Noted s s' := by
  cases signal with
  | chld waits =>
    have hflags : Noted s (s.setFlags { s.flags with reap := true }) := noted_setFlags id
    exact hflags.trans (noted_processGetStatus h)
  | noaccept =>
    cases h
    split
    · exact noted_setFlags id
    · exact .refl s
  | changebin parentRuns =>
    cases h
    split
    · exact .refl s
    · exact noted_setFlags id
  | _ =>
    cases h
    exact noted_setFlags fun hs => by simp_all [stopping,setFlags]

theorem noted_signals {signals : List Signal} (h : signals.foldlM signalHandler s = .ok s') : Noted s s' := by
  induction signals generalizing s with
  | nil =>
    cases h
    exact .refl _
  | cons signal signals ih =>
    obtain ⟨t,ht,hrest⟩ := bind_ok h
    exact (noted_signalHandler ht).trans (ih hrest)

/-! ### Broadcasts -/

/-- What one round of a broadcast does. -/
structure Told (s : Master) (signo : Signo) (i : ℕ) (d : Delivery) (s' : Master) : Prop where
  other : ∀ j, j ≠ i → s'.processes j = s.processes j
  pid : (s'.processes i).pid = (s.processes i).pid
  detached : (s'.processes i).detached = (s.processes i).detached
  justSpawn : (s.processes i).pid ≠ -1 → (s.processes i).detached = false → (s'.processes i).justSpawn = false
  lastProcess : s'.lastProcess = s.lastProcess
  stopping : s'.stopping = s.stopping
  log : s'.log = s.log ++ if (s.processes i).hears signo then (s.processes i).attempt signo i d else []

/-- A worker that hears is told by what is left of the round. -/
theorem Told.of_hears {d : Delivery} {p : Entry} (hused : ¬ ((s.processes i).detached || (s.processes i).pid = -1) = true)
    (hold : (s.processes i).justSpawn = false) (hstays : ¬ ((s.processes i).exiting && signo = .shutdown) = true)
    (hprocesses : s'.processes = Function.update s.processes i p) (hpid : p.pid = (s.processes i).pid)
    (hdetached : p.detached = (s.processes i).detached) (hjustSpawn : p.justSpawn = (s.processes i).justSpawn)
    (hlast : s'.lastProcess = s.lastProcess) (hstop : s'.stopping = s.stopping)
    (hlog : s'.log = s.log ++ (s.processes i).attempt signo i d) : Told s signo i d s' where
  other j hj := by rw [hprocesses,Function.update_of_ne hj]
  pid := by rw [hprocesses,Function.update_self,hpid]
  detached := by rw [hprocesses,Function.update_self,hdetached]
  justSpawn _ _ := by rw [hprocesses,Function.update_self,hjustSpawn,hold]
  lastProcess := hlast
  stopping := hstop
  log := by
    have hhears : (s.processes i).hears signo = true := by
      simp only [Entry.hears]
      grind
    rw [hhears,if_pos rfl,hlog]

/-- The end of a round changes the entry, and no mark of it. -/
theorem killWorker_told (s : Master) (signo : Signo) (i : ℕ) (kill : Kill) :
    ∃ p, (s.killWorker signo i kill).processes = Function.update s.processes i p ∧
      p.pid = (s.processes i).pid ∧ p.detached = (s.processes i).detached ∧
      p.justSpawn = (s.processes i).justSpawn ∧
      (s.killWorker signo i kill).lastProcess = s.lastProcess ∧
      (s.killWorker signo i kill).stopping = s.stopping ∧
      (s.killWorker signo i kill).log = s.log ++ [.kill i (s.processes i).pid signo.command] := by
  unfold killWorker
  cases kill with
  | ok =>
    dsimp only
    split
    · exact ⟨s.processes i,by simp [emit],rfl,rfl,rfl,rfl,rfl,rfl⟩
    · exact ⟨_,rfl,rfl,rfl,rfl,rfl,rfl,rfl⟩
  | esrch => exact ⟨_,rfl,rfl,rfl,rfl,rfl,rfl,rfl⟩
  | failed => exact ⟨s.processes i,by simp [emit],rfl,rfl,rfl,rfl,rfl,rfl⟩

theorem signalWorker_told (s : Master) (signo : Signo) (i : ℕ) (d : Delivery) :
    Told s signo i d (s.signalWorker signo i d) := by
  unfold signalWorker
  dsimp only
  split
  · rename_i hskip
    refine ⟨fun _ _ => rfl,rfl,rfl,fun hpid hdetached => ?_,rfl,rfl,?_⟩
    · simp [hpid,hdetached] at hskip
    · have hhears : (s.processes i).hears signo = false := by
        simp only [Entry.hears]
        grind
      simp [hhears]
  rename_i hused
  split
  · rename_i hjust
    refine ⟨fun j hj => setEntry_of_ne _ _ hj,by simp,by simp,fun _ _ => by simp,rfl,rfl,?_⟩
    simp [Entry.hears,hjust,setEntry]
  rename_i hjust
  have hold := Bool.eq_false_of_not_eq_true hjust
  split
  · rename_i hleaves
    refine ⟨fun _ _ => rfl,rfl,rfl,fun _ _ => hold,rfl,rfl,?_⟩
    simp_all [Entry.hears]
  rename_i hstays
  split
  · rename_i hnone
    obtain ⟨p,hprocesses,hpid,hdetached,hjustSpawn,hlast,hstop,hlog⟩ := killWorker_told s signo i d.kill
    exact .of_hears hused hold hstays hprocesses hpid hdetached hjustSpawn hlast hstop
      (by simp [hlog,Entry.attempt,hnone])
  · rename_i command hsome
    split
    · rename_i hunwritten
      rw [Bool.not_eq_true'] at hunwritten
      obtain ⟨p,hprocesses,hpid,hdetached,hjustSpawn,hlast,hstop,hlog⟩ :=
        killWorker_told (s.emit (.write i ⟨command,0,0,-1⟩)) signo i d.kill
      exact .of_hears hused hold hstays hprocesses hpid hdetached hjustSpawn hlast hstop
        (by rw [hlog]; simp [Entry.attempt,hsome,hunwritten,emit])
    · rename_i hwritten
      rw [Bool.not_eq_true',Bool.not_eq_false] at hwritten
      split
      · exact .of_hears hused hold hstays (p := s.processes i) (by simp [emit]) rfl rfl rfl rfl rfl
          (by simp [Entry.attempt,hsome,hwritten,emit])
      · exact .of_hears hused hold hstays rfl rfl rfl rfl rfl rfl
          (by simp [Entry.attempt,hsome,hwritten,emit,setEntry])

/-- What the first rounds of a broadcast do. -/
theorem rounds_told (s : Master) (signo : Signo) (d : ℕ → Delivery) (n : ℕ) {t : Master}
    (ht : t = (List.range n).foldl (fun s i => s.signalWorker signo i (d i)) s) :
    (∀ j, n ≤ j → t.processes j = s.processes j) ∧
    (∀ j, (t.processes j).pid = (s.processes j).pid) ∧
    (∀ j, (t.processes j).detached = (s.processes j).detached) ∧
    (∀ j < n, (s.processes j).pid ≠ -1 → (s.processes j).detached = false → (t.processes j).justSpawn = false) ∧
    t.lastProcess = s.lastProcess ∧ t.stopping = s.stopping ∧
    t.log = s.log ++ ((List.range n).filter fun i => (s.processes i).hears signo).flatMap fun i =>
      (s.processes i).attempt signo i (d i) := by
  induction n generalizing t with
  | zero =>
    subst ht
    exact ⟨fun _ _ => rfl,fun _ => rfl,fun _ => rfl,fun j hj => absurd hj (Nat.not_lt_zero j),rfl,rfl,by simp⟩
  | succ n ih =>
    obtain ⟨hrest,hpid,hdetached,hjust,hlast,hstop,hlog⟩ := ih rfl
    rw [List.range_succ,List.foldl_append,List.foldl_cons,List.foldl_nil] at ht
    generalize (List.range n).foldl (fun s i => s.signalWorker signo i (d i)) s = u at *
    have htold : Told u signo n (d n) t := ht ▸ signalWorker_told u signo n (d n)
    have hn := hrest n le_rfl
    refine ⟨fun j hj => ?_,fun j => ?_,fun j => ?_,fun j hj hused halone => ?_,htold.lastProcess.trans hlast,
      htold.stopping.trans hstop,?_⟩
    · rw [htold.other j (by omega),hrest j (by omega)]
    · by_cases hjn : j = n
      · rw [hjn,htold.pid,hn]
      · rw [htold.other j hjn,hpid]
    · by_cases hjn : j = n
      · rw [hjn,htold.detached,hn]
      · rw [htold.other j hjn,hdetached]
    · by_cases hjn : j = n
      · subst hjn
        exact htold.justSpawn (hn ▸ hused) (hn ▸ halone)
      · rw [htold.other j hjn]
        exact hjust j (by omega) hused halone
    · rw [htold.log,hlog,hn,List.range_succ,List.filter_append,List.flatMap_append,List.append_assoc]
      congr 2
      split <;> rename_i hhears <;> simp [hhears]

/-- What a broadcast does: it tells every worker that hears once, and takes all marks away. -/
theorem signalWorkerProcesses_told (s : Master) (signo : Signo) (d : ℕ → Delivery) :
    (∀ j, ((s.signalWorkerProcesses signo d).processes j).pid = (s.processes j).pid) ∧
    (∀ j, ((s.signalWorkerProcesses signo d).processes j).detached = (s.processes j).detached) ∧
    (∀ j < s.lastProcess, (s.processes j).pid ≠ -1 → (s.processes j).detached = false →
      ((s.signalWorkerProcesses signo d).processes j).justSpawn = false) ∧
    (s.signalWorkerProcesses signo d).lastProcess = s.lastProcess ∧
    (s.signalWorkerProcesses signo d).stopping = s.stopping ∧
    (s.signalWorkerProcesses signo d).log = s.log ++
      ((List.range s.lastProcess).filter fun i => (s.processes i).hears signo).flatMap fun i =>
        (s.processes i).attempt signo i (d i) :=
  (rounds_told s signo d s.lastProcess rfl).2

end Master

end InsideNginx.Process
