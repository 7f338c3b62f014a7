import InsideNginx.Process.Table

/-! What collecting exit statuses does to the process table. The index of the search for a pid is used
after its loop, where it is `ngx_last_process` for a pid that is not in the table. -/
namespace InsideNginx.Process

/-- The exits that `ngx_process_get_status` gets from `waitpid`. -/
def reports : List Wait → List (ℤ × BitVec 32)
  | [] | .running :: _ | .failed :: _ => []
  | .interrupted :: waits => reports waits
  | .child pid status :: waits => (pid,status) :: reports waits

/-- What `ngx_process_get_status` may write in an entry. -/
def Entry.written (p : Entry) : BitVec 32 × Bool × Bool := (p.status,p.exited,p.respawn)

namespace Master

variable {s s' t : Master} {pid : ℤ} {status : BitVec 32} {pids pids' : List ℤ} {waits : List Wait}

/-- The status, `exited` and `respawn` change only in entries of the table with a reported pid. -/
structure Matching (s : Master) (pids : List ℤ) (s' : Master) : Prop where
  samePid : ∀ i, (s'.processes i).pid = (s.processes i).pid
  lastProcess : s'.lastProcess = s.lastProcess
  written : ∀ i, (s'.processes i).written ≠ (s.processes i).written →
    i < s.lastProcess ∧ (s.processes i).pid ∈ pids

/-- The call stays in the table, and changes only matching entries. -/
def CollectsMatching (s : Master) (waits : List Wait) : Prop :=
  ∃ s', s.processGetStatus waits = .ok s' ∧
    ∀ i, (s'.processes i).written ≠ (s.processes i).written →
      i < s.lastProcess ∧ (s.processes i).pid ∈ (reports waits).map Prod.fst

/-- The exit is not a fatal one, or its pid is in the table, or the entry behind the last one is there
and is not one to respawn. -/
def Harmless (s : Master) (pid : ℤ) (status : BitVec 32) : Prop :=
  exitStatus status = 2 → (∃ i < s.lastProcess, (s.processes i).pid = pid) ∨
    s.lastProcess < maxProcesses ∧ (s.processes s.lastProcess).respawn = false

theorem Matching.refl (s : Master) (pids : List ℤ) : Matching s pids s :=
  ⟨fun _ => rfl,rfl,fun _ h => absurd rfl h⟩

theorem Matching.trans (h : Matching s pids t) (h' : Matching t pids' s') : Matching s (pids ++ pids') s' := by
  refine ⟨fun i => (h'.samePid i).trans (h.samePid i),h'.lastProcess.trans h.lastProcess,fun i hi => ?_⟩
  by_cases hfirst : (t.processes i).written = (s.processes i).written
  · have hsecond := h'.written i (hfirst ▸ hi)
    rw [h.lastProcess,h.samePid] at hsecond
    exact ⟨hsecond.1,List.mem_append_right _ hsecond.2⟩
  · exact ⟨(h.written i hfirst).1,List.mem_append_left _ (h.written i hfirst).2⟩

/-- The entry behind the last one keeps what the call may write. -/
theorem Matching.last (h : Matching s pids s') :
    (s'.processes s.lastProcess).written = (s.processes s.lastProcess).written := by
  by_contra hne
  exact absurd (h.written _ hne).1 (lt_irrefl _)

/-- What is harmless before a step that changes only matching entries is so afterwards. -/
theorem Matching.harmless_iff (h : Matching s pids s') : s'.Harmless pid status ↔ s.Harmless pid status := by
  have hrespawn : (s'.processes s.lastProcess).respawn = (s.processes s.lastProcess).respawn :=
    congrArg (fun w => w.2.2) h.last
  simp only [Harmless,h.lastProcess,h.samePid,hrespawn]

/-- A pid that is not in the table is searched for to the end. -/
theorem search_eq_last (h : ¬ ∃ i < s.lastProcess, (s.processes i).pid = pid) : s.search pid = s.lastProcess :=
  (s.search_cases pid).2.resolve_left fun hfound => h ⟨_,hfound⟩

/-- What becomes of a pid that is not in the table. -/
theorem collect_unknown (h : s.search pid = s.lastProcess) (status : BitVec 32) :
    s.collect pid status =
      if exitStatus status = 2 then
        if maxProcesses ≤ s.lastProcess then .error .outOfBounds
        else if (s.processes s.lastProcess).respawn then
          .ok ((s.emit (.waited pid)).setEntry s.lastProcess { s.processes s.lastProcess with respawn := false })
        else .ok (s.emit (.waited pid))
      else .ok (s.emit (.waited pid)) := by
  have hbehind : ¬ s.lastProcess < (s.emit (.waited pid)).lastProcess := lt_irrefl s.lastProcess
  unfold collect
  dsimp only
  rw [h,if_neg hbehind]
  rfl

/-- A harmless exit changes only the entry with its pid. -/
theorem collect_matching (hlast : s.lastProcess ≤ maxProcesses) (h : s.Harmless pid status) :
    ∃ s', s.collect pid status = .ok s' ∧ Matching s [pid] s' := by
  rcases (s.search_cases pid).2 with ⟨hfound,hpid⟩ | hend
  · obtain ⟨s',hcollect⟩ := collect_ok status (hfound.trans_le hlast)
    have hcollected := collect_cases hcollect
    refine ⟨s',hcollect,hcollected.samePid,hcollected.lastProcess,fun i hi => ?_⟩
    have hsearch : i = s.search pid := by
      by_contra hne
      exact hi (congrArg Entry.written (hcollected.other i hne))
    subst hsearch
    exact ⟨hfound,List.mem_singleton.mpr hpid⟩
  · have hunknown : s.collect pid status = .ok (s.emit (.waited pid)) := by
      rw [collect_unknown hend]
      by_cases hfatal : exitStatus status = 2
      · obtain ⟨i,hi,hpid⟩ | ⟨hroom,hrespawn⟩ := h hfatal
        · exact absurd hpid ((s.search_cases pid).1 i (hend ▸ hi))
        · rw [if_pos hfatal,if_neg (not_le.mpr hroom),hrespawn]
          rfl
      · rw [if_neg hfatal]
    exact ⟨_,hunknown,fun _ => rfl,rfl,fun _ h => absurd rfl h⟩

/-- An exit that is not harmless takes the call out of the table, or clears the flag `respawn` of the
entry behind the last one. -/
theorem collect_harmful (h : ¬ s.Harmless pid status) (hcollect : s.collect pid status = .ok s') :
    (s.processes s.lastProcess).respawn = true ∧ (s'.processes s.lastProcess).respawn = false := by
  simp only [Harmless,Classical.not_imp,not_or,not_and,Bool.not_eq_false] at h
  obtain ⟨hfatal,hunknown,hbehind⟩ := h
  rw [collect_unknown (search_eq_last hunknown),if_pos hfatal] at hcollect
  split at hcollect
  · cases hcollect
  rename_i hroom
  have hrespawn := hbehind (not_le.mp hroom)
  rw [hrespawn,if_pos rfl] at hcollect
  cases hcollect
  exact ⟨hrespawn,by simp⟩

/-- No exit sets a flag `respawn`. -/
theorem collect_respawn (h : s.collect pid status = .ok s') {i : ℕ} (hi : (s.processes i).respawn = false) :
    (s'.processes i).respawn = false := by
  unfold collect at h
  dsimp only at h
  by_cases hsearch : i = s.search pid
  · subst hsearch
    split_ifs at h <;> cases h <;> simp [emit,hi]
  · rw [(collect_cases h).other i hsearch,hi]

theorem processGetStatus_respawn (h : s.processGetStatus waits = .ok s') {i : ℕ}
    (hi : (s.processes i).respawn = false) : (s'.processes i).respawn = false := by
  induction waits generalizing s with
  | nil => cases h; exact hi
  | cons wait waits ih =>
    cases wait with
    | running | failed => cases h; exact hi
    | interrupted => exact ih h hi
    | child pid status =>
      obtain ⟨t,hcollect,hrest⟩ := bind_ok h
      exact ih hrest (collect_respawn hcollect hi)

/-- When all the exits are harmless, only matching entries change. -/
theorem processGetStatus_matching (hlast : s.lastProcess ≤ maxProcesses)
    (h : ∀ r ∈ reports waits, s.Harmless r.1 r.2) :
    ∃ s', s.processGetStatus waits = .ok s' ∧ Matching s ((reports waits).map Prod.fst) s' := by
  induction waits generalizing s with
  | nil => exact ⟨s,rfl,.refl _ _⟩
  | cons wait waits ih =>
    cases wait with
    | running | failed => exact ⟨s,rfl,.refl _ _⟩
    | interrupted => exact ih hlast h
    | child pid status =>
      obtain ⟨hfirst,hrest⟩ := List.forall_mem_cons.mp h
      obtain ⟨t,hcollect,hmatching⟩ := collect_matching hlast hfirst
      obtain ⟨s',hwaits,hmatching'⟩ := ih (s := t) (by rw [hmatching.lastProcess]; exact hlast)
        fun r hr => hmatching.harmless_iff.mpr (hrest r hr)
      refine ⟨s',?_,hmatching.trans hmatching'⟩
      unfold processGetStatus
      rw [hcollect]
      exact hwaits

/-- When the entry behind the last one keeps its flag `respawn`, all the exits are harmless. -/
theorem processGetStatus_harmless (hlast : s.lastProcess ≤ maxProcesses) (h : s.processGetStatus waits = .ok s')
    (hkept : (s'.processes s.lastProcess).respawn = (s.processes s.lastProcess).respawn) :
    ∀ r ∈ reports waits, s.Harmless r.1 r.2 := by
  induction waits generalizing s with
  | nil => simp [reports]
  | cons wait waits ih =>
    cases wait with
    | running | failed => simp [reports]
    | interrupted => exact ih hlast h hkept
    | child pid status =>
      obtain ⟨t,hcollect,hrest⟩ := bind_ok h
      have hfirst : s.Harmless pid status := by
        by_contra hharm
        obtain ⟨hset,hclear⟩ := collect_harmful hharm hcollect
        rw [hset,processGetStatus_respawn hrest hclear] at hkept
        exact Bool.false_ne_true hkept
      obtain ⟨t',hcollect',hmatching⟩ := collect_matching hlast hfirst
      cases hcollect.symm.trans hcollect'
      refine List.forall_mem_cons.mpr ⟨hfirst,fun r hr => hmatching.harmless_iff.mp (ih ?_ hrest ?_ r hr)⟩
      · rw [hmatching.lastProcess]
        exact hlast
      · rw [hmatching.lastProcess,hkept]
        exact (congrArg (fun w => w.2.2) hmatching.last).symm

end Master

/-- Collecting exit statuses stays in the table and changes only entries with a reported pid, exactly
when each exit with the code 2 has its pid in the table, or finds behind the last entry one that is
there and is not to be respawned. -/
theorem get_status_matching_iff (s : Master) (waits : List Wait) (hlast : s.lastProcess ≤ maxProcesses) :
    s.CollectsMatching waits ↔ ∀ r ∈ reports waits, exitStatus r.2 = 2 →
      (∃ i < s.lastProcess, (s.processes i).pid = r.1) ∨
      s.lastProcess < maxProcesses ∧ (s.processes s.lastProcess).respawn = false := by
  constructor
  · rintro ⟨s',hok,hwritten⟩
    refine Master.processGetStatus_harmless hlast hok ?_
    have hkept : (s'.processes s.lastProcess).written = (s.processes s.lastProcess).written := by
      by_contra hne
      exact absurd (hwritten _ hne).1 (lt_irrefl _)
    exact congrArg (fun w => w.2.2) hkept
  · intro h
    obtain ⟨s',hok,hmatching⟩ := Master.processGetStatus_matching hlast h
    exact ⟨s',hok,hmatching.written⟩

/-- A table with `n` workers, all with the pid 100, whose slots are to be respawned. -/
def workers (n : ℕ) : Master := { idleMaster with
  processes := fun _ => ⟨100,0,0,0,true,false,false,false,false⟩
  lastProcess := n }

/-- One of two workers exits with the code 2. -/
theorem get_status_matching_iff_two : (workers 2).CollectsMatching [.interrupted,.child 100 0x200,.running] :=
  (get_status_matching_iff (workers 2) [.interrupted,.child 100 0x200,.running] (by decide)).mpr (by decide)

/-- With a full table, an unknown child that exits with the code 2 makes the handler read behind it. -/
theorem full_table_read_behind : (workers maxProcesses).lastProcess ≤ maxProcesses ∧
    (workers maxProcesses).processGetStatus [.child 7 0x200,.running] = .error .outOfBounds ∧
    ¬ (workers maxProcesses).CollectsMatching [.child 7 0x200,.running] := by
  have hunknown : ¬ ∃ i < (workers maxProcesses).lastProcess, ((workers maxProcesses).processes i).pid = 7 := by
    rintro ⟨i,-,hpid⟩
    exact absurd hpid (show ¬ (100 : ℤ) = 7 by decide)
  have herror : (workers maxProcesses).processGetStatus [.child 7 0x200,.running] = .error .outOfBounds := by
    unfold Master.processGetStatus
    rw [Master.collect_unknown (Master.search_eq_last hunknown)]
    rfl
  refine ⟨Nat.le_refl _,herror,?_⟩
  rintro ⟨s',hok,-⟩
  rw [herror] at hok
  cases hok

end InsideNginx.Process
