import InsideNginx.Cycle.Rollback

/-! Which descriptors a reload opens, inherits and closes. -/
namespace InsideNginx.Cycle
open Transfer Attempt

variable {A : Type} {env : Env A} {old cycle : NgxCycle A} {H : List ℤ}

/-! ### The input -/

/-- The valid descriptors of the sockets of a cycle, and of its files but `stderr`. -/
def NgxCycle.fds (c : NgxCycle A) : List ℤ :=
  (c.listening.filter fun l => l.fd != invalidFile).map (·.fd) ++ (c.openFiles.filter OpenFile.ours).map (·.fd)

/-- A file that has not been opened; `stderr` needs not to be. -/
def OpenFile.Unopened (file : OpenFile) : Prop := file.ours = false

/-- A new entry that has no socket. -/
def Listening.Unopened (l : Listening A) : Prop := l.fd = invalidFile ∧ l.toOpen = false ∧ l.previous = none

/-- The entries of a new cycle. -/
structure NgxCycle.Unopened (c : NgxCycle A) : Prop where
  files : ∀ file ∈ c.openFiles, file.Unopened
  listening : ∀ l ∈ c.listening, l.Unopened

/-- The system returns no descriptor that is open: those of `H` are, and the files and sockets that the call
opens stay so. -/
structure Env.Honest (env : Env A) (H : List ℤ) : Prop where
  pid : env.pidOpen ∉ H
  lock : env.lockOpen ∉ H
  file : ∀ i, env.fileOpen i ∉ H
  socket : ∀ i, env.socket i ∉ H
  files : ∀ i j, env.fileOpen i ≠ invalidFile → env.fileOpen i = env.fileOpen j → i = j
  sockets : ∀ i j, env.socket i ≠ invalidFile → env.socket i = env.socket j → i = j
  apart : ∀ i j, env.fileOpen i ≠ invalidFile → env.fileOpen i ≠ env.socket j
  log : ∀ files, env.logOpenDefault = some files → ∀ file ∈ files, file.Unopened

/-- The descriptors that are open at the start: those of the old cycle, `stderr`, and whatever else. -/
structure Table (H : List ℤ) (old : NgxCycle A) : Prop where
  nodup : H.Nodup
  stderr : Cycle.stderr ∈ H
  valid : invalidFile ∉ H
  old : old.fds.Subperm H

/-! ### Inheritance -/

/-- What the loops over the entries leave of the old ones and the new ones. -/
structure Inherited (ls ls' ns : List (Listening A)) : Prop where
  same : ∀ (i : ℕ) l', ls'[i]? = some l' → ∃ l, ls[i]? = some l ∧ l'.fd = l.fd
  remain : ∀ (i : ℕ) l', ls'[i]? = some l' → (l'.remain = true ↔
    (∃ l, ls[i]? = some l ∧ l.remain = true) ∨ ∃ n ∈ ns, n.previous = some i)
  length : ls'.length = ls.length
  source : ∀ n ∈ ns, ∀ i, n.previous = some i → ∃ l, ls[i]? = some l ∧ l.remain = false ∧ n.fd = l.fd
  once : ns.Pairwise fun n m => ∀ i, n.previous = some i → m.previous ≠ some i
  opens : ∀ n ∈ ns, n.toOpen = true ↔ n.fd = invalidFile
  alone : ∀ n ∈ ns, n.previous = none → n.fd = invalidFile

theorem inheritOne_cases (cmp : A → A → Bool) (ls : List (Listening A)) (nls : Listening A) :
    inheritOne cmp ls nls = (ls,nls) ∨ ∃ (i : ℕ) (l : Listening A), ls[i]? = some l ∧ l.remain = false ∧
      inheritOne cmp ls nls = (ls.set i { l with remain := true },nls.inherit l i) := by
  unfold inheritOne
  split
  · exact .inl rfl
  · rename_i i hi
    refine .inr ⟨i,ls[i],List.getElem?_eq_getElem i.isLt,?_,rfl⟩
    obtain ⟨hmatch,-⟩ := List.findFinIdx?_eq_some_iff.mp hi
    simp only [Listening.inheritable,Bool.and_eq_true,Bool.not_eq_true'] at hmatch
    exact hmatch.1.1.2

/-- A new entry after the loop over the old ones. -/
def Listening.settle (nls : Listening A) : Listening A := if nls.fd = invalidFile then nls.markOpen else nls

theorem settle_fd (nls : Listening A) : nls.settle.fd = nls.fd := by
  unfold Listening.settle
  split <;> rfl

theorem settle_previous (nls : Listening A) : nls.settle.previous = nls.previous := by
  unfold Listening.settle
  split <;> rfl

theorem settle_toOpen {nls : Listening A} (h : nls.toOpen = false) :
    nls.settle.toOpen = true ↔ nls.settle.fd = invalidFile := by
  rw [settle_fd]
  unfold Listening.settle
  split_ifs with hfd
  · exact ⟨fun _ => hfd,fun _ => rfl⟩
  · simp [h,hfd]

/-- One more entry, that found no socket. -/
theorem Inherited.skip {ls ls' ns : List (Listening A)} (h : Inherited ls ls' ns) {n : Listening A}
    (hprevious : n.previous = none) (hfd : n.fd = invalidFile) (hopen : n.toOpen = true) : Inherited ls ls' (n::ns) where
  same := h.same
  remain i l' hl' := by
    rw [h.remain i l' hl']
    simp [hprevious]
  length := h.length
  source m hm i hi := by
    rcases List.mem_cons.mp hm with rfl | hm
    · rw [hprevious] at hi
      cases hi
    · exact h.source m hm i hi
  once := by
    refine List.pairwise_cons.mpr ⟨fun m _ i hi => ?_,h.once⟩
    rw [hprevious] at hi
    cases hi
  opens m hm := by
    rcases List.mem_cons.mp hm with rfl | hm
    · simp [hfd,hopen]
    · exact h.opens m hm
  alone m hm hnone := by
    rcases List.mem_cons.mp hm with rfl | hm
    · exact hfd
    · exact h.alone m hm hnone

/-- One more entry, that got the socket of old entry `i`. -/
theorem Inherited.take {ls ls' ns : List (Listening A)} {i : ℕ} {l : Listening A} (hl : ls[i]? = some l)
    (hremain : l.remain = false) (h : Inherited (ls.set i { l with remain := true }) ls' ns) {n : Listening A}
    (hprevious : n.previous = some i) (hfd : n.fd = l.fd) (hopen : n.toOpen = true ↔ n.fd = invalidFile) :
    Inherited ls ls' (n::ns) := by
  have hself : (ls.set i { l with remain := true })[i]? = some { l with remain := true } :=
    List.getElem?_set_self (List.getElem?_eq_some_iff.mp hl).1
  have hother : ∀ j, j ≠ i → (ls.set i { l with remain := true })[j]? = ls[j]? := fun j hj =>
    List.getElem?_set_ne (Ne.symm hj)
  -- the entries after this one leave old entry `i` alone
  have hlater : ∀ m ∈ ns, ∀ j, m.previous = some j → j ≠ i := by
    rintro m hm j hj rfl
    obtain ⟨l',hl',hl'remain,-⟩ := h.source m hm j hj
    rw [hself] at hl'
    cases hl'
    cases hl'remain
  refine ⟨fun j l' hl' => ?_,fun j l' hl' => ?_,h.length.trans List.length_set,fun m hm j hj => ?_,?_,fun m hm => ?_,
    fun m hm hnone => ?_⟩
  · obtain ⟨l₁,hl₁,hsame⟩ := h.same j l' hl'
    by_cases hji : j = i
    · subst hji
      rw [hself] at hl₁
      cases hl₁
      exact ⟨l,hl,hsame⟩
    · exact ⟨l₁,hother j hji ▸ hl₁,hsame⟩
  · rw [h.remain j l' hl']
    by_cases hji : j = i
    · subst hji
      exact ⟨fun _ => .inr ⟨n,List.mem_cons_self,hprevious⟩,fun _ => .inl ⟨_,hself,rfl⟩⟩
    · rw [hother j hji]
      simp [hprevious,Ne.symm hji]
  · rcases List.mem_cons.mp hm with rfl | hm
    · rw [hprevious] at hj
      cases hj
      exact ⟨l,hl,hremain,hfd⟩
    · obtain ⟨l₁,hl₁,hl₁remain,hl₁fd⟩ := h.source m hm j hj
      exact ⟨l₁,hother j (hlater m hm j hj) ▸ hl₁,hl₁remain,hl₁fd⟩
  · refine List.pairwise_cons.mpr ⟨fun m hm j hj hj' => ?_,h.once⟩
    rw [hprevious] at hj
    cases hj
    exact hlater m hm i hj' rfl
  · rcases List.mem_cons.mp hm with rfl | hm
    · exact hopen
    · exact h.opens m hm
  · rcases List.mem_cons.mp hm with rfl | hm
    · rw [hprevious] at hnone
      cases hnone
    · exact h.alone m hm hnone

theorem inheritAll_inherited (cmp : A → A → Bool) (ls ns : List (Listening A)) (hns : ∀ n ∈ ns, n.Unopened) :
    Inherited ls (inheritAll cmp ls ns).1 (inheritAll cmp ls ns).2 := by
  induction ns generalizing ls with
  | nil =>
    refine ⟨fun i l' h => ⟨l',h,rfl⟩,fun i l' h => ?_,rfl,by simp [inheritAll],List.Pairwise.nil,by simp [inheritAll],
      by simp [inheritAll]⟩
    have h : ls[i]? = some l' := h
    simp [inheritAll,h]
  | cons n ns ih =>
    obtain ⟨⟨hfd,hopen,hprevious⟩,hrest⟩ := List.forall_mem_cons.mp hns
    have hstep : inheritAll cmp ls (n::ns) = ((inheritAll cmp (inheritOne cmp ls n).1 ns).1,
        (inheritOne cmp ls n).2.settle::(inheritAll cmp (inheritOne cmp ls n).1 ns).2) := rfl
    rw [hstep]
    rcases inheritOne_cases cmp ls n with heq | ⟨i,l,hl,hremain,heq⟩
    · rw [heq]
      refine (ih ls hrest).skip ?_ ?_ ?_
      · rw [settle_previous,hprevious]
      · rw [settle_fd,hfd]
      · rw [settle_toOpen hopen,settle_fd,hfd]
    · rw [heq]
      have htoOpen : (n.inherit l i).toOpen = false := hopen
      refine Inherited.take hl hremain (ih _ hrest) ?_ ?_ (settle_toOpen htoOpen)
      · rw [settle_previous]
        rfl
      · rw [settle_fd]
        rfl

/-! ### What is open in the new cycle -/

/-- The descriptors of the new cycle that this call has opened. -/
def NgxCycle.own (c : NgxCycle A) : List ℤ :=
  (c.openFiles.filter OpenFile.ours).map (·.fd) ++ (c.listening.filter Listening.opened).map (·.fd)

/-- Open are what was open at the start and what belongs to the new cycle; nothing of the former was closed. -/
structure Clean (H : List ℤ) (s : Reload A) : Prop where
  holds : Holds (H.map handed ++ s.descriptors) (s.cycle.own ++ H)
  kept : ∀ fd ∈ H, freed fd ∉ s.descriptors

theorem filter_ours {files : List OpenFile} (h : ∀ file ∈ files, file.Unopened) : files.filter OpenFile.ours = [] :=
  List.filter_eq_nil_iff.mpr fun file hfile => Bool.eq_false_iff.mp (h file hfile)

theorem NgxCycle.Unopened.own {c : NgxCycle A} (h : c.Unopened) : c.own = [] := by
  have hlistening : c.listening.filter Listening.opened = [] :=
    List.filter_eq_nil_iff.mpr fun l hl => by simp [Listening.opened,(h.listening l hl).1]
  simp [NgxCycle.own,filter_ours h.files,hlistening]

/-- The call has opened nothing that it has not closed again. -/
structure Fresh (H : List ℤ) (s : Reload A) : Prop where
  unopened : s.cycle.Unopened
  clean : Clean H s

/-- A file that is opened and closed at once. -/
theorem Clean.passing {s : Reload A} (h : Clean H s) {fd : ℤ} (hfd : fd ∉ H) (hown : fd ∉ s.cycle.own) :
    Clean H ((s.opens fd).closes fd) := by
  refine ⟨?_,fun x hx hmem => ?_⟩
  · have hopen := h.holds.hand (a := fd) (by simp [hfd,hown])
    simpa [Reload.opens,Reload.closes,List.append_assoc] using hopen.free
  · simp only [Reload.opens,Reload.closes,List.mem_append,List.mem_singleton,Transfer.freed.injEq,reduceCtorEq,
      or_false] at hmem
    rcases hmem with hmem | rfl
    · exact h.kept x hx hmem
    · exact hfd hx

theorem Fresh.passing {s : Reload A} (h : Fresh H s) {fd : ℤ} (hfd : fd ∉ H) : Fresh H ((s.opens fd).closes fd) :=
  ⟨h.unopened,h.clean.passing hfd (by simp [h.unopened.own])⟩

theorem deleteFile_fresh {s : Reload A} (h : Fresh H s) (name : Str) : Fresh H (deleteFile env name s) := by
  unfold deleteFile
  split
  · exact ⟨h.unopened,h.clean.holds,h.clean.kept⟩
  · exact h

/-! ### The stages before the files -/

/-- The write of a new pid file fails, and its descriptor stays open. -/
def PidLeaks (env : Env A) (old cycle : NgxCycle A) : Prop :=
  env.testConfig = false ∧ old.isInit = false ∧ cycle.newPid old = true ∧ env.process ≤ processMaster ∧
    env.pidOpen ≠ invalidFile ∧ env.pidWrite = false

theorem createPidfile_fresh (henv : env.Honest H) (hleak : env.testConfig = false → env.process ≤ processMaster →
    env.pidOpen ≠ invalidFile → env.pidWrite = true) : Triple (Fresh H) (createPidfile env) (Fresh H) (Fresh H) := by
  intro s hs
  unfold createPidfile
  split_ifs with hprocess hopen hwrite
  · exact ⟨fun s' hs' => by cases hs'; exact hs,by simp⟩
  · exact ⟨by simp,fun s' hs' => by cases hs'; exact hs⟩
  · simp only [Bool.and_eq_true,Bool.not_eq_true'] at hwrite
    rw [hleak hwrite.1 (by omega) hopen] at hwrite
    exact absurd hwrite.2 (by decide)
  · exact ⟨fun s' hs' => by cases hs'; exact hs.passing henv.pid,by simp⟩

theorem writePid_fresh (henv : env.Honest H) (hleak : ¬PidLeaks env old cycle) :
    Triple (fun s => Fresh H s ∧ s.core = (old,cycle)) (writePid env) (Fresh H) (Fresh H) := by
  rintro s ⟨hs,hcore⟩
  obtain ⟨hold,hcycle⟩ := Prod.mk.inj hcore
  unfold writePid
  rw [hold,hcycle]
  split_ifs with htest hinit hnew
  · exact createPidfile_fresh henv (by simp [htest]) s hs
  · refine (Triple.andThen (createPidfile_fresh henv fun htest hprocess hopen => ?_)
      (Triple.always fun s hs => deleteFile_fresh hs _)) s hs
    by_contra hwrite
    exact hleak ⟨htest,by simpa using hinit,hnew,hprocess,hopen,by simpa using hwrite⟩
  · exact ⟨fun s' hs' => by cases hs'; exact hs,by simp⟩
  · exact ⟨fun s' hs' => by cases hs'; exact hs,by simp⟩

theorem testLockfile_fresh (henv : env.Honest H) : Triple (Fresh H) (testLockfile env) (Fresh H) (Fresh H) := by
  intro s hs
  unfold testLockfile
  split_ifs
  · exact ⟨fun s' hs' => by cases hs'; exact hs,by simp⟩
  · exact ⟨by simp,fun s' hs' => by cases hs'; exact hs⟩
  · exact ⟨fun s' hs' => by cases hs'; exact deleteFile_fresh (hs.passing henv.lock) _,by simp⟩

theorem createPaths_fresh : Triple (Fresh H) (createPaths env) (Fresh H) (Fresh H) := by
  intro s hs
  unfold createPaths
  split_ifs
  · exact ⟨fun s' hs' => by cases hs'; exact hs,by simp⟩
  · exact ⟨by simp,fun s' hs' => by cases hs'; exact hs⟩

theorem logOpenDefault_fresh (henv : env.Honest H) :
    Triple (Fresh H) (logOpenDefault env) (Fresh H) (Fresh H) := by
  intro s hs
  unfold logOpenDefault
  cases hlog : env.logOpenDefault with
  | none => exact ⟨by simp,fun s' hs' => by cases hs'; exact hs⟩
  | some files =>
    refine ⟨fun s' hs' => ?_,by simp⟩
    cases hs'
    have hunopened : NgxCycle.Unopened { s.cycle with openFiles := s.cycle.openFiles ++ files } :=
      ⟨fun file hfile => (List.mem_append.mp hfile).elim (hs.unopened.files file) (henv.log files hlog file),
        hs.unopened.listening⟩
    refine ⟨hunopened,?_,hs.clean.kept⟩
    have hholds := hs.clean.holds
    rw [hs.unopened.own] at hholds
    rwa [hunopened.own]

/-! ### The files -/

/-- The files up to `k` that are open were opened by this call, and the others have not been. -/
structure OpenUpTo (env : Env A) (H : List ℤ) (k : ℕ) (s : Reload A) : Prop where
  clean : Clean H s
  front : ∀ (i : ℕ) file, s.cycle.openFiles[i]? = some file → file.ours = true → i < k ∧ file.fd = env.fileOpen i
  listening : ∀ l ∈ s.cycle.listening, l.Unopened

theorem filter_ours_set {files : List OpenFile} {i : ℕ} {file : OpenFile} (file' : OpenFile) (hi : files[i]? = some file)
    (hfile : file.ours = false) : ((files.set i file').filter OpenFile.ours).map (·.fd) |>.Perm
      (([file'].filter OpenFile.ours).map (·.fd) ++ (files.filter OpenFile.ours).map (·.fd)) := by
  obtain ⟨hlt,rfl⟩ := List.getElem?_eq_some_iff.mp hi
  have hsplit : files = files.take i ++ files[i]::files.drop (i+1) := by
    rw [List.getElem_cons_drop,List.take_append_drop]
  rw [List.set_eq_take_append_cons_drop,if_pos hlt]
  conv_rhs => rw [hsplit]
  simp only [List.filter_append,List.map_append,List.filter_cons,hfile,Bool.false_eq_true,if_false]
  split_ifs with hours
  · simp
  · simp

theorem OpenUpTo.own_eq {k : ℕ} {s : Reload A} (h : OpenUpTo env H k s) :
    s.cycle.own = (s.cycle.openFiles.filter OpenFile.ours).map (·.fd) := by
  have hlistening : s.cycle.listening.filter Listening.opened = [] :=
    List.filter_eq_nil_iff.mpr fun l hl => by simp [Listening.opened,(h.listening l hl).1]
  simp [NgxCycle.own,hlistening]

theorem OpenUpTo.of_holds {k : ℕ} {s : Reload A}
    (hfront : ∀ (i : ℕ) file, s.cycle.openFiles[i]? = some file → file.ours = true → i < k ∧ file.fd = env.fileOpen i)
    (hlistening : ∀ l ∈ s.cycle.listening, l.Unopened)
    (hholds : Holds (H.map handed ++ s.descriptors) ((s.cycle.openFiles.filter OpenFile.ours).map (·.fd) ++ H))
    (hkept : ∀ fd ∈ H, freed fd ∉ s.descriptors) : OpenUpTo env H k s := by
  refine ⟨⟨?_,hkept⟩,hfront,hlistening⟩
  have hnone : s.cycle.listening.filter Listening.opened = [] :=
    List.filter_eq_nil_iff.mpr fun l hl => by simp [Listening.opened,(hlistening l hl).1]
  simpa [NgxCycle.own,hnone] using hholds

variable {k : ℕ} {s : Reload A}

theorem OpenUpTo.later (h : OpenUpTo env H k s) : OpenUpTo env H (k+1) s where
  clean := h.clean
  front i file hi hours := ⟨Nat.lt_succ_of_lt (h.front i file hi hours).1,(h.front i file hi hours).2⟩
  listening := h.listening

theorem OpenUpTo.closed (h : OpenUpTo env H k s) {file : OpenFile} (hfile : s.cycle.openFiles[k]? = some file) :
    file.ours = false := by
  by_contra hours
  exact lt_irrefl k (h.front k file hfile (by simpa using hours)).1

theorem OpenUpTo.front_set (h : OpenUpTo env H k s) (hlt : k < s.cycle.openFiles.length) (name : Str) (i : ℕ)
    (file : OpenFile) (hi : (s.cycle.openFiles.set k ⟨name,env.fileOpen k⟩)[i]? = some file)
    (hours : file.ours = true) : i < k + 1 ∧ file.fd = env.fileOpen i := by
  by_cases hik : i = k
  · subst hik
    rw [List.getElem?_set_self hlt] at hi
    cases hi
    exact ⟨Nat.lt_succ_self i,rfl⟩
  · rw [List.getElem?_set_ne (Ne.symm hik)] at hi
    exact h.later.front i file hi hours

/-- File `k` has been opened. -/
theorem OpenUpTo.opened (henv : env.Honest H) (hstderr : stderr ∈ H) (h : OpenUpTo env H k s) {file : OpenFile}
    (hfile : s.cycle.openFiles[k]? = some file) (hvalid : env.fileOpen k ≠ invalidFile) :
    OpenUpTo env H (k+1) ((s.setFile k { file with fd := env.fileOpen k }).opens (env.fileOpen k)) := by
  have hours : OpenFile.ours { file with fd := env.fileOpen k } = true := by
    have hother : env.fileOpen k ≠ stderr := fun heq => henv.file k (heq ▸ hstderr)
    simp [OpenFile.ours,hvalid,hother]
  have hperm := filter_ours_set { file with fd := env.fileOpen k } hfile (h.closed hfile)
  rw [List.filter_cons_of_pos (by simp [hours]),List.filter_nil,List.map_singleton,List.singleton_append] at hperm
  have hnew : env.fileOpen k ∉ (s.cycle.openFiles.filter OpenFile.ours).map (·.fd) ++ H := by
    intro hmem
    rcases List.mem_append.mp hmem with hmem | hmem
    · obtain ⟨other,hother,heq⟩ := List.mem_map.mp hmem
      obtain ⟨hother,hours'⟩ := List.mem_filter.mp hother
      obtain ⟨i,hi⟩ := List.mem_iff_getElem?.mp hother
      obtain ⟨hlt,hfd⟩ := h.front i other hi hours'
      have hki := henv.files k i hvalid (heq.symm.trans hfd)
      omega
    · exact henv.file k hmem
  have hholds := h.clean.holds
  rw [h.own_eq] at hholds
  refine .of_holds (h.front_set (List.getElem?_eq_some_iff.mp hfile).1 file.name) h.listening ?_ fun fd hfd => ?_
  · have hhand := (hholds.hand hnew).perm (hperm.symm.append_right H)
    rwa [List.append_assoc] at hhand
  · simpa [Reload.opens,Reload.setFile] using h.clean.kept fd hfd

theorem openFile_upTo (henv : env.Honest H) (hstderr : stderr ∈ H) (k : ℕ) :
    Triple (OpenUpTo env H k) (openFile env k) (OpenUpTo env H (k+1)) (OpenUpTo env H (k+1)) := by
  intro s hs
  unfold openFile
  cases hfile : s.cycle.openFiles[k]? with
  | none => exact ⟨fun s' hs' => by cases hs'; exact hs.later,by simp⟩
  | some file =>
    dsimp only
    split_ifs with hname hinvalid hfcntl
    · exact ⟨fun s' hs' => by cases hs'; exact hs.later,by simp⟩
    · refine ⟨by simp,fun s' hs' => ?_⟩
      cases hs'
      have hours : OpenFile.ours { file with fd := env.fileOpen k } = false := by simp [OpenFile.ours,hinvalid]
      have hperm := filter_ours_set { file with fd := env.fileOpen k } hfile (hs.closed hfile)
      rw [List.filter_cons_of_neg (by simp [hours]),List.filter_nil,List.map_nil,List.nil_append] at hperm
      have hholds := hs.clean.holds
      rw [hs.own_eq] at hholds
      exact .of_holds (hs.front_set (List.getElem?_eq_some_iff.mp hfile).1 file.name) hs.listening
        (hholds.perm (hperm.symm.append_right H)) hs.clean.kept
    · exact ⟨fun s' hs' => by cases hs'; exact hs.opened henv hstderr hfile hinvalid,by simp⟩
    · exact ⟨by simp,fun s' hs' => by cases hs'; exact hs.opened henv hstderr hfile hinvalid⟩

/-- The new cycle has its files, each with a descriptor that was opened for it, and no socket. -/
structure Filed (env : Env A) (H : List ℤ) (s : Reload A) : Prop where
  clean : Clean H s
  files : ∀ file ∈ s.cycle.openFiles, file.ours = true → ∃ i, file.fd = env.fileOpen i
  listening : ∀ l ∈ s.cycle.listening, l.Unopened

theorem OpenUpTo.filed (h : OpenUpTo env H k s) : Filed env H s where
  clean := h.clean
  files file hfile hours := by
    obtain ⟨i,hi⟩ := List.mem_iff_getElem?.mp hfile
    exact ⟨i,(h.front i file hi hours).2⟩
  listening := h.listening

theorem Fresh.filed (h : Fresh H s) : Filed env H s where
  clean := h.clean
  files file hfile hours := by
    rw [h.unopened.files file hfile] at hours
    cases hours
  listening := h.unopened.listening

theorem openFiles_filed (henv : env.Honest H) (hstderr : stderr ∈ H) :
    Triple (Fresh H) (openFiles env) (Filed env H) (Filed env H) := by
  intro s hs
  have hfiles : OpenUpTo env H 0 s := by
    refine ⟨hs.clean,fun i file hi hours => ?_,hs.unopened.listening⟩
    rw [hs.unopened.files file (List.mem_of_getElem? hi)] at hours
    cases hours
  have hloop := Triple.loop (f := openFile env) (I := OpenUpTo env H) (E := Filed env H) (i := 0)
    (n := s.cycle.openFiles.length) fun k _ _ =>
      (openFile_upTo henv hstderr k).weaken (fun _ h => h) (fun _ h => h) fun _ h => h.filed
  exact (hloop.weaken (fun _ h => h) (fun _ h => h.filed) fun _ h => h) s hfiles

theorem early_filed (henv : env.Honest H) (hstderr : stderr ∈ H) (hleak : ¬PidLeaks env old cycle) :
    Triple (fun s => Fresh H s ∧ s.core = (old,cycle)) (early env) (Filed env H) (Filed env H) :=
  ((writePid_fresh henv hleak).weaken (fun _ h => h) (fun _ h => h) fun _ h => h.filed).andThen
    (((testLockfile_fresh henv).weaken (fun _ h => h) (fun _ h => h) fun _ h => h.filed).andThen
      ((createPaths_fresh.weaken (fun _ h => h) (fun _ h => h) fun _ h => h.filed).andThen
        (((logOpenDefault_fresh henv).weaken (fun _ h => h) (fun _ h => h) fun _ h => h.filed).andThen
          (openFiles_filed henv hstderr))))

/-! ### The zones and the sockets -/

/-- What the zones leave alone: all that has a descriptor. -/
def Reload.tables (s : Reload A) : NgxCycle A × List OpenFile × List (Listening A) × List (Transfer ℤ) :=
  (s.old,s.cycle.openFiles,s.cycle.listening,s.descriptors)

theorem createZone_tables (env : Env A) (i : ℕ) : Keeps (createZone env i) Reload.tables := by
  intro s
  unfold createZone initZone
  split
  · rfl
  split_ifs
  · rfl
  split
  · split <;> rfl
  split
  · rfl
  dsimp only
  split_ifs
  · split <;> rfl
  · rfl

theorem createZones_tables (env : Env A) : Keeps (createZones env) Reload.tables :=
  fun s => Keeps.loop (createZone_tables env) 0 _ s

theorem Filed.congr {s' : Reload A} (h : Filed env H s) (heq : s'.tables = s.tables) : Filed env H s' := by
  simp only [Reload.tables,Prod.mk.injEq] at heq
  obtain ⟨-,hfiles,hlistening,hdescriptors⟩ := heq
  have hown : s'.cycle.own = s.cycle.own := by simp only [NgxCycle.own,hfiles,hlistening]
  refine ⟨⟨?_,?_⟩,?_,?_⟩
  · rw [hown,hdescriptors]
    exact h.clean.holds
  · rw [hdescriptors]
    exact h.clean.kept
  · rw [hfiles]
    exact h.files
  · rw [hlistening]
    exact h.listening

/-- An old entry at the start of the loops. -/
def Listening.unmark (l : Listening A) : Listening A := { l with remain := false }

/-- The sockets have been shared out. -/
structure Matched (env : Env A) (H : List ℤ) (old : NgxCycle A) (s : Reload A) : Prop where
  clean : Clean H s
  files : ∀ file ∈ s.cycle.openFiles, file.ours = true → ∃ i, file.fd = env.fileOpen i
  oldFiles : s.old.openFiles = old.openFiles
  inherited : Inherited (old.listening.map Listening.unmark) s.old.listening s.cycle.listening

theorem Inherited.filter_opened {ls ls' ns : List (Listening A)} (h : Inherited ls ls' ns) :
    ns.filter Listening.opened = [] := by
  refine List.filter_eq_nil_iff.mpr fun n hn hopened => ?_
  simp only [Listening.opened,Bool.and_eq_true,bne_iff_ne] at hopened
  exact hopened.1 ((h.opens n hn).mp hopened.2)

theorem inherited_markOpen {ns : List (Listening A)} (hns : ∀ n ∈ ns, n.Unopened) :
    Inherited [] [] (ns.map Listening.markOpen) := by
  have hnone : ∀ n ∈ ns.map Listening.markOpen, n.previous = none ∧ n.fd = invalidFile ∧ n.toOpen = true := by
    intro n hn
    obtain ⟨m,hm,rfl⟩ := List.mem_map.mp hn
    exact ⟨(hns m hm).2.2,(hns m hm).1,rfl⟩
  refine ⟨by simp,by simp,rfl,fun n hn i hi => ?_,?_,fun n hn => ?_,fun n hn _ => (hnone n hn).2.1⟩
  · rw [(hnone n hn).1] at hi
    cases hi
  · refine List.pairwise_of_forall_mem_list fun n hn m _ i hi => ?_
    rw [(hnone n hn).1] at hi
    cases hi
  · simp [(hnone n hn).2]

theorem handleListening_matched (h : Filed env H s) (hold : s.old = old) : Matched env H old (handleListening env s) := by
  have hbefore : s.cycle.listening.filter Listening.opened = [] :=
    List.filter_eq_nil_iff.mpr fun l hl => by simp [Listening.opened,(h.listening l hl).1]
  have hclean : ∀ (ls ns : List (Listening A)), ns.filter Listening.opened = [] →
      Clean H { s with old := { s.old with listening := ls }, cycle := { s.cycle with listening := ns } } := by
    intro ls ns hns
    refine ⟨?_,h.clean.kept⟩
    have hholds := h.clean.holds
    simp only [NgxCycle.own,hbefore] at hholds
    simpa only [NgxCycle.own,hns] using hholds
  unfold handleListening
  split_ifs with hempty
  · have hinherited := inherited_markOpen h.listening
    have hnone : old.listening = [] := hold ▸ hempty
    refine ⟨?_,h.files,by rw [hold],?_⟩
    · have := hclean s.old.listening _ hinherited.filter_opened
      exact this
    · simpa [hold,hnone] using hinherited
  · have hinherited := inheritAll_inherited env.cmpSockaddr (s.old.listening.map Listening.unmark) s.cycle.listening
      h.listening
    refine ⟨hclean _ _ hinherited.filter_opened,h.files,by rw [hold],?_⟩
    rw [hold] at hinherited ⊢
    exact hinherited

/-! ### New sockets -/

theorem opened_sockets (socket : ℕ → ℤ) (ns : List (Listening A)) (h : ∀ n ∈ ns, n.toOpen = true ↔ n.fd = invalidFile) :
    ((ns.mapIdx fun i => Listening.openWith (socket i)).filter Listening.opened).map (·.fd) =
      (ns.mapIdx fun i n => if n.toOpen then socket i else invalidFile).filter (· ≠ invalidFile) := by
  induction ns generalizing socket with
  | nil => rfl
  | cons n ns ih =>
    obtain ⟨hn,hns⟩ := List.forall_mem_cons.mp h
    rw [List.mapIdx_cons,List.mapIdx_cons,List.filter_cons,List.filter_cons]
    have hrest := ih (fun i => socket (i+1)) hns
    unfold Listening.openWith at hrest ⊢
    cases hopen : n.toOpen with
    | false =>
      have hfd : Listening.opened n = false := by simp [Listening.opened,hopen]
      simpa [hfd,hopen] using hrest
    | true =>
      have hfd : n.fd = invalidFile := hn.mp hopen
      by_cases hsocket : socket 0 = invalidFile
      · simpa [hsocket,Listening.opened,hfd] using hrest
      · simpa [hsocket,Listening.opened,hopen] using hrest

theorem mem_sockets {socket : ℕ → ℤ} {ns : List (Listening A)} {fd : ℤ}
    (h : fd ∈ (ns.mapIdx fun i n => if n.toOpen then socket i else invalidFile).filter (· ≠ invalidFile)) :
    fd ≠ invalidFile ∧ ∃ i, fd = socket i := by
  obtain ⟨hmem,hvalid⟩ := List.mem_filter.mp h
  have hvalid : fd ≠ invalidFile := of_decide_eq_true hvalid
  obtain ⟨i,hi,rfl⟩ := List.mem_mapIdx.mp hmem
  refine ⟨hvalid,i,?_⟩
  split_ifs at hvalid ⊢ with hopen
  · rfl
  · exact absurd rfl hvalid

theorem sockets_nodup {socket : ℕ → ℤ} (hsocket : ∀ i j, socket i ≠ invalidFile → socket i = socket j → i = j)
    (ns : List (Listening A)) :
    ((ns.mapIdx fun i n => if n.toOpen then socket i else invalidFile).filter (· ≠ invalidFile)).Nodup := by
  induction ns generalizing socket with
  | nil => exact List.nodup_nil
  | cons n ns ih =>
    have hrest := @ih (fun i => socket (i+1)) fun i j hi hij => Nat.succ_injective (hsocket _ _ hi hij)
    rw [List.mapIdx_cons,List.filter_cons]
    split_ifs with hopen hvalid
    · refine List.nodup_cons.mpr ⟨fun hmem => ?_,hrest⟩
      obtain ⟨hne,i,hi⟩ := mem_sockets hmem
      exact absurd (hsocket _ _ (hi ▸ hne) hi) (by omega)
    · exact hrest
    · exact absurd rfl (of_decide_eq_true ‹_›)
    · exact hrest

/-- The call has opened what sockets it could. -/
structure Passed (env : Env A) (H : List ℤ) (old : NgxCycle A) (s : Reload A) : Prop where
  clean : Clean H s
  oldFiles : s.old.openFiles = old.openFiles
  inherited : ∃ ns, Inherited (old.listening.map Listening.unmark) s.old.listening ns ∧
    s.cycle.listening = ns.mapIdx fun n => Listening.openWith (env.socket n)

theorem openListeningSockets_passed (henv : env.Honest H) :
    Triple (Matched env H old) (openListeningSockets env) (Passed env H old) (Passed env H old) := by
  intro s hs
  have hpassed : Passed env H old { s with
      cycle := { s.cycle with listening := s.cycle.listening.mapIdx fun n => Listening.openWith (env.socket n) }
      descriptors := s.descriptors ++ ((s.cycle.listening.mapIdx fun n l => if l.toOpen then env.socket n
        else invalidFile).filter (· ≠ invalidFile)).map handed } := by
    refine ⟨⟨?_,fun fd hfd hmem => ?_⟩,hs.oldFiles,s.cycle.listening,hs.inherited,rfl⟩
    · have hholds := hs.clean.holds
      simp only [NgxCycle.own,hs.inherited.filter_opened,List.map_nil,List.append_nil] at hholds
      simp only [NgxCycle.own,opened_sockets env.socket s.cycle.listening hs.inherited.opens]
      rw [← List.append_assoc (H.map handed)]
      refine (hholds.handAll ?_).perm ?_
      · refine List.nodup_append'.mpr ⟨sockets_nodup henv.sockets _,hholds.nodup,fun fd hnew hmem => ?_⟩
        obtain ⟨hvalid,i,rfl⟩ := mem_sockets hnew
        rcases List.mem_append.mp hmem with hmem | hmem
        · obtain ⟨file,hfile,heq⟩ := List.mem_map.mp hmem
          obtain ⟨j,hj⟩ := hs.files file (List.mem_filter.mp hfile).1 (List.mem_filter.mp hfile).2
          have hsame : env.fileOpen j = env.socket i := hj.symm.trans heq
          exact henv.apart j i (hsame ▸ hvalid) hsame
        · exact henv.socket i hmem
      · rw [← List.append_assoc]
        exact List.perm_append_comm.append_right H
    · rcases List.mem_append.mp hmem with hmem | hmem
      · exact hs.clean.kept fd hfd hmem
      · obtain ⟨_,-,heq⟩ := List.mem_map.mp hmem
        cases heq
  unfold openListeningSockets
  dsimp only
  split_ifs
  · exact ⟨fun s' hs' => by cases hs'; exact hpassed,by simp⟩
  · exact ⟨by simp,fun s' hs' => by cases hs'; exact hpassed⟩

/-! ### Who inherits what -/

/-- New entries and the valid sockets of old ones: an entry has the socket of the one that it points to and of
no other, and no two have the same. -/
structure Inherits (olds news : List (Listening A)) : Prop where
  previous : ∀ n ∈ news, ∀ (i : ℕ) l, olds[i]? = some l → l.fd ≠ invalidFile → (n.previous = some i ↔ n.fd = l.fd)
  once : ∀ l ∈ olds, l.fd ≠ invalidFile → ∀ (i j : ℕ) n m, news[i]? = some n → news[j]? = some m →
    n.fd = l.fd → m.fd = l.fd → i = j

/-- The valid sockets of a cycle are distinct. -/
def Distinct (ls : List (Listening A)) : Prop := ls.Pairwise fun l m => l.fd ≠ invalidFile → l.fd ≠ m.fd

theorem Distinct.eq {ls : List (Listening A)} (h : Distinct ls) {i j : ℕ} {l m : Listening A} (hi : ls[i]? = some l)
    (hj : ls[j]? = some m) (hvalid : l.fd ≠ invalidFile) (heq : l.fd = m.fd) : i = j := by
  obtain ⟨hilt,rfl⟩ := List.getElem?_eq_some_iff.mp hi
  obtain ⟨hjlt,rfl⟩ := List.getElem?_eq_some_iff.mp hj
  rcases Nat.lt_trichotomy i j with hlt | heq' | hlt
  · exact absurd heq (List.pairwise_iff_getElem.mp h i j hilt hjlt hlt hvalid)
  · exact heq'
  · exact absurd heq.symm (List.pairwise_iff_getElem.mp h j i hjlt hilt hlt (heq ▸ hvalid))

theorem Table.nodup_fds (h : Table H old) : old.fds.Nodup := by
  obtain ⟨l,hperm,hsub⟩ := h.old
  exact hperm.nodup (hsub.nodup h.nodup)

theorem Table.distinct (h : Table H old) : Distinct old.listening := by
  have hnodup := (List.nodup_append'.mp h.nodup_fds).1
  rw [List.Nodup,List.pairwise_map,List.pairwise_filter] at hnodup
  refine hnodup.imp fun hne hvalid heq => ?_
  exact hne (by simpa using hvalid) (by simpa [← heq] using hvalid) heq

theorem Table.mem_listening (h : Table H old) {l : Listening A} (hl : l ∈ old.listening) (hvalid : l.fd ≠ invalidFile) :
    l.fd ∈ H := h.old.subset (List.mem_append_left _ (List.mem_map_of_mem (List.mem_filter.mpr ⟨hl,by simpa using hvalid⟩)))

theorem inherits_unopened {olds news : List (Listening A)} (h : ∀ n ∈ news, n.Unopened) : Inherits olds news where
  previous n hn i l _ hvalid := by
    obtain ⟨hfd,-,hprevious⟩ := h n hn
    simp [hfd,hprevious,Ne.symm hvalid]
  once l _ hvalid i j n m hn _ hfd _ := by
    rw [(h n (List.mem_of_getElem? hn)).1] at hfd
    exact absurd hfd.symm hvalid

theorem Inherited.source_fd {ls ls' ns : List (Listening A)} (h : Inherited (ls.map Listening.unmark) ls' ns)
    {n : Listening A} (hn : n ∈ ns) {i : ℕ} (hi : n.previous = some i) : ∃ l, ls[i]? = some l ∧ n.fd = l.fd := by
  obtain ⟨l,hl,-,hfd⟩ := h.source n hn i hi
  rw [List.getElem?_map,Option.map_eq_some_iff] at hl
  obtain ⟨l,hl,rfl⟩ := hl
  exact ⟨l,hl,hfd⟩

/-- A new entry in the end, and as it was before the sockets were opened. -/
theorem Inherited.previous_iff {olds ls' ns : List (Listening A)} (h : Inherited (olds.map Listening.unmark) ls' ns)
    (hdistinct : Distinct olds) {socket : ℤ} {n : Listening A} (hn : n ∈ ns) {i : ℕ} {l : Listening A}
    (hl : olds[i]? = some l) (hvalid : l.fd ≠ invalidFile) (hsocket : socket ≠ l.fd) :
    n.previous = some i ↔ (n.openWith socket).fd = l.fd := by
  have hopen : (n.openWith socket).fd = l.fd ↔ n.fd = l.fd := by
    unfold Listening.openWith
    split_ifs with hopen
    · have hfd := (h.opens n hn).mp hopen.1
      exact ⟨fun heq => absurd heq hsocket,fun heq => absurd (heq.symm.trans hfd) hvalid⟩
    · rfl
  rw [hopen]
  refine ⟨fun hi => ?_,fun hfd => ?_⟩
  · obtain ⟨l',hl',hfd⟩ := h.source_fd hn hi
    rw [hl] at hl'
    cases hl'
    exact hfd
  · cases hprevious : n.previous with
    | none => exact absurd (hfd.symm.trans (h.alone n hn hprevious)) hvalid
    | some j =>
      obtain ⟨l',hl',hfd'⟩ := h.source_fd hn hprevious
      rw [hdistinct.eq hl hl' hvalid (hfd.symm.trans hfd')]

theorem openWith_previous (socket : ℤ) (n : Listening A) : (n.openWith socket).previous = n.previous := by
  unfold Listening.openWith
  split_ifs <;> rfl

theorem Passed.inherits (henv : env.Honest H) (htable : Table H old) (h : Passed env H old s) :
    Inherits old.listening s.cycle.listening := by
  obtain ⟨ns,hns,heq⟩ := h.inherited
  have hprevious : ∀ n ∈ s.cycle.listening, ∀ (i : ℕ) l, old.listening[i]? = some l → l.fd ≠ invalidFile →
      (n.previous = some i ↔ n.fd = l.fd) := by
    intro n hn i l hl hvalid
    rw [heq] at hn
    obtain ⟨k,hk,rfl⟩ := List.mem_mapIdx.mp hn
    rw [openWith_previous]
    refine hns.previous_iff htable.distinct (List.getElem_mem hk) hl hvalid fun hsame => ?_
    exact henv.socket k (hsame ▸ htable.mem_listening (List.mem_of_getElem? hl) hvalid)
  refine ⟨hprevious,fun l hl hvalid i j n m hi hj hn hm => ?_⟩
  obtain ⟨k,hk⟩ := List.mem_iff_getElem?.mp hl
  have hn := (hprevious n (List.mem_of_getElem? hi) k l hk hvalid).mpr hn
  have hm := (hprevious m (List.mem_of_getElem? hj) k l hk hvalid).mpr hm
  rw [heq,List.getElem?_mapIdx,Option.map_eq_some_iff] at hi hj
  obtain ⟨n,hi,rfl⟩ := hi
  obtain ⟨m,hj,rfl⟩ := hj
  rw [openWith_previous] at hn hm
  obtain ⟨hilt,rfl⟩ := List.getElem?_eq_some_iff.mp hi
  obtain ⟨hjlt,rfl⟩ := List.getElem?_eq_some_iff.mp hj
  rcases Nat.lt_trichotomy i j with hlt | heq | hlt
  · exact absurd hm (List.pairwise_iff_getElem.mp hns.once i j hilt hjlt hlt k hn)
  · exact heq
  · exact absurd hn (List.pairwise_iff_getElem.mp hns.once j i hjlt hilt hlt k hm)

/-! ### The ends -/

theorem prepare_passed (henv : env.Honest H) (htable : Table H old) (hcycle : cycle.Unopened)
    (hleak : ¬PidLeaks env old cycle) : Triple (· = start old cycle) (prepare env) (Passed env H old)
      (fun s => Clean H s ∧ Inherits old.listening s.cycle.listening) := by
  have hfailed : ∀ s : Reload A, Filed env H s → Clean H s ∧ Inherits old.listening s.cycle.listening :=
    fun s hs => ⟨hs.clean,inherits_unopened hs.listening⟩
  have hstart : Fresh H (start old cycle) := by
    refine ⟨hcycle,?_,by simp [start]⟩
    have hall := Holds.nil.handAll (by simpa using htable.nodup : (H ++ []).Nodup)
    have hown : (start old cycle).cycle.own = [] := hcycle.own
    rw [hown]
    simpa [start] using hall
  have hearly : Triple (· = start old cycle) (early env) (fun s => Filed env H s ∧ s.old = old)
      (fun s => Filed env H s ∧ s.old = old) := by
    rintro s rfl
    have hfiled := early_filed henv htable.stderr hleak (start old cycle) ⟨hstart,rfl⟩
    have haside := (early_keeps : Keeps (early env) Reload.aside).triple (start old cycle).aside (start old cycle) rfl
    exact ⟨fun s' hs' => ⟨hfiled.1 s' hs',congrArg Prod.fst (haside.1 s' hs')⟩,
      fun s' hs' => ⟨hfiled.2 s' hs',congrArg Prod.fst (haside.2 s' hs')⟩⟩
  have hzones : Triple (fun s => Filed env H s ∧ s.old = old) (createZones env) (fun s => Filed env H s ∧ s.old = old)
      (fun s => Filed env H s ∧ s.old = old) := by
    rintro s ⟨hs,hold⟩
    have htables := (createZones_tables env).triple s.tables s rfl
    exact ⟨fun s' hs' => ⟨hs.congr (htables.1 s' hs'),(congrArg Prod.fst (htables.1 s' hs')).trans hold⟩,
      fun s' hs' => ⟨hs.congr (htables.2 s' hs'),(congrArg Prod.fst (htables.2 s' hs')).trans hold⟩⟩
  have hsockets : Triple (fun s => Filed env H s ∧ s.old = old)
      ((Attempt.always (handleListening env)).andThen (openListeningSockets env)) (Passed env H old)
      (fun s => Clean H s ∧ Inherits old.listening s.cycle.listening) :=
    (Triple.always fun s hs => handleListening_matched hs.1 hs.2).andThen
      ((openListeningSockets_passed henv).weaken (fun _ h => h) (fun _ h => h) fun s hs =>
        ⟨hs.clean,hs.inherits henv htable⟩)
  exact (hearly.weaken (fun _ h => h) (fun _ h => h) fun s hs => hfailed s hs.1).andThen
    ((hzones.weaken (fun _ h => h) (fun _ h => h) fun s hs => hfailed s hs.1).andThen hsockets)

theorem rollback_descriptors (htest : env.testConfig = false) (s : Reload A) :
    (rollback env s).descriptors = s.descriptors ++ s.cycle.own.map freed := by
  simp [rollback,closeFiles,htest,NgxCycle.own,List.append_assoc,Function.comp_def]

/-- The rollback closes what the call has opened, and nothing else. -/
theorem Clean.rollback (h : Clean H s) (htest : env.testConfig = false) :
    (∀ fd ∈ H, freed fd ∉ (rollback env s).descriptors) ∧ Holds (rollback env s).descriptors [] := by
  rw [rollback_descriptors htest]
  have hkept : ∀ fd ∈ H, freed fd ∉ s.descriptors ++ s.cycle.own.map freed := by
    intro fd hfd hmem
    rcases List.mem_append.mp hmem with hmem | hmem
    · exact h.kept fd hfd hmem
    · obtain ⟨fd',hown,heq⟩ := List.mem_map.mp hmem
      cases heq
      exact (List.nodup_append'.mp h.holds.nodup).2.2 hown hfd
  have hall := h.holds.freeAll
  rw [List.append_assoc] at hall
  exact ⟨hkept,hall.of_handed hkept⟩

/-! ### The release -/

/-- The sockets and files of the old cycle that are closed. -/
def Reload.gone (s : Reload A) : List ℤ :=
  (s.old.listening.filter Listening.unneeded).map (·.fd) ++ (s.old.openFiles.filter OpenFile.ours).map (·.fd)

theorem release_descriptors (env : Env A) (s : Reload A) :
    (release env s).descriptors = s.descriptors ++ s.gone.map freed := by
  simp [release,closeListening,closeFiles,freeZones,Reload.gone,List.append_assoc,Function.comp_def]

/-- The entries after the loops have the sockets of those before. -/
theorem Inherited.map_fd {ls ls' ns : List (Listening A)} (h : Inherited (ls.map Listening.unmark) ls' ns) :
    ls'.map (·.fd) = ls.map (·.fd) := by
  refine List.ext_getElem? fun i => ?_
  rw [List.getElem?_map,List.getElem?_map]
  cases hi : ls'[i]? with
  | none =>
    have hlength := h.length
    rw [List.length_map] at hlength
    rw [List.getElem?_eq_none (hlength ▸ List.getElem?_eq_none_iff.mp hi)]
  | some l' =>
    obtain ⟨l,hl,hfd⟩ := h.same i l' hi
    rw [List.getElem?_map,Option.map_eq_some_iff] at hl
    obtain ⟨l,hl,rfl⟩ := hl
    rw [hl]
    exact congrArg some hfd

theorem filter_valid_map (ls : List (Listening A)) : (ls.filter fun l => l.fd != invalidFile).map (·.fd) =
    (ls.map (·.fd)).filter (· != invalidFile) := by
  rw [List.filter_map]
  rfl

theorem Passed.gone_sublist (h : Passed env H old s) : s.gone.Sublist old.fds := by
  obtain ⟨ns,hns,-⟩ := h.inherited
  unfold Reload.gone NgxCycle.fds
  rw [h.oldFiles,filter_valid_map,← hns.map_fd,← filter_valid_map]
  refine List.Sublist.append_right (List.Sublist.map _ ?_) _
  refine List.monotone_filter_right _ fun l hl => ?_
  simp only [Listening.unneeded,Bool.and_eq_true] at hl
  exact hl.2

/-- How often a descriptor of the old cycle is closed. -/
theorem Passed.count_freed (htable : Table H old) (h : Passed env H old s) {fd : ℤ} (hfd : fd ∈ H) :
    (release env s).descriptors.count (freed fd) = if fd ∈ s.gone then 1 else 0 := by
  rw [release_descriptors,List.count_append,List.count_eq_zero_of_not_mem (h.clean.kept fd hfd),zero_add,
    List.count_map_of_injective s.gone freed fun _ _ h => by cases h; rfl]
  exact (h.gone_sublist.nodup htable.nodup_fds).count

/-- An old socket is closed unless a new entry has it. -/
theorem Passed.mem_gone (henv : env.Honest H) (htable : Table H old) (h : Passed env H old s) {l : Listening A}
    (hl : l ∈ old.listening) (hvalid : l.fd ≠ invalidFile) :
    l.fd ∈ s.gone ↔ ¬∃ n ∈ s.cycle.listening, n.fd = l.fd := by
  have hinherits := h.inherits henv htable
  obtain ⟨ns,hns,heq⟩ := h.inherited
  obtain ⟨i,hi⟩ := List.mem_iff_getElem?.mp hl
  have hlt : i < s.old.listening.length := by
    rw [hns.length,List.length_map]
    exact (List.getElem?_eq_some_iff.mp hi).1
  have hi' : s.old.listening[i]? = some s.old.listening[i] := List.getElem?_eq_getElem hlt
  have hsame : ∀ (j : ℕ) l', s.old.listening[j]? = some l' → l'.fd = l.fd → j = i := by
    intro j l' hj hfd
    obtain ⟨l₁,hl₁,hfd₁⟩ := hns.same j l' hj
    rw [List.getElem?_map,Option.map_eq_some_iff] at hl₁
    obtain ⟨l₁,hl₁,rfl⟩ := hl₁
    exact (htable.distinct.eq hi hl₁ hvalid (hfd.symm.trans hfd₁)).symm
  have hfd : s.old.listening[i].fd = l.fd := by
    obtain ⟨l₁,hl₁,hfd₁⟩ := hns.same i _ hi'
    rw [List.getElem?_map,hi] at hl₁
    cases hl₁
    exact hfd₁
  -- the mark of the entry
  have hremain : s.old.listening[i].remain = true ↔ ∃ n ∈ s.cycle.listening, n.fd = l.fd := by
    rw [hns.remain i _ hi']
    have hunmarked : ¬∃ l₁, (old.listening.map Listening.unmark)[i]? = some l₁ ∧ l₁.remain = true := by
      rintro ⟨l₁,hl₁,hmark⟩
      rw [List.getElem?_map,hi] at hl₁
      cases hl₁
      cases hmark
    rw [or_iff_right hunmarked]
    constructor
    · rintro ⟨n,hn,hprevious⟩
      obtain ⟨k,hk,rfl⟩ := List.mem_iff_getElem.mp hn
      have hmem : Listening.openWith (env.socket k) ns[k] ∈ s.cycle.listening := by
        rw [heq]
        exact List.mem_mapIdx.mpr ⟨k,hk,rfl⟩
      refine ⟨_,hmem,(hinherits.previous _ hmem i l hi hvalid).mp ?_⟩
      rwa [openWith_previous]
    · rintro ⟨n,hn,hnfd⟩
      have hprevious := (hinherits.previous n hn i l hi hvalid).mpr hnfd
      rw [heq] at hn
      obtain ⟨k,hk,rfl⟩ := List.mem_mapIdx.mp hn
      rw [openWith_previous] at hprevious
      exact ⟨ns[k],List.getElem_mem hk,hprevious⟩
  have hfiles : l.fd ∉ (s.old.openFiles.filter OpenFile.ours).map (·.fd) := by
    rw [h.oldFiles]
    exact (List.nodup_append'.mp htable.nodup_fds).2.2 (List.mem_map_of_mem (List.mem_filter.mpr ⟨hl,by simpa using hvalid⟩))
  rw [← hremain,Reload.gone,List.mem_append,or_iff_left hfiles]
  constructor
  · intro hmem hmark
    obtain ⟨l',hl',hfd'⟩ := List.mem_map.mp hmem
    obtain ⟨hl',hunneeded⟩ := List.mem_filter.mp hl'
    obtain ⟨j,hj⟩ := List.mem_iff_getElem?.mp hl'
    obtain rfl := hsame j l' hj hfd'
    rw [hi'] at hj
    cases hj
    simp [Listening.unneeded,hmark] at hunneeded
  · intro hmark
    refine List.mem_map.mpr ⟨s.old.listening[i],List.mem_filter.mpr ⟨List.getElem_mem hlt,?_⟩,hfd⟩
    simp [Listening.unneeded,hfd,hvalid,hmark]

/-! ### Conservation -/

/-- What a reload does to descriptors, by its outcome. -/
def Conserved (env : Env A) (old : NgxCycle A) : Outcome A → Prop
  | .done s => Inherits old.listening s.cycle.listening ∧
      (∀ l ∈ old.listening, l.fd ≠ invalidFile →
        ((∃ n ∈ s.cycle.listening, n.fd = l.fd) → s.descriptors.count (freed l.fd) = 0) ∧
        ((¬∃ n ∈ s.cycle.listening, n.fd = l.fd) → s.descriptors.count (freed l.fd) = 1)) ∧
      ∀ file ∈ old.openFiles, file.ours = true → s.descriptors.count (freed file.fd) = 1
  | .failed s => Inherits old.listening s.cycle.listening ∧
      (env.testConfig = false → (∀ fd ∈ old.fds, freed fd ∉ s.descriptors) ∧ Holds s.descriptors [])
  | .exited s => Inherits old.listening s.cycle.listening

theorem rollback_cycle (env : Env A) (s : Reload A) : (rollback env s).cycle = s.cycle := by
  unfold rollback
  dsimp only
  split_ifs <;> rfl

theorem Passed.conserved (henv : env.Honest H) (htable : Table H old) (h : Passed env H old s) :
    Conserved env old (.done (release env s)) := by
  have hinherits : Inherits old.listening s.cycle.listening := h.inherits henv htable
  refine ⟨hinherits,fun l hl hvalid => ?_,fun file hfile hours => ?_⟩
  · have hgone := h.mem_gone henv htable hl hvalid
    rw [h.count_freed htable (htable.mem_listening hl hvalid)]
    exact ⟨fun hinherited => if_neg fun hmem => hgone.mp hmem hinherited,fun hnot => if_pos (hgone.mpr hnot)⟩
  · have hmem : file.fd ∈ (s.old.openFiles.filter OpenFile.ours).map (·.fd) := by
      rw [h.oldFiles]
      exact List.mem_map_of_mem (List.mem_filter.mpr ⟨hfile,hours⟩)
    have hgone : file.fd ∈ s.gone := List.mem_append_right _ hmem
    rw [h.count_freed htable (htable.old.subset (h.gone_sublist.subset hgone)),if_pos hgone]

/-- The call opens the new pid file, fails, and leaves it open. -/
theorem initCycle_leaks (hcycle : cycle.Unopened) (h : PidLeaks env old cycle) :
    ∃ s, initCycle env old cycle = .failed s ∧ s.descriptors = [handed env.pidOpen] := by
  obtain ⟨htest,hinit,hnew,hprocess,hopen,hwrite⟩ := h
  have hwritePid : writePid env (start old cycle) = .error ((start old cycle).opens env.pidOpen) := by
    unfold writePid createPidfile andThen
    simp [htest,hinit,hnew,hopen,hwrite,start,Nat.not_lt.mpr hprocess]
  have hprepare : prepare env (start old cycle) = .error ((start old cycle).opens env.pidOpen) := by
    unfold prepare early
    rw [andThen,andThen,hwritePid]
  refine ⟨rollback env ((start old cycle).opens env.pidOpen),?_,?_⟩
  · unfold initCycle
    rw [show (⟨old,cycle,[],[],[]⟩ : Reload A) = start old cycle from rfl,hprepare]
  · rw [rollback_descriptors htest,show ((start old cycle).opens env.pidOpen).cycle.own = [] from hcycle.own]
    rfl

/-- A reload conserves descriptors unless the write of a new pid file fails. -/
theorem descriptors_conserved (henv : env.Honest H) (htable : Table H old) (hcycle : cycle.Unopened) :
    Conserved env old (initCycle env old cycle) ↔ ¬PidLeaks env old cycle := by
  constructor
  · intro hall hleak
    obtain ⟨s,hs,hdescriptors⟩ := initCycle_leaks hcycle hleak
    rw [hs] at hall
    have hcount := (hall.2 hleak.1).2.count env.pidOpen
    simp [hdescriptors] at hcount
  · intro hleak
    have hspec := prepare_passed henv htable hcycle hleak (start old cycle) rfl
    unfold initCycle
    split
    · rename_i s hs
      obtain ⟨hclean,hinherits⟩ := hspec.2 s hs
      refine ⟨by rwa [rollback_cycle],fun htest => ?_⟩
      obtain ⟨hkept,hholds⟩ := hclean.rollback htest
      exact ⟨fun fd hfd => hkept fd (htable.old.subset hfd),hholds⟩
    · rename_i s hs
      have hpassed := hspec.1 s hs
      split_ifs
      · exact hpassed.conserved henv htable
      · exact hpassed.inherits henv htable

/-- `plainEnv` where no two calls return the same descriptor. -/
def honestEnv : Env Unit := { plainEnv with fileOpen := fun i => 30 + 2 * i, socket := fun i => 31 + 2 * i }

theorem honestEnv_honest : honestEnv.Honest [2,5,6,7] where
  pid := by decide
  lock := by decide
  file i := by simp [honestEnv]; omega
  socket i := by simp [honestEnv]; omega
  files i j _ h := by simp only [honestEnv] at h; omega
  sockets i j _ h := by simp only [honestEnv] at h; omega
  apart i j _ := by simp only [honestEnv]; omega
  log files h := by cases h; simp

/-- A cycle with sockets and one file. -/
def socketCycle (pid : Str) (sockets : List ℤ) (file : ℤ) : NgxCycle Unit where
  isInit := false
  pid := pid
  oldpid := [111]
  lockFile := [108]
  openFiles := [⟨[102],file⟩]
  sharedMemory := []
  listening := sockets.map fun fd => ⟨(),0,fd,0,false,false,none,false,false,false,false,false,false,false,none⟩

theorem socketCycle_table : Table [2,5,6,7] (socketCycle [112] [5,6] 7) :=
  ⟨by decide,by decide,by decide,(List.sublist_cons_self 2 [5,6,7]).subperm⟩

theorem socketCycle_unopened (pid : Str) : (socketCycle pid [-1] (-1)).Unopened := by
  refine ⟨?_,?_⟩
  · simp [socketCycle,OpenFile.Unopened,OpenFile.ours,invalidFile]
  · simp [socketCycle,Listening.Unopened,invalidFile]

/-- Two old sockets and one new entry. -/
theorem descriptors_conserved_two : Conserved honestEnv (socketCycle [112] [5,6] 7)
    (initCycle honestEnv (socketCycle [112] [5,6] 7) (socketCycle [112] [-1] (-1))) := by
  refine (descriptors_conserved honestEnv_honest socketCycle_table (socketCycle_unopened [112])).mpr ?_
  rintro ⟨-,-,hnew,-⟩
  exact absurd hnew (by decide)

/-- The new pid file is opened, and its write fails. -/
theorem pid_file_leaks : ¬ ∀ (env : Env Unit) (H : List ℤ) (old cycle : NgxCycle Unit), env.Honest H → Table H old →
    cycle.Unopened → Conserved env old (initCycle env old cycle) := by
  intro hall
  have henv : Env.Honest { honestEnv with pidWrite := false } [2,5,6,7] := { honestEnv_honest with }
  have hleak : PidLeaks { honestEnv with pidWrite := false } (socketCycle [112] [5,6] 7) (socketCycle [113] [-1] (-1)) :=
    ⟨rfl,rfl,by decide,by decide,by decide,rfl⟩
  obtain ⟨s,hs,hdescriptors⟩ := initCycle_leaks (socketCycle_unopened [113]) hleak
  have hone := hall _ _ _ _ henv socketCycle_table (socketCycle_unopened [113])
  rw [hs] at hone
  have hcount := (hone.2 rfl).2.count 20
  rw [hdescriptors] at hcount
  exact absurd hcount (by decide)

end InsideNginx.Cycle
