import InsideNginx.Cycle.Zones

/-! What a failed reload leaves behind of shared memory and of the pid file. -/
namespace InsideNginx.Cycle
open Transfer Attempt

variable {A : Type} {env : Env A} {old cycle : NgxCycle A}

/-! ### Conditions on the input -/

/-- `ngx_create_pidfile` succeeds. -/
def PidCreated (env : Env A) : Prop :=
  processMaster < env.process ∨ env.pidOpen ≠ invalidFile ∧ env.pidWrite = true

/-- The pid file causes no failure. -/
def PidDone (env : Env A) (old cycle : NgxCycle A) : Prop := cycle.newPid old = false ∨ PidCreated env

/-- The file that `ngx_delete_pidfile` deletes. -/
def pidToDelete (env : Env A) (old : NgxCycle A) : Str := path (if env.newBinary then old.oldpid else old.pid)

/-- The old pid file is deleted for a new one. -/
def PidReplaced (env : Env A) (old cycle : NgxCycle A) : Prop :=
  cycle.newPid old = true ∧ PidCreated env ∧ env.deleteFile (pidToDelete env old) = true ∧
    pidToDelete env old = path old.pid

/-- The old pid file is deleted for a new one, or since it is the lock file too. -/
def PidLost (env : Env A) (old cycle : NgxCycle A) : Prop :=
  PidReplaced env old cycle ∨ (PidDone env old cycle ∧ env.atomicOps = false ∧ env.lockOpen ≠ invalidFile ∧
    env.deleteFile (path cycle.lockFile) = true ∧ path cycle.lockFile = path old.pid)

/-- The lock file causes no failure. -/
def LockDone (env : Env A) : Prop := env.atomicOps = true ∨ env.lockOpen ≠ invalidFile

/-- Every file with a name is opened. -/
def FilesOpen (env : Env A) (files : List OpenFile) : Prop :=
  ∀ (i : ℕ) file, files[i]? = some file → file.name ≠ [] → env.fileOpen i ≠ invalidFile ∧ env.fcntl i = true

/-- The call reaches the zones. -/
def ReachesZones (env : Env A) (old cycle : NgxCycle A) : Prop :=
  PidDone env old cycle ∧ LockDone env ∧ env.createPaths = true ∧
    ∃ files, env.logOpenDefault = some files ∧ FilesOpen env (cycle.openFiles ++ files)

/-- Zone `i` gets the segment of an old one, and its `init` succeeds. -/
def Reuses (env : Env A) (olds : List ShmZone) (i : ℕ) (zone : ShmZone) : Prop :=
  zone.size ≠ 0 ∧ ∃ o, reusedZone olds zone = some o ∧ (env.zoneInit i { zone with addr := o.addr } o.data).isSome = true

/-- Zone `i` gets a segment from `ngx_shm_alloc`. -/
def Allocates (env : Env A) (olds : List ShmZone) (i : ℕ) (zone : ShmZone) : Prop :=
  zone.size ≠ 0 ∧ reusedZone olds zone = none ∧ (env.shmAlloc i).isSome = true

/-- One of the first `k` zones gets a segment from `ngx_shm_alloc`, and those before it reuse old ones. -/
def ObtainsBy (env : Env A) (olds zones : List ShmZone) (k : ℕ) : Prop :=
  ∃ (i : ℕ) (z : ShmZone), i < k ∧ zones[i]? = some z ∧ Allocates env olds i z ∧
    ∀ j < i, ∀ w, zones[j]? = some w → Reuses env olds j w

/-- The call gets a segment from `ngx_shm_alloc`. -/
def Obtains (env : Env A) (old cycle : NgxCycle A) : Prop :=
  ReachesZones env old cycle ∧ ObtainsBy env old.sharedMemory cycle.sharedMemory cycle.sharedMemory.length

/-! ### Deleted files -/

/-- The start of a call. -/
def start (old cycle : NgxCycle A) : Reload A := ⟨old,cycle,[],[],[]⟩

/-- What the stages before the files look at. -/
def Reload.core (s : Reload A) : NgxCycle A × NgxCycle A := (s.old,s.cycle)

theorem mem_deleteFile {name : Str} {s : Reload A} {p : Str} :
    p ∈ (deleteFile env name s).deleted ↔ p ∈ s.deleted ∨ env.deleteFile (path name) = true ∧ path name = p := by
  unfold deleteFile
  split
  · simp [*,eq_comm]
  · simp [*]

theorem deleteFile_core (name : Str) (s : Reload A) : (deleteFile env name s).core = s.core := by
  unfold deleteFile
  split <;> rfl

theorem createPidfile_core (env : Env A) : Keeps (createPidfile env) fun s => (s.core,s.deleted) := by
  intro s
  unfold createPidfile
  split_ifs <;> rfl

section
variable (htest : env.testConfig = false) (hinit : old.isInit = false)

include htest in
theorem createPidfile_created (P : Reload A → Prop) :
    Triple P (createPidfile env) (fun _ => PidCreated env) (fun _ => ¬PidCreated env) := by
  intro s _
  unfold createPidfile PidCreated
  split_ifs with hprocess hopen hwrite
  · exact ⟨fun _ _ => .inl hprocess,by simp⟩
  · exact ⟨by simp,fun _ _ => by simp [hprocess,hopen]⟩
  · refine ⟨by simp,fun _ _ => ?_⟩
    simp only [htest,Bool.not_false,Bool.true_and,Bool.not_eq_true'] at hwrite
    simp [hprocess,hwrite]
  · refine ⟨fun _ _ => .inr ⟨hopen,?_⟩,by simp⟩
    simpa [htest] using hwrite

include htest hinit in
theorem writePid_spec (cycle : NgxCycle A) : Triple (fun s => s.core = (old,cycle) ∧ s.deleted = []) (writePid env)
    (fun s => s.core = (old,cycle) ∧ PidDone env old cycle ∧ (path old.pid ∈ s.deleted ↔ PidReplaced env old cycle))
    (fun s => ¬PidDone env old cycle ∧ s.deleted = []) := by
  intro s ⟨hcore,hdeleted⟩
  obtain ⟨hold,hcycle⟩ := Prod.mk.inj hcore
  unfold writePid
  rw [htest,hold,hinit,hcycle]
  cases hnew : cycle.newPid old with
  | false =>
    refine ⟨fun s' hs' => ?_,by simp⟩
    cases hs'
    exact ⟨hcore,.inl hnew,by simp [hdeleted,PidReplaced,hnew]⟩
  | true =>
    have hcreate : Triple (fun s => s.core = (old,cycle) ∧ s.deleted = []) (createPidfile env)
        (fun s => (s.core = (old,cycle) ∧ s.deleted = []) ∧ PidCreated env)
        (fun s => ¬PidDone env old cycle ∧ s.deleted = []) := by
      intro s hs
      have hkeeps := (createPidfile_core env).triple ((old,cycle),[]) s (Prod.ext hs.1 hs.2)
      have hcreated := createPidfile_created htest (fun _ => True) s trivial
      refine ⟨fun s' hs' => ?_,fun s' hs' => ?_⟩
      · exact ⟨Prod.mk.inj (hkeeps.1 s' hs'),hcreated.1 s' hs'⟩
      · exact ⟨by simp [PidDone,hnew,hcreated.2 s' hs'],(Prod.mk.inj (hkeeps.2 s' hs')).2⟩
    have hdelete : ∀ s : Reload A, (s.core = (old,cycle) ∧ s.deleted = []) ∧ PidCreated env →
        (deletePidfile env s).core = (old,cycle) ∧ PidDone env old cycle ∧
          (path old.pid ∈ (deletePidfile env s).deleted ↔ PidReplaced env old cycle) := by
      rintro s ⟨⟨hcore,hdeleted⟩,hcreated⟩
      have hold : s.old = old := (Prod.mk.inj hcore).1
      unfold deletePidfile
      rw [deleteFile_core,mem_deleteFile,hdeleted,hold]
      exact ⟨hcore,.inr hcreated,by simp [PidReplaced,hnew,hcreated,pidToDelete]⟩
    exact (hcreate.andThen (.always hdelete)) s ⟨hcore,hdeleted⟩

end

theorem testLockfile_spec (old cycle : NgxCycle A) : Triple
    (fun s => s.core = (old,cycle) ∧ PidDone env old cycle ∧ (path old.pid ∈ s.deleted ↔ PidReplaced env old cycle))
    (testLockfile env)
    (fun s => (s.core = (old,cycle) ∧ PidDone env old cycle ∧ LockDone env) ∧
      (path old.pid ∈ s.deleted ↔ PidLost env old cycle))
    (fun s => ¬LockDone env ∧ (path old.pid ∈ s.deleted ↔ PidLost env old cycle)) := by
  rintro s ⟨hcore,hdone,hdeleted⟩
  have hlost : PidLost env old cycle ↔ PidReplaced env old cycle ∨ (env.atomicOps = false ∧
      env.lockOpen ≠ invalidFile ∧ env.deleteFile (path cycle.lockFile) = true ∧ path cycle.lockFile = path old.pid) := by
    simp [PidLost,hdone]
  have hcycle : s.cycle = cycle := (Prod.mk.inj hcore).2
  unfold testLockfile LockDone
  split_ifs with hatomic hopen
  · refine ⟨fun s' hs' => ?_,by simp⟩
    cases hs'
    exact ⟨⟨hcore,hdone,.inl hatomic⟩,by simp [hdeleted,hlost,hatomic]⟩
  · refine ⟨by simp,fun s' hs' => ?_⟩
    cases hs'
    exact ⟨by simp [hatomic,hopen],by simp [hdeleted,hlost,hopen]⟩
  · refine ⟨fun s' hs' => ?_,by simp⟩
    cases hs'
    refine ⟨⟨?_,hdone,.inr hopen⟩,?_⟩
    · exact (deleteFile_core _ _).trans hcore
    · rw [mem_deleteFile,hlost,hcycle]
      simp [Reload.opens,Reload.closes,hdeleted,hatomic,hopen]

theorem openFiles_spec (env : Env A) (files : List OpenFile) :
    Triple (fun s => s.cycle.openFiles = files) (openFiles env) (fun _ => FilesOpen env files)
      (fun _ => ¬FilesOpen env files) := by
  -- the files from `k` on are as they were, and those before are open
  let I : ℕ → Reload A → Prop := fun k s => (∀ j, k ≤ j → s.cycle.openFiles[j]? = files[j]?) ∧
    ∀ j < k, ∀ file, files[j]? = some file → file.name ≠ [] → env.fileOpen j ≠ invalidFile ∧ env.fcntl j = true
  have hround : ∀ k, Triple (I k) (openFile env k) (I (k+1)) (fun _ => ¬FilesOpen env files) := by
    rintro k s ⟨hrest,hopen⟩
    have hadvance : (∀ file, files[k]? = some file → file.name ≠ [] → env.fileOpen k ≠ invalidFile ∧ env.fcntl k = true) →
        ∀ j < k + 1, ∀ file, files[j]? = some file → file.name ≠ [] → env.fileOpen j ≠ invalidFile ∧ env.fcntl j = true := by
      intro hk j hj
      rcases Nat.lt_succ_iff_lt_or_eq.mp hj with hj | rfl
      · exact hopen j hj
      · exact hk
    have hget : s.cycle.openFiles[k]? = files[k]? := hrest k le_rfl
    unfold openFile
    rw [hget]
    cases hfile : files[k]? with
    | none =>
      refine ⟨fun s' hs' => ?_,by simp⟩
      cases hs'
      exact ⟨fun j hj => hrest j (by omega),hadvance fun file h => by rw [hfile] at h; cases h⟩
    | some file =>
      dsimp only
      split_ifs with hname hinvalid hfcntl
      · refine ⟨fun s' hs' => ?_,by simp⟩
        cases hs'
        exact ⟨fun j hj => hrest j (by omega),hadvance fun file' h hne => by
          rw [hfile] at h
          cases h
          exact absurd hname hne⟩
      · exact ⟨by simp,fun _ _ hall => (hall k file hfile hname).1 hinvalid⟩
      · refine ⟨fun s' hs' => ?_,by simp⟩
        cases hs'
        exact ⟨fun j hj => (List.getElem?_set_ne (by omega)).trans (hrest j (by omega)),
          hadvance fun _ _ _ => ⟨hinvalid,hfcntl⟩⟩
      · exact ⟨by simp,fun _ _ hall => hfcntl (hall k file hfile hname).2⟩
  intro s hs
  have hloop := Triple.loop (f := openFile env) (I := I) (i := 0) (n := files.length) fun k _ _ => hround k
  rw [Nat.zero_add] at hloop
  unfold openFiles
  rw [hs]
  refine (hloop.weaken (fun s h => h) (fun s h => ?_) fun s h => h) s ⟨fun j _ => by rw [hs],by simp⟩
  intro j file hfile
  exact h.2 j (List.getElem?_eq_some_iff.mp hfile).1 file hfile

theorem openFiles_deleted (env : Env A) : Keeps (openFiles env) fun s => s.deleted := fun s =>
  Keeps.loop (f := openFile env) (v := fun s => s.deleted) (fun i s => by
    unfold openFile
    split
    · rfl
    · split_ifs <;> rfl) 0 _ s

/-- What the stages before the files leave: the core, and whether the old pid file is deleted. -/
def Reload.Ready (env : Env A) (old cycle : NgxCycle A) (s : Reload A) : Prop :=
  (s.core = (old,cycle) ∧ PidDone env old cycle ∧ LockDone env) ∧ (path old.pid ∈ s.deleted ↔ PidLost env old cycle)

/-- What stands before the zones decides whether they are reached. -/
theorem early_spec (htest : env.testConfig = false) (hinit : old.isInit = false) (cycle : NgxCycle A) :
    Triple (· = start old cycle) (early env)
      (fun s => ReachesZones env old cycle ∧ (path old.pid ∈ s.deleted ↔ PidLost env old cycle))
      (fun s => ¬ReachesZones env old cycle ∧ (path old.pid ∈ s.deleted ↔ PidLost env old cycle)) := by
  refine Triple.andThen ((writePid_spec htest hinit cycle).weaken ?_ (fun s hs => hs) ?_)
    (Triple.andThen ((testLockfile_spec old cycle).weaken (fun s hs => hs) (fun s hs => hs) ?_)
      (Triple.andThen (Q := fun s => s.Ready env old cycle ∧ env.createPaths = true) ?_
        (Triple.andThen (Q := fun s => (path old.pid ∈ s.deleted ↔ PidLost env old cycle) ∧ PidDone env old cycle ∧
          LockDone env ∧ env.createPaths = true ∧ ∃ files, env.logOpenDefault = some files ∧
            s.cycle.openFiles = cycle.openFiles ++ files) ?_ ?_)))
  · rintro s rfl
    exact ⟨rfl,rfl⟩
  · rintro s ⟨hdone,hdeleted⟩
    refine ⟨fun h => hdone h.1,?_⟩
    simp only [hdeleted,List.not_mem_nil,false_iff]
    rintro (⟨-,hcreated,-⟩ | ⟨hdone',-⟩)
    · exact hdone (.inr hcreated)
    · exact hdone hdone'
  · rintro s ⟨hlock,hdeleted⟩
    exact ⟨fun h => hlock h.2.1,hdeleted⟩
  · intro s hs
    unfold createPaths
    split_ifs with hpaths
    · refine ⟨fun s' hs' => ?_,by simp⟩
      cases hs'
      exact ⟨hs,hpaths⟩
    · refine ⟨by simp,fun s' hs' => ?_⟩
      cases hs'
      exact ⟨fun h => hpaths h.2.2.1,hs.2⟩
  · rintro s ⟨⟨⟨hcore,hdone,hlock⟩,hdeleted⟩,hpaths⟩
    have hcycle : s.cycle = cycle := (Prod.mk.inj hcore).2
    unfold logOpenDefault
    cases hlog : env.logOpenDefault with
    | none =>
      refine ⟨by simp,fun s' hs' => ?_⟩
      cases hs'
      refine ⟨?_,hdeleted⟩
      rintro ⟨-,-,-,files,hfiles,-⟩
      rw [hlog] at hfiles
      cases hfiles
    | some files =>
      refine ⟨fun s' hs' => ?_,by simp⟩
      cases hs'
      exact ⟨hdeleted,hdone,hlock,hpaths,files,rfl,by rw [hcycle]⟩
  · rintro s ⟨hdeleted,hdone,hlock,hpaths,files,hlog,hopen⟩
    have hspec := openFiles_spec env (cycle.openFiles ++ files) s hopen
    have hkeeps := (openFiles_deleted env).triple s.deleted s rfl
    refine ⟨fun s' hs' => ?_,fun s' hs' => ?_⟩
    · have hsame : s'.deleted = s.deleted := hkeeps.1 s' hs'
      exact ⟨⟨hdone,hlock,hpaths,files,hlog,hspec.1 s' hs'⟩,hsame ▸ hdeleted⟩
    · have hsame : s'.deleted = s.deleted := hkeeps.2 s' hs'
      refine ⟨?_,hsame ▸ hdeleted⟩
      rintro ⟨-,-,-,files',hfiles,hall⟩
      rw [hlog] at hfiles
      cases hfiles
      exact hspec.2 s' hs' hall

/-! ### Segments -/

variable {olds zones : List ShmZone} {k : ℕ}

theorem ObtainsBy.mono (h : ObtainsBy env olds zones k) {n : ℕ} (hkn : k ≤ n) : ObtainsBy env olds zones n := by
  obtain ⟨i,z,hi,hrest⟩ := h
  exact ⟨i,z,by omega,hrest⟩

theorem Reuses.not_allocates {i : ℕ} {z : ShmZone} (h : Reuses env olds i z) : ¬Allocates env olds i z := by
  rintro ⟨-,hnone,-⟩
  obtain ⟨-,o,ho,-⟩ := h
  rw [hnone] at ho
  cases ho

/-- No segment has been obtained so far, or one has. -/
def SoFar (env : Env A) (olds zones : List ShmZone) (k : ℕ) (s : Reload A) : Prop :=
  (s.segments = [] ∧ ∀ j < k, ∀ w, zones[j]? = some w → Reuses env olds j w) ∨
  (ObtainsBy env olds zones k ∧ ∃ a, handed a ∈ s.segments)

/-- Whether segments are on record is decided by the input. -/
def Decided (env : Env A) (olds zones : List ShmZone) (s : Reload A) : Prop :=
  (s.segments = [] ∧ ¬ObtainsBy env olds zones zones.length) ∨
  (ObtainsBy env olds zones zones.length ∧ ∃ a, handed a ∈ s.segments)

theorem createZone_handed (env : Env A) (i : ℕ) (s : Reload A) {a : ℕ} (ha : handed a ∈ s.segments) :
    handed a ∈ (ends (createZone env i s)).segments := by
  unfold createZone initZone
  split
  · exact ha
  split_ifs
  · exact ha
  split
  · split <;> exact ha
  split
  · exact ha
  dsimp only
  split_ifs
  · split <;> exact List.mem_append_left _ ha
  · exact List.mem_append_left _ ha

theorem createZone_soFar (hk : k < zones.length) :
    Triple (fun s => MadeUpTo env olds zones k s ∧ SoFar env olds zones k s) (createZone env k)
      (SoFar env olds zones (k+1)) (Decided env olds zones) := by
  rintro s ⟨hmade,hsofar⟩
  obtain ⟨z,hz⟩ : ∃ z, zones[k]? = some z := ⟨_,List.getElem?_eq_getElem hk⟩
  have hget : s.cycle.sharedMemory[k]? = some z := (hmade.rest k le_rfl).trans hz
  rcases hsofar with ⟨hnone,hreuse⟩ | ⟨hobtained,a,ha⟩
  · -- the zone is the first that may obtain a segment
    have hnot : ¬Reuses env olds k z → ¬Allocates env olds k z → ¬ObtainsBy env olds zones zones.length := by
      rintro hnoreuse hnoalloc ⟨i,w,hi,hw,halloc,hbefore⟩
      rcases Nat.lt_trichotomy i k with hlt | rfl | hlt
      · exact (hreuse i hlt w hw).not_allocates halloc
      · rw [hz] at hw
        cases hw
        exact hnoalloc halloc
      · exact hnoreuse (hbefore k hlt z hz)
    have hobtains : Allocates env olds k z → ObtainsBy env olds zones (k+1) := fun halloc =>
      ⟨k,z,Nat.lt_succ_self k,hz,halloc,hreuse⟩
    have hreuses : Reuses env olds k z → ∀ j < k + 1, ∀ w, zones[j]? = some w → Reuses env olds j w := by
      intro hk' j hj w hw
      rcases Nat.lt_succ_iff_lt_or_eq.mp hj with hj | rfl
      · exact hreuse j hj w hw
      · rw [hz] at hw
        cases hw
        exact hk'
    unfold createZone
    simp only [hget,hmade.old]
    split_ifs with hsize
    · refine ⟨by simp,fun s' hs' => ?_⟩
      cases hs'
      exact .inl ⟨hnone,hnot (fun h => h.1 hsize) fun h => h.1 hsize⟩
    cases hreused : reusedZone olds z with
    | some o =>
      dsimp only
      unfold initZone
      cases hinit : env.zoneInit k { z with addr := o.addr } o.data with
      | none =>
        refine ⟨by simp,fun s' hs' => ?_⟩
        cases hs'
        refine .inl ⟨hnone,hnot ?_ ?_⟩
        · rintro ⟨-,o',ho',hsome⟩
          rw [hreused] at ho'
          cases ho'
          rw [hinit] at hsome
          cases hsome
        · rintro ⟨-,hnone,-⟩
          rw [hreused] at hnone
          cases hnone
      | some data =>
        refine ⟨fun s' hs' => ?_,by simp⟩
        cases hs'
        exact .inl ⟨hnone,hreuses ⟨hsize,o,hreused,by rw [hinit]; rfl⟩⟩
    | none =>
      cases halloc : env.shmAlloc k with
      | none =>
        refine ⟨by simp,fun s' hs' => ?_⟩
        cases hs'
        refine .inl ⟨hnone,hnot ?_ ?_⟩
        · rintro ⟨-,o,ho,-⟩
          rw [hreused] at ho
          cases ho
        · rintro ⟨-,-,hsome⟩
          rw [halloc] at hsome
          cases hsome
      | some a =>
        obtain ⟨addr,existing⟩ := a
        have hby := hobtains ⟨hsize,hreused,by rw [halloc]; rfl⟩
        have hhanded : handed addr ∈ s.segments ++ [handed addr] := List.mem_append_right _ List.mem_cons_self
        dsimp only
        unfold initZone
        split_ifs
        · split
          · exact ⟨by simp,fun s' hs' => by cases hs'; exact .inr ⟨hby.mono hk,addr,hhanded⟩⟩
          · exact ⟨fun s' hs' => by cases hs'; exact .inr ⟨hby,addr,hhanded⟩,by simp⟩
        · exact ⟨by simp,fun s' hs' => by cases hs'; exact .inr ⟨hby.mono hk,addr,hhanded⟩⟩
  · have hkept := createZone_handed env k s ha
    refine ⟨fun s' hs' => .inr ⟨hobtained.mono (Nat.le_succ k),a,?_⟩,fun s' hs' => .inr ⟨hobtained.mono hk.le,a,?_⟩⟩
    · rwa [hs'] at hkept
    · rwa [hs'] at hkept

theorem createZones_decided : Triple (fun s => MadeUpTo env olds zones 0 s ∧ s.segments = []) (createZones env)
    (Decided env olds zones) (Decided env olds zones) := by
  rintro s ⟨hs,hsegments⟩
  have hloop := Triple.loop (f := createZone env)
    (I := fun k s => MadeUpTo env olds zones k s ∧ SoFar env olds zones k s)
    (E := Decided env olds zones) (i := 0) (n := zones.length) fun k _ hk =>
      (((createZone_made (by omega)).and (createZone_soFar (by omega))).weaken (fun s hs => ⟨hs.1,hs⟩) (fun s hs => hs)
        fun s hs => hs.2)
  rw [Nat.zero_add] at hloop
  unfold createZones
  rw [hs.length]
  refine (hloop.weaken (fun s h => h) (fun s h => ?_) fun s h => h) s ⟨hs,.inl ⟨hsegments,by simp⟩⟩
  refine h.2.imp_left (And.imp_right fun hreuse => ?_)
  rintro ⟨i,z,hi,hz,halloc,-⟩
  exact (hreuse i hi z hz).not_allocates halloc

theorem createZone_deleted (env : Env A) (i : ℕ) : Keeps (createZone env i) fun s => s.deleted := by
  intro s
  unfold createZone initZone
  split
  · rfl
  split_ifs
  · rfl
  split
  · split <;> rfl
  split
  · rfl
  dsimp only
  split_ifs
  · split <;> rfl
  · rfl

theorem createZones_deleted (env : Env A) : Keeps (createZones env) fun s => s.deleted :=
  fun s => Keeps.loop (createZone_deleted env) 0 _ s

theorem late_keeps (env : Env A) : Keeps ((Attempt.always (handleListening env)).andThen (openListeningSockets env))
    fun s => (s.segments,s.deleted) := by
  refine Keeps.andThen (Keeps.always fun s => ?_) fun s => ?_
  · unfold handleListening
    split <;> rfl
  · unfold openListeningSockets
    dsimp only
    split <;> rfl

/-- What the preparation puts on record of segments and deleted files is decided by the input. -/
def Recorded (env : Env A) (old cycle : NgxCycle A) (s : Reload A) : Prop :=
  ((s.segments = [] ∧ ¬Obtains env old cycle) ∨ (Obtains env old cycle ∧ ∃ a, handed a ∈ s.segments)) ∧
    (path old.pid ∈ s.deleted ↔ PidLost env old cycle)

theorem prepare_recorded (htest : env.testConfig = false) (hinit : old.isInit = false) (cycle : NgxCycle A) :
    Triple (· = start old cycle) (prepare env) (Recorded env old cycle) (Recorded env old cycle) := by
  have haside : Triple (· = start old cycle) (early env)
      (fun s => s.aside = (old,cycle.sharedMemory,cycle.listening,[]))
      (fun s => s.aside = (old,cycle.sharedMemory,cycle.listening,[])) :=
    (early_keeps.triple (old,cycle.sharedMemory,cycle.listening,[])).weaken (by rintro s rfl; rfl) (fun _ h => h) fun _ h => h
  have hearly := haside.and (early_spec htest hinit cycle)
  have hlate : Triple (Recorded env old cycle)
      ((Attempt.always (handleListening env)).andThen (openListeningSockets env)) (Recorded env old cycle)
      (Recorded env old cycle) := by
    intro s hs
    have hrecorded : ∀ s' : Reload A, (s'.segments,s'.deleted) = (s.segments,s.deleted) → Recorded env old cycle s' := by
      intro s' heq
      obtain ⟨hsegments,hdeleted⟩ := Prod.mk.inj heq
      unfold Recorded
      rwa [hsegments,hdeleted]
    obtain ⟨hok,herror⟩ := (late_keeps env).triple (s.segments,s.deleted) s rfl
    exact ⟨fun s' hs' => hrecorded s' (hok s' hs'),fun s' hs' => hrecorded s' (herror s' hs')⟩
  refine Triple.andThen (hearly.weaken (fun s hs => ⟨hs,hs⟩) (fun s hs => hs) ?_) (Triple.andThen ?_ hlate)
  · rintro s ⟨haside,hreaches,hdeleted⟩
    have hsegments : s.segments = [] := congrArg (·.2.2.2) haside
    exact ⟨.inl ⟨hsegments,fun h => hreaches h.1⟩,hdeleted⟩
  · rintro s ⟨haside,hreaches,hdeleted⟩
    have hmade : MadeUpTo env old.sharedMemory cycle.sharedMemory 0 s := madeUpTo_zero haside
    have hzones := createZones_decided s ⟨hmade,congrArg (·.2.2.2) haside⟩
    have hkeeps := (createZones_deleted env).triple s.deleted s rfl
    have hdecided : ∀ s' : Reload A, s'.deleted = s.deleted →
        Decided env old.sharedMemory cycle.sharedMemory s' → Recorded env old cycle s' := by
      intro s' hsame hdecided
      refine ⟨hdecided.imp (And.imp_right fun hnot h => hnot h.2) (And.imp_left fun hby => ⟨hreaches,hby⟩),?_⟩
      rwa [hsame]
    exact ⟨fun s' hs' => hdecided s' (hkeeps.1 s' hs') (hzones.1 s' hs'),
      fun s' hs' => hdecided s' (hkeeps.2 s' hs') (hzones.2 s' hs')⟩

theorem initCycle_failed {s : Reload A} (h : initCycle env old cycle = .failed s) :
    ∃ t, prepare env ⟨old,cycle,[],[],[]⟩ = .error t ∧ s = rollback env t := by
  unfold initCycle at h
  split at h
  · rename_i t ht
    cases h
    exact ⟨t,ht,rfl⟩
  · split at h <;> cases h

theorem rollback_record (env : Env A) (s : Reload A) :
    (rollback env s).segments = s.segments ∧ (rollback env s).deleted = s.deleted := by
  unfold rollback
  dsimp only
  split <;> exact ⟨rfl,rfl⟩

/-- A failed reload leaves no segment and the old pid file when it has obtained none and not lost the other. -/
theorem failed_traceless {s : Reload A} (htest : env.testConfig = false) (hinit : old.isInit = false)
    (h : initCycle env old cycle = .failed s) :
    ((∀ a, handed a ∈ s.segments → freed a ∈ s.segments) ∧ (∀ o ∈ old.sharedMemory, freed o.addr ∉ s.segments) ∧
      path old.pid ∉ s.deleted) ↔ ¬Obtains env old cycle ∧ ¬PidLost env old cycle := by
  obtain ⟨t,ht,rfl⟩ := initCycle_failed h
  obtain ⟨hsegments,hdeleted⟩ := rollback_record env t
  have hkept := (prepare_made env old cycle _ rfl).2 t ht
  obtain ⟨hrecord,hpid⟩ := (prepare_recorded htest hinit cycle _ rfl).2 t ht
  rw [hsegments,hdeleted,hpid]
  rcases hrecord with ⟨hnone,hobtains⟩ | ⟨hobtains,a,ha⟩
  · simp [hnone,hobtains]
  · refine ⟨fun hall => absurd (hall.1 a ha) (hkept a),fun hall => absurd hobtains hall.1⟩

/-- The sockets cannot be opened. The zone had its old segment again, and nothing is left. -/
theorem failed_traceless_reused : ∃ s : Reload Unit,
    initCycle { plainEnv with openSockets := false } (zoneCycle [⟨[97],1,10,false,5000,false,none⟩])
      (zoneCycle [⟨[97],1,10,false,0,false,none⟩]) = .failed s ∧
    (∀ a, handed a ∈ s.segments → freed a ∈ s.segments) ∧ freed 5000 ∉ s.segments ∧ [112] ∉ s.deleted := by
  obtain ⟨s,hs⟩ : ∃ s : Reload Unit,
      initCycle { plainEnv with openSockets := false } (zoneCycle [⟨[97],1,10,false,5000,false,none⟩])
        (zoneCycle [⟨[97],1,10,false,0,false,none⟩]) = .failed s := ⟨_,rfl⟩
  have hobtains : ¬Obtains { plainEnv with openSockets := false } (zoneCycle [⟨[97],1,10,false,5000,false,none⟩])
      (zoneCycle [⟨[97],1,10,false,0,false,none⟩]) := by
    rintro ⟨-,i,z,hi,hz,⟨-,hnone,-⟩,-⟩
    obtain rfl : i = 0 := Nat.lt_one_iff.mp hi
    cases hz
    exact absurd hnone (by decide)
  have hlost : ¬PidLost { plainEnv with openSockets := false } (zoneCycle [⟨[97],1,10,false,5000,false,none⟩])
      (zoneCycle [⟨[97],1,10,false,0,false,none⟩]) := by
    rintro (⟨hnew,-⟩ | ⟨-,hatomic,-⟩)
    · exact absurd hnew (by decide)
    · exact absurd hatomic (by decide)
  obtain ⟨hfreed,holds,hpid⟩ := (failed_traceless rfl rfl hs).mpr ⟨hobtains,hlost⟩
  exact ⟨s,hs,hfreed,holds ⟨[97],1,10,false,5000,false,none⟩ (by decide),hpid⟩

/-- The sockets cannot be opened, and the segment of the new zone stays allocated. -/
theorem failed_keeps_segment : ¬ ∀ (env : Env Unit) (old cycle : NgxCycle Unit) (s : Reload Unit),
    env.testConfig = false → old.isInit = false → initCycle env old cycle = .failed s →
    (∀ a, handed a ∈ s.segments → freed a ∈ s.segments) ∧ (∀ o ∈ old.sharedMemory, freed o.addr ∉ s.segments) ∧
      path old.pid ∉ s.deleted := by
  intro hall
  have hone := hall { plainEnv with openSockets := false } (zoneCycle []) (zoneCycle [⟨[97],1,10,false,0,false,none⟩])
    _ rfl rfl rfl
  exact absurd (hone.1 9000 (by decide)) (by decide)

end InsideNginx.Cycle
