import InsideNginx.Cycle.Handover
import InsideNginx.Cycle.Reopen

/-! `ngx_reopen_files` for the files of a cycle: which files are open in it, and what becomes of the
descriptors of the process. -/
namespace InsideNginx.Cycle
open Palloc InsideNginx.Lists PartChain Transfer Attempt

variable {A : Type}

/-- The files of a cycle that have names are open, and no others. -/
def NgxCycle.Live (c : NgxCycle A) : Prop := ∀ file ∈ c.openFiles, file.ours = true ↔ file.name ≠ []

instance (c : NgxCycle A) : Decidable c.Live :=
  inferInstanceAs (Decidable (∀ file ∈ c.openFiles, file.ours = true ↔ file.name ≠ []))

/-! ### After a reload -/

section
variable {env : Env A} {old cycle : NgxCycle A} {H : List ℤ} {k : ℕ} {s : Reload A}

/-- Of the files up to `k` those with names are open. -/
def NamedUpTo (k : ℕ) (s : Reload A) : Prop :=
  ∀ (i : ℕ) file, s.cycle.openFiles[i]? = some file → (file.ours = true ↔ i < k ∧ file.name ≠ [])

theorem openFile_named (hstderr : ∀ i, env.fileOpen i ≠ stderr) (k : ℕ) :
    Triple (NamedUpTo k) (openFile env k) (NamedUpTo (k+1)) (fun _ => True) := by
  intro s hs
  refine ⟨fun s' hs' => ?_,fun _ _ => trivial⟩
  unfold openFile at hs'
  cases hfile : s.cycle.openFiles[k]? with
  | none =>
    rw [hfile] at hs'
    cases hs'
    intro i file hi
    have hlt : i < k := (List.getElem?_eq_some_iff.mp hi).1.trans_le (List.getElem?_eq_none_iff.mp hfile)
    rw [hs i file hi]
    exact and_congr_left fun _ => by omega
  | some file =>
    rw [hfile] at hs'
    dsimp only at hs'
    -- another file is as it was
    have hother : ∀ (i : ℕ) file', i ≠ k → s.cycle.openFiles[i]? = some file' →
        (file'.ours = true ↔ i < k + 1 ∧ file'.name ≠ []) := by
      intro i file' hik hi
      rw [hs i file' hi]
      exact and_congr_left fun _ => by omega
    split_ifs at hs' with hname hinvalid hfcntl
    · cases hs'
      intro i file' hi
      by_cases hik : i = k
      · subst hik
        rw [hfile] at hi
        cases hi
        rw [hs i file hfile]
        simp [hname]
      · exact hother i file' hik hi
    · cases hs'
      have hlt : k < s.cycle.openFiles.length := (List.getElem?_eq_some_iff.mp hfile).1
      intro i file' hi
      by_cases hik : i = k
      · subst hik
        have hself : (s.cycle.openFiles.set i { file with fd := env.fileOpen i })[i]? = some file' := hi
        rw [List.getElem?_set_self hlt] at hself
        cases hself
        simp [OpenFile.ours,hinvalid,hstderr i,hname]
      · have hrest : (s.cycle.openFiles.set k { file with fd := env.fileOpen k })[i]? = some file' := hi
        rw [List.getElem?_set_ne (Ne.symm hik)] at hrest
        exact hother i file' hik hrest

theorem openFiles_length : Keeps (openFiles env) fun s => s.cycle.openFiles.length := by
  have hround : ∀ k, Keeps (openFile env k) fun s => s.cycle.openFiles.length := by
    intro k s
    unfold openFile
    split
    · rfl
    · split_ifs <;> simp [Attempt.ends,Reload.setFile,Reload.opens]
  exact fun s => Keeps.loop hround 0 s.cycle.openFiles.length s

theorem openFiles_live (henv : env.Honest H) (hstderr : stderr ∈ H) :
    Triple (Fresh H) (openFiles env) (fun s => s.cycle.Live) (fun _ => True) := by
  intro s hs
  have hzero : NamedUpTo 0 s := by
    intro i file hi
    have hunopened : file.ours = false := hs.unopened.files file (List.mem_of_getElem? hi)
    simp [hunopened]
  have hloop := Triple.loop (f := openFile env) (I := NamedUpTo) (E := fun _ => True) (i := 0)
    (n := s.cycle.openFiles.length) fun k _ _ => openFile_named (fun i heq => henv.file i (heq ▸ hstderr)) k
  refine ⟨fun s' hs' file hfile => ?_,fun _ _ => trivial⟩
  have hlength := (openFiles_length.triple _ s rfl).1 s' hs'
  obtain ⟨i,hi⟩ := List.mem_iff_getElem?.mp hfile
  have hlt := (List.getElem?_eq_some_iff.mp hi).1
  rw [(hloop s hzero).1 s' hs' i file hi]
  exact and_iff_right (by omega)

theorem early_live (henv : env.Honest H) (hstderr : stderr ∈ H) (hleak : ¬PidLeaks env old cycle) :
    Triple (fun s => Fresh H s ∧ s.core = (old,cycle)) (early env) (fun s => s.cycle.Live) (fun _ => True) :=
  (writePid_fresh henv hleak).onSuccess.andThen ((testLockfile_fresh henv).onSuccess.andThen
    (createPaths_fresh.onSuccess.andThen ((logOpenDefault_fresh henv).onSuccess.andThen (openFiles_live henv hstderr))))

/-- What follows the opening of the files leaves them alone. -/
theorem late_files (env : Env A) : Keeps ((createZones env).andThen ((Attempt.always (handleListening env)).andThen
    (openListeningSockets env))) fun s => s.cycle.openFiles := by
  have hzones : Keeps (createZones env) fun s => s.cycle.openFiles := fun s =>
    congrArg (fun x : NgxCycle A × List OpenFile × _ => x.2.1) (createZones_tables env s)
  have hlistening : Keeps (Attempt.always (handleListening env)) fun s => s.cycle.openFiles := Keeps.always fun s => by
    unfold handleListening
    split <;> rfl
  have hopen : Keeps (openListeningSockets env) fun s => s.cycle.openFiles := by
    intro s
    unfold openListeningSockets
    dsimp only
    split <;> rfl
  exact hzones.andThen (hlistening.andThen hopen)

/-- A successful call leaves a cycle whose files are open. -/
theorem done_live (henv : env.Honest H) (htable : Table H old) (hcycle : cycle.Unopened) (hleak : ¬PidLeaks env old cycle)
    (h : initCycle env old cycle = .done s) : s.cycle.Live := by
  obtain ⟨t,ht,rfl⟩ := initCycle_done h
  have hstart : Fresh H (start old cycle) := by
    refine ⟨hcycle,?_,by simp [start]⟩
    have hown : (start old cycle).cycle.own = [] := hcycle.own
    rw [hown]
    simpa [start] using Holds.of_nodup htable.nodup
  have hrest : Triple (fun s : Reload A => s.cycle.Live)
      ((createZones env).andThen ((Attempt.always (handleListening env)).andThen (openListeningSockets env)))
      (fun s => s.cycle.Live) (fun _ => True) := by
    intro s hs
    have hkeeps := (late_files env).triple s.cycle.openFiles s rfl
    exact ⟨fun s' hs' file hfile => hs file (hkeeps.1 s' hs' ▸ hfile),fun _ _ => trivial⟩
  exact ((early_live henv htable.stderr hleak).andThen hrest (start old cycle) ⟨hstart,rfl⟩).1 t ht

end

/-! ### Reopening the files -/

/-- The entries of a cycle, told apart by their index. -/
def NgxCycle.flushed (c : NgxCycle A) (flush : ℕ → Bool) (a : ℕ) : FlushedFile :=
  ⟨c.openFiles.getD a ⟨[],invalidFile⟩,flush a⟩

/-- `ngx_reopen_files` for a cycle, when the descriptors of `table` are open. -/
def reopenCycle (env : ReopenEnv) (user : ℕ) (flush : ℕ → Bool) (c : NgxCycle A) (table : Finset ℤ) : Reopening :=
  (visitAll (fun a s => (reopenFile env user a s,(none : Option Empty))) (List.range c.openFiles.length)
    ⟨c.flushed flush,table,[],[]⟩).1

/-- The cycle after it. -/
def NgxCycle.renew (c : NgxCycle A) (s : Reopening) : NgxCycle A :=
  { c with openFiles := (List.range c.openFiles.length).map fun a => (s.files a).toOpenFile }

/-- The invariant of the loop: open are the descriptors of the files with names, and those of `G`. -/
structure Renewing (files : ℕ → FlushedFile) (slots : List ℕ) (G : List ℤ) (s : Reopening) : Prop where
  names : ∀ a, (s.files a).name = (files a).name
  log : Holds ((held files slots ++ G).map handed ++ s.calls) (held s.files slots ++ G)
  table : ∀ fd, fd ∈ s.table ↔ fd ∈ held s.files slots ++ G
  valid : invalidFile ∉ held s.files slots

variable {env : ReopenEnv} {user a : ℕ} {files : ℕ → FlushedFile} {slots : List ℕ} {G : List ℤ} {s s' : Reopening}

theorem Turn.renewing (henv : env.Honest) (h : Turn env user a s s') (hs : Renewing files slots G s) (hnodup : slots.Nodup)
    (ha : a ∈ slots) : Renewing files slots G s' := by
  cases h with
  | unnamed => exact hs
  | failed _ _ hfiles htable hcalls =>
    refine ⟨hfiles ▸ hs.names,?_,by rw [htable,hfiles]; exact hs.table,hfiles ▸ hs.valid⟩
    rw [hfiles]
    rcases hcalls with hcalls | ⟨fd,hnew,hcalls⟩
    · rw [hcalls]
      exact hs.log
    · have hlog := (hs.log.hand (mt (hs.table fd).mpr hnew)).free
      rw [List.append_assoc,List.append_assoc] at hlog
      rw [hcalls]
      exact hlog
  | @reopened _ fd hname _ hfd hnew hfiles htable hcalls =>
    have hnamed : a ∈ named s.files slots := List.mem_filter.mpr ⟨ha,by simpa using hname⟩
    obtain ⟨rest,hold,hupdate⟩ := held_update hnodup hnamed fd
    rw [← hfiles] at hupdate
    have hold' : (held s.files slots ++ G).Perm ((s.files a).fd::(rest ++ G)) := hold.append_right G
    have hupdate' : (held s'.files slots ++ G).Perm (fd::(rest ++ G)) := hupdate.append_right G
    have hout : fd ∉ held s.files slots ++ G := mt (hs.table fd).mpr hnew
    have hlog := (((hs.log.hand hout).perm (hold'.cons fd)).perm (List.Perm.swap ..)).free
    rw [List.append_assoc,List.append_assoc] at hlog
    have hrest := (List.nodup_cons.mp (hold'.nodup hs.log.nodup)).1
    have hne : fd ≠ (s.files a).fd := fun heq => hout (heq ▸ hold'.symm.subset List.mem_cons_self)
    refine ⟨fun b => ?_,?_,fun x => ?_,fun hmem => ?_⟩
    · rw [← hs.names b,hfiles]
      by_cases hb : b = a
      · rw [hb,Function.update_self]
      · rw [Function.update_of_ne hb]
    · rw [hcalls]
      exact hlog.perm hupdate'.symm
    · rw [htable,Finset.mem_erase,Finset.mem_insert,hs.table,hold'.mem_iff,hupdate'.mem_iff,List.mem_cons,List.mem_cons]
      grind
    · rcases List.mem_cons.mp (hupdate.subset hmem) with heq | hmem
      · exact (henv a s.table).2 (hfd ▸ heq.symm)
      · exact hs.valid (hold.symm.subset (List.mem_cons_of_mem _ hmem))

theorem reopenAll_renewing (henv : env.Honest) (user : ℕ) {part : List ℕ} (hsub : ∀ a ∈ part, a ∈ slots) (hnodup : slots.Nodup)
    (hs : Renewing files slots G s) :
    Renewing files slots G (visitAll (fun a s => (reopenFile env user a s,(none : Option Empty))) part s).1 := by
  induction part generalizing s with
  | nil => exact hs
  | cons a part ih =>
    obtain ⟨ha,hpart⟩ := List.forall_mem_cons.mp hsub
    exact ih hpart ((reopenFile_turn henv user a s).renewing henv hs hnodup ha)

theorem held_range (files : ℕ → FlushedFile) (n : ℕ) : held files (List.range n) =
    ((((List.range n).map fun a => (files a).toOpenFile).filter fun file => file.name ≠ []).map (·.fd)) := by
  rw [List.filter_map,List.map_map]
  rfl

theorem NgxCycle.Live.ours {c : NgxCycle A} (h : c.Live) :
    c.openFiles.filter OpenFile.ours = c.openFiles.filter fun file => file.name ≠ [] :=
  List.filter_congr fun file hfile => by
    rw [Bool.eq_iff_iff,h file hfile,decide_eq_true_eq]

theorem flushed_range (c : NgxCycle A) (flush : ℕ → Bool) :
    (List.range c.openFiles.length).map (fun a => (c.flushed flush a).toOpenFile) = c.openFiles := by
  refine List.ext_getElem (by simp) fun i hi hi' => ?_
  rw [List.getElem_map,List.getElem_range]
  exact List.getD_eq_getElem _ _ hi'

/-- The descriptors of the files come first, and all that are not theirs after them. -/
theorem fds_perm_files (c : NgxCycle A) (others : List ℤ) : (c.fds ++ others).Perm
    ((c.openFiles.filter OpenFile.ours).map (·.fd) ++
      ((c.listening.filter fun l => l.fd != invalidFile).map (·.fd) ++ others)) :=
  (List.perm_append_comm.append_right _).trans (List.Perm.of_eq (List.append_assoc ..))

theorem NgxCycle.Live.held_flushed {c : NgxCycle A} (h : c.Live) (flush : ℕ → Bool) :
    held (c.flushed flush) (List.range c.openFiles.length) = (c.openFiles.filter OpenFile.ours).map (·.fd) := by
  rw [held_range,flushed_range,h.ours]

theorem NgxCycle.Live.renewing {c : NgxCycle A} (h : c.Live) {others : List ℤ} (hnodup : (c.fds ++ others).Nodup)
    {table : Finset ℤ} (htable : ∀ fd, fd ∈ table ↔ fd ∈ c.fds ++ others) (flush : ℕ → Bool) :
    Renewing (c.flushed flush) (List.range c.openFiles.length)
      ((c.listening.filter fun l => l.fd != invalidFile).map (·.fd) ++ others) ⟨c.flushed flush,table,[],[]⟩ := by
  refine ⟨fun _ => rfl,?_,fun fd => ?_,fun hmem => ?_⟩
  · rw [h.held_flushed,List.append_nil]
    exact .of_nodup ((fds_perm_files c others).nodup hnodup)
  · rw [htable,h.held_flushed]
    exact (fds_perm_files c others).mem_iff
  · rw [h.held_flushed] at hmem
    obtain ⟨file,hfile,heq⟩ := List.mem_map.mp hmem
    have hours := (List.mem_filter.mp hfile).2
    simp only [OpenFile.ours,Bool.and_eq_true,bne_iff_ne] at hours
    exact hours.1 heq

/-- A file without a name is as it was, and another one has a descriptor that is not `stderr`. -/
theorem Renewing.live {c : NgxCycle A} {flush : ℕ → Bool} (h : Renewing (c.flushed flush) (List.range c.openFiles.length) G s)
    (hlive : c.Live) (hstderr : stderr ∈ G)
    (hunnamed : ∀ a < c.openFiles.length, (c.flushed flush a).name = [] → s.files a = c.flushed flush a) :
    (c.renew s).Live := by
  intro file hfile
  obtain ⟨a,ha,rfl⟩ := List.mem_map.mp hfile
  have hlt := List.mem_range.mp ha
  have hold : (c.flushed flush a).toOpenFile = c.openFiles[a] := List.getD_eq_getElem _ _ hlt
  have hnames : (s.files a).name = (c.flushed flush a).name := h.names a
  by_cases hname : (s.files a).name = []
  · rw [hunnamed a hlt (hnames ▸ hname),hold]
    exact hlive _ (List.getElem_mem hlt)
  · have hmem : (s.files a).fd ∈ held s.files (List.range c.openFiles.length) :=
      List.mem_map_of_mem (List.mem_filter.mpr ⟨ha,by simpa using hname⟩)
    have hother : (s.files a).fd ≠ stderr := fun heq =>
      (List.nodup_append'.mp h.log.nodup).2.2 (heq ▸ hmem) hstderr
    have hvalid : (s.files a).fd ≠ invalidFile := fun heq => h.valid (heq ▸ hmem)
    exact iff_of_true (by simp [OpenFile.ours,hother,hvalid]) hname

/-- Reopening keeps a cycle live, and conserves the descriptors of the process. -/
theorem renew_holds (henv : env.Honest) {c : NgxCycle A} (hlive : c.Live) {others : List ℤ} (hstderr : stderr ∈ others)
    (hnodup : (c.fds ++ others).Nodup) {table : Finset ℤ} (htable : ∀ fd, fd ∈ table ↔ fd ∈ c.fds ++ others) (user : ℕ)
    (flush : ℕ → Bool) : (c.renew (reopenCycle env user flush c table)).Live ∧
      Holds ((c.fds ++ others).map handed ++ (reopenCycle env user flush c table).calls)
        ((c.renew (reopenCycle env user flush c table)).fds ++ others) := by
  have hslots : (List.range c.openFiles.length).Nodup := List.nodup_range
  have hend := reopenAll_renewing henv user (fun _ h => h) hslots (hlive.renewing hnodup htable flush)
  obtain ⟨r,hwalk,hresult,-⟩ := reopenAll_files henv user hslots ⟨c.flushed flush,table,[],[]⟩
  have hr : reopenCycle env user flush c table = r := congrArg Prod.fst hwalk
  rw [hwalk] at hend
  rw [hr]
  have hlive' : (c.renew r).Live := hend.live hlive (List.mem_append_right _ hstderr) fun a ha hname =>
    (hresult a (List.mem_range.mpr ha)).2 fun h => h.1 hname
  refine ⟨hlive',?_⟩
  have hheld' : held r.files (List.range c.openFiles.length) = ((c.renew r).openFiles.filter OpenFile.ours).map (·.fd) := by
    rw [held_range,hlive'.ours]
    rfl
  have hlog := hend.log
  rw [hlive.held_flushed,hheld'] at hlog
  exact (((Holds.of_nodup hnodup).perm (fds_perm_files c others)).chain hlog).perm (fds_perm_files (c.renew r) others).symm

end InsideNginx.Cycle
