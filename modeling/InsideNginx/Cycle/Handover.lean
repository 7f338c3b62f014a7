import InsideNginx.Cycle.Descriptors

/-! What one reload passes on from the old cycle to the new one, and what it leaves alone when it fails. -/
namespace InsideNginx.Cycle
open Transfer Attempt

variable {A : Type} {env : Env A} {old cycle : NgxCycle A} {H : List ℤ} {s : Reload A}

/-! ### Descriptors of a successful call -/

/-- A socket that a new entry has from an old one. -/
def Listening.passed (l : Listening A) : Bool := l.fd != invalidFile && !l.toOpen

/-- A cycle has what this call has opened and what it has inherited. -/
theorem fds_perm (c : NgxCycle A) : c.fds.Perm (c.own ++ (c.listening.filter Listening.passed).map (·.fd)) := by
  have hsplit := List.filter_append_perm (fun l => l.toOpen) (c.listening.filter fun l => l.fd != invalidFile)
  rw [List.filter_filter,List.filter_filter] at hsplit
  have hopened : (c.listening.filter fun l => l.toOpen && (l.fd != invalidFile)) = c.listening.filter Listening.opened :=
    List.filter_congr fun l _ => Bool.and_comm ..
  have hpassed : (c.listening.filter fun l => !l.toOpen && (l.fd != invalidFile)) = c.listening.filter Listening.passed :=
    List.filter_congr fun l _ => Bool.and_comm ..
  rw [hopened,hpassed] at hsplit
  have hmap := hsplit.map (·.fd)
  rw [List.map_append] at hmap
  unfold NgxCycle.fds NgxCycle.own
  rw [List.append_assoc]
  exact (List.perm_append_comm.trans (hmap.symm.append_left _))

/-- The sockets of the old cycle that a new entry has. -/
def Reload.kept (s : Reload A) : List ℤ :=
  (s.old.listening.filter fun l => l.remain && (l.fd != invalidFile)).map (·.fd)

theorem Passed.listening_fds (h : Passed env H old s) : (s.old.listening.filter fun l => l.fd != invalidFile).map (·.fd) =
    (old.listening.filter fun l => l.fd != invalidFile).map (·.fd) := by
  obtain ⟨ns,hns,-⟩ := h.inherited
  rw [filter_valid_map,hns.map_fd,← filter_valid_map]

/-- What was open in the old cycle is closed or kept. -/
theorem Passed.old_perm (h : Passed env H old s) : old.fds.Perm (s.gone ++ s.kept) := by
  have hsplit := List.filter_append_perm (fun l => l.remain) (s.old.listening.filter fun l => l.fd != invalidFile)
  rw [List.filter_filter,List.filter_filter] at hsplit
  have hmap := hsplit.map (·.fd)
  rw [List.map_append,h.listening_fds] at hmap
  unfold NgxCycle.fds Reload.gone Reload.kept
  rw [h.oldFiles]
  refine (hmap.symm.append_right _).trans ?_
  rw [List.append_assoc]
  exact List.perm_append_comm

theorem Listening.openWith_of_closed {l : Listening A} (h : l.toOpen = false) (fd : ℤ) : l.openWith fd = l :=
  if_neg fun hopen => by simp [h] at hopen

/-- An old entry that remains has passed on its socket. -/
theorem Passed.mem_kept (h : Passed env H old s) (fd : ℤ) :
    fd ∈ s.kept ↔ fd ∈ (s.cycle.listening.filter Listening.passed).map (·.fd) := by
  obtain ⟨ns,hns,heq⟩ := h.inherited
  unfold Reload.kept
  simp only [List.mem_map,List.mem_filter,Bool.and_eq_true,bne_iff_ne]
  constructor
  · rintro ⟨l,⟨hl,hremain,hvalid⟩,rfl⟩
    obtain ⟨i,hi⟩ := List.mem_iff_getElem?.mp hl
    rcases (hns.remain i l hi).mp hremain with ⟨l₁,hl₁,hmark⟩ | ⟨n,hn,hprevious⟩
    · rw [List.getElem?_map,Option.map_eq_some_iff] at hl₁
      obtain ⟨l₁,-,rfl⟩ := hl₁
      cases hmark
    · obtain ⟨l₁,hl₁,-,hfd⟩ := hns.source n hn i hprevious
      obtain ⟨l₂,hl₂,hsame⟩ := hns.same i l hi
      rw [hl₁] at hl₂
      cases hl₂
      have hfd : n.fd = l.fd := hfd.trans hsame.symm
      have hclosed : n.toOpen = false := by
        rw [← Bool.not_eq_true,hns.opens n hn,hfd]
        exact hvalid
      obtain ⟨k,hk,rfl⟩ := List.mem_iff_getElem.mp hn
      refine ⟨ns[k],⟨?_,by simp [Listening.passed,hfd,hvalid,hclosed]⟩,hfd⟩
      rw [heq]
      exact List.mem_mapIdx.mpr ⟨k,hk,Listening.openWith_of_closed hclosed _⟩
  · rintro ⟨n,⟨hn,hpassed⟩,rfl⟩
    simp only [Listening.passed,Bool.and_eq_true,bne_iff_ne,Bool.not_eq_true'] at hpassed
    rw [heq] at hn
    obtain ⟨k,hk,rfl⟩ := List.mem_mapIdx.mp hn
    have hmem : ns[k] ∈ ns := List.getElem_mem hk
    have hclosed : ns[k].toOpen = false := by
      unfold Listening.openWith at hpassed
      split at hpassed <;> exact hpassed.2
    rw [Listening.openWith_of_closed hclosed] at hpassed ⊢
    cases hprevious : ns[k].previous with
    | none => exact absurd (hns.alone _ hmem hprevious) hpassed.1
    | some i =>
      obtain ⟨l₁,hl₁,-,hfd⟩ := hns.source _ hmem i hprevious
      have hlt : i < s.old.listening.length := hns.length ▸ (List.getElem?_eq_some_iff.mp hl₁).1
      have hi : s.old.listening[i]? = some s.old.listening[i] := List.getElem?_eq_getElem hlt
      obtain ⟨l₂,hl₂,hsame⟩ := hns.same i _ hi
      rw [hl₁] at hl₂
      cases hl₂
      have hfd : ns[k].fd = s.old.listening[i].fd := hfd.trans hsame.symm
      refine ⟨s.old.listening[i],⟨List.getElem_mem hlt,?_,hfd ▸ hpassed.1⟩,hfd.symm⟩
      exact (hns.remain i _ hi).mpr (.inr ⟨ns[k],hmem,hprevious⟩)

/-- The old sockets that are kept are those that the new entries have, each once. -/
theorem Passed.kept_perm (henv : env.Honest H) (htable : Table H old) (h : Passed env H old s) :
    s.kept.Perm ((s.cycle.listening.filter Listening.passed).map (·.fd)) := by
  have hkept : s.kept.Nodup := ((List.nodup_append'.mp (h.old_perm.nodup htable.nodup_fds)).2.1)
  refine (List.perm_ext_iff_of_nodup hkept ?_).mpr h.mem_kept
  have honce := (h.inherits henv htable).once
  rw [List.Nodup,List.pairwise_map,List.pairwise_filter,List.pairwise_iff_getElem]
  intro i j hi hj hij hpassed hpassed' hsame
  -- the socket is that of an old entry
  have hmem : s.cycle.listening[i].fd ∈ s.kept :=
    (h.mem_kept _).mpr (List.mem_map_of_mem (List.mem_filter.mpr ⟨List.getElem_mem hi,hpassed⟩))
  have hmem : s.cycle.listening[i].fd ∈ (old.listening.filter fun l => l.fd != invalidFile).map (·.fd) := by
    rw [← h.listening_fds]
    refine (List.Sublist.map _ (List.monotone_filter_right _ fun l hl => ?_)).subset hmem
    exact (Bool.and_eq_true_iff.mp hl).2
  obtain ⟨l,hl,hfd⟩ := List.mem_map.mp hmem
  obtain ⟨hl,hvalid⟩ := List.mem_filter.mp hl
  have heq := honce l hl (by simpa using hvalid) i j _ _ (List.getElem?_eq_getElem hi) (List.getElem?_eq_getElem hj)
    hfd.symm (hsame.symm.trans hfd.symm)
  omega

/-- A successful call hands over: closed is what only the old cycle had. -/
theorem Passed.handover (henv : env.Honest H) (htable : Table H old) (h : Passed env H old s) (others : List ℤ) :
    (s.cycle.own ++ (old.fds ++ others)).Perm (s.gone ++ (s.cycle.fds ++ others)) := by
  have hold := h.old_perm.trans ((h.kept_perm henv htable).append_left s.gone)
  calc List.Perm (s.cycle.own ++ (old.fds ++ others))
        (s.cycle.own ++ (s.gone ++ (s.cycle.listening.filter Listening.passed).map (·.fd) ++ others)) :=
      (hold.append_right others).append_left _
    List.Perm _ (s.gone ++ (s.cycle.own ++ (s.cycle.listening.filter Listening.passed).map (·.fd) ++ others)) := by
      simp only [← List.append_assoc]
      exact (List.perm_append_comm.append_right _).append_right _
    List.Perm _ (s.gone ++ (s.cycle.fds ++ others)) := ((fds_perm s.cycle).symm.append_right others).append_left _

/-! ### The old cycle -/

/-- The old cycle but for the marks of its sockets. -/
def Reload.olds (s : Reload A) : List OpenFile × List ℤ × List ShmZone :=
  (s.old.openFiles,s.old.listening.map (·.fd),s.old.sharedMemory)

theorem inheritAll_fds (cmp : A → A → Bool) (ls ns : List (Listening A)) :
    (inheritAll cmp ls ns).1.map (·.fd) = ls.map (·.fd) := by
  induction ns generalizing ls with
  | nil => rfl
  | cons n ns ih =>
    refine (ih (inheritOne cmp ls n).1).trans ?_
    rcases inheritOne_cases cmp ls n with heq | ⟨i,l,hl,-,heq⟩
    · rw [heq]
    · rw [heq,List.map_set]
      obtain ⟨hlt,rfl⟩ := List.getElem?_eq_some_iff.mp hl
      have hlt' : i < (ls.map (·.fd)).length := by simpa using hlt
      exact (congrArg _ (List.getElem_map ..).symm).trans (List.set_getElem_self hlt')

theorem handleListening_olds : Keeps (Attempt.always (handleListening env)) Reload.olds := Keeps.always fun s => by
  unfold handleListening
  split
  · rfl
  · simp [Reload.olds,inheritAll_fds,Function.comp_def]

theorem prepare_olds : Keeps (prepare env) Reload.olds := by
  have hearly : Keeps (early env) Reload.olds := fun s =>
    congrArg (fun x : NgxCycle A × _ => (x.1.openFiles,x.1.listening.map (·.fd),x.1.sharedMemory)) (early_keeps s)
  have hzones : Keeps (createZones env) Reload.olds := fun s =>
    congrArg (fun x : NgxCycle A × _ => (x.1.openFiles,x.1.listening.map (·.fd),x.1.sharedMemory)) (createZones_tables env s)
  have hopen : Keeps (openListeningSockets env) Reload.olds := by
    intro s
    unfold openListeningSockets
    dsimp only
    split <;> rfl
  exact hearly.andThen (hzones.andThen (handleListening_olds.andThen hopen))

theorem fds_of_olds {c c' : NgxCycle A} (hfiles : c'.openFiles = c.openFiles)
    (hlistening : c'.listening.map (·.fd) = c.listening.map (·.fd)) : c'.fds = c.fds := by
  unfold NgxCycle.fds
  rw [hfiles,filter_valid_map,filter_valid_map,hlistening]

/-- The cycle of a process after a failed call is the one before it. -/
theorem failed_olds (h : initCycle env old cycle = .failed s) :
    s.old.openFiles = old.openFiles ∧ s.old.fds = old.fds ∧ s.old.sharedMemory = old.sharedMemory := by
  obtain ⟨t,ht,rfl⟩ := initCycle_failed h
  have holds : (Attempt.ends (prepare env (start old cycle))).olds = (start old cycle).olds := prepare_olds _
  rw [show prepare env (start old cycle) = .error t from ht] at holds
  simp only [Reload.olds,Attempt.ends,Prod.mk.injEq] at holds
  have hrollback : (rollback env t).old = t.old := by
    unfold rollback
    dsimp only
    split_ifs <;> rfl
  rw [hrollback]
  exact ⟨holds.1,fds_of_olds holds.1 holds.2.1,holds.2.2⟩

/-- A reload conserves the descriptors that are open: it leaves those of others, and those of one cycle. -/
theorem reload_holds {others : List ℤ} (henv : env.Honest (old.fds ++ others)) (htable : Table (old.fds ++ others) old)
    (hcycle : cycle.Unopened) (hleak : ¬PidLeaks env old cycle) :
    (initCycle env old cycle = .done s →
      Holds ((old.fds ++ others).map handed ++ s.descriptors) (s.cycle.fds ++ others)) ∧
    (env.testConfig = false → initCycle env old cycle = .failed s →
      Holds ((old.fds ++ others).map handed ++ s.descriptors) (s.old.fds ++ others)) := by
  have hspec := prepare_passed henv htable hcycle hleak (start old cycle) rfl
  refine ⟨fun h => ?_,fun htest h => ?_⟩
  · obtain ⟨t,ht,rfl⟩ := initCycle_done h
    have hpassed := hspec.1 t ht
    have hall := (hpassed.clean.holds.perm (hpassed.handover henv htable others)).freeAll
    rwa [List.append_assoc,← release_descriptors env] at hall
  · obtain ⟨t,ht,rfl⟩ := initCycle_failed h
    have hall := (hspec.2 t ht).1.holds.freeAll
    rw [List.append_assoc,← rollback_descriptors htest] at hall
    rwa [(failed_olds h).2.1]

/-! ### Segments -/

/-- The addresses of the segments of a cycle. -/
def NgxCycle.addrs (c : NgxCycle A) : List ℕ := c.sharedMemory.map (·.addr)

/-- The system returns no segment that is out, those of `G` among them, and none twice. -/
structure Env.Allots (env : Env A) (G : List ℕ) : Prop where
  fresh : ∀ j a existing, env.shmAlloc j = some (a,existing) → a ∉ G
  once : ∀ i j a existing existing', env.shmAlloc i = some (a,existing) → env.shmAlloc j = some (a,existing') → i = j

/-- The segments that zones have of their own. -/
def ownAddrs (olds zones : List ShmZone) : List ℕ :=
  (zones.filter fun z => (reusedZone olds z).isNone).map (·.addr)

/-- The segments that zones have from old ones. -/
def reusedAddrs (olds zones : List ShmZone) : List ℕ :=
  (zones.filter fun z => (reusedZone olds z).isSome).map (·.addr)

variable {olds zones : List ShmZone} {k : ℕ}

theorem reusedZone_congr {z z' : ShmZone} (hname : z'.name = z.name) (htag : z'.tag = z.tag) (hsize : z'.size = z.size)
    (hnoreuse : z'.noreuse = z.noreuse) : reusedZone olds z' = reusedZone olds z := by
  unfold reusedZone oldZone
  have hreuses : z'.reuses = z.reuses := by
    unfold ShmZone.reuses
    rw [htag,hsize,hnoreuse]
  rw [hname,hreuses]

/-- What a call of `ngx_shm_alloc` adds to the record. -/
theorem createZone_segments (env : Env A) {z : ShmZone} (hz : s.cycle.sharedMemory[k]? = some z) :
    (∀ s', createZone env k s = .ok s' → ∃ z', s'.cycle.sharedMemory = s.cycle.sharedMemory.set k z' ∧
      reusedZone s.old.sharedMemory z' = reusedZone s.old.sharedMemory z ∧
      ((reusedZone s.old.sharedMemory z).isSome = true ∧ s'.segments = s.segments ∨
        reusedZone s.old.sharedMemory z = none ∧ (∃ existing, env.shmAlloc k = some (z'.addr,existing)) ∧
        s'.segments = s.segments ++ [handed z'.addr])) ∧
    ∀ s', createZone env k s = .error s' → s'.segments = s.segments ∨
      ∃ a existing, env.shmAlloc k = some (a,existing) ∧ s'.segments = s.segments ++ [handed a] := by
  unfold createZone
  simp only [hz]
  split_ifs with hsize
  · exact ⟨by simp,fun s' hs' => by cases hs'; exact .inl rfl⟩
  cases hreused : reusedZone s.old.sharedMemory z with
  | some o =>
    dsimp only
    unfold initZone
    split
    · exact ⟨by simp,fun s' hs' => by cases hs'; exact .inl rfl⟩
    · rename_i data hdata
      refine ⟨fun s' hs' => ?_,by simp⟩
      cases hs'
      exact ⟨{ z with addr := o.addr, data := data },rfl,(reusedZone_congr rfl rfl rfl rfl).trans hreused,.inl ⟨rfl,rfl⟩⟩
  | none =>
    cases halloc : env.shmAlloc k with
    | none => exact ⟨by simp,fun s' hs' => by cases hs'; exact .inl rfl⟩
    | some a =>
      obtain ⟨addr,existing⟩ := a
      dsimp only
      split_ifs
      · unfold initZone
        split
        · exact ⟨by simp,fun s' hs' => by cases hs'; exact .inr ⟨addr,existing,rfl,rfl⟩⟩
        · rename_i data hdata
          refine ⟨fun s' hs' => ?_,by simp⟩
          cases hs'
          refine ⟨{ z with addr := addr, existing := existing, data := data },?_,(reusedZone_congr rfl rfl rfl rfl).trans hreused,.inr ⟨rfl,⟨existing,rfl⟩,rfl⟩⟩
          simp [Reload.setZone]
      · exact ⟨by simp,fun s' hs' => by cases hs'; exact .inr ⟨addr,existing,rfl,rfl⟩⟩

/-- What a call has obtained: new segments, each once. -/
def Obtained (env : Env A) (s : Reload A) (new : List ℕ) : Prop :=
  s.segments = new.map handed ∧ new.Nodup ∧ ∀ a ∈ new, ∃ j existing, env.shmAlloc j = some (a,existing)

theorem Obtained.none (h : s.segments = []) : Obtained env s [] := ⟨h,List.nodup_nil,by simp⟩

/-- The zones up to `k` have been created, and only their own segments have been obtained. -/
structure TakenUpTo (env : Env A) (olds zones : List ShmZone) (k : ℕ) (s : Reload A) : Prop where
  made : MadeUpTo env olds zones k s
  obtained : Obtained env s (ownAddrs olds (s.cycle.sharedMemory.take k))
  source : ∀ a ∈ ownAddrs olds (s.cycle.sharedMemory.take k), ∃ j < k, ∃ existing, env.shmAlloc j = some (a,existing)

theorem TakenUpTo.new (h : TakenUpTo env olds zones k s) {G : List ℕ} (henv : env.Allots G) {a : ℕ} {existing : Bool}
    (ha : env.shmAlloc k = some (a,existing)) {s' : Reload A} (hs' : s'.segments = s.segments ++ [handed a]) :
    Obtained env s' (ownAddrs olds (s.cycle.sharedMemory.take k) ++ [a]) := by
  obtain ⟨hsegments,hnodup,hsource⟩ := h.obtained
  refine ⟨by rw [hs',hsegments,List.map_append]; rfl,List.nodup_append.mpr ⟨hnodup,List.nodup_singleton _,?_⟩,
    fun b hb => ?_⟩
  · intro b hb c hc heq
    rw [List.mem_singleton.mp hc] at heq
    obtain ⟨j,hj,existing',hb⟩ := h.source b hb
    have := henv.once j k a existing' existing (heq ▸ hb) ha
    omega
  · rcases List.mem_append.mp hb with hb | hb
    · exact hsource b hb
    · exact ⟨k,existing,List.mem_singleton.mp hb ▸ ha⟩

theorem createZone_taken {G : List ℕ} (henv : env.Allots G) (hk : k < zones.length) :
    Triple (TakenUpTo env olds zones k) (createZone env k) (TakenUpTo env olds zones (k+1))
      (fun s => ∃ new, Obtained env s new) := by
  intro s h
  obtain ⟨z,hz⟩ : ∃ z, zones[k]? = some z := ⟨_,List.getElem?_eq_getElem hk⟩
  have hget : s.cycle.sharedMemory[k]? = some z := (h.made.rest k le_rfl).trans hz
  have hmade := createZone_made hk s h.made
  obtain ⟨hok,herror⟩ := createZone_segments env hget
  rw [h.made.old] at hok
  refine ⟨fun s' hs' => ?_,fun s' hs' => ?_⟩
  · obtain ⟨z',hset,hsame,hcases⟩ := hok s' hs'
    have htake : s'.cycle.sharedMemory.take (k+1) = s.cycle.sharedMemory.take k ++ [z'] := by
      have hlt : k < (s.cycle.sharedMemory.set k z').length := by
        rw [List.length_set]
        exact (List.getElem?_eq_some_iff.mp hget).1
      rw [hset,List.take_add_one,List.take_set_of_le le_rfl,List.getElem?_eq_getElem hlt,List.getElem_set_self]
      rfl
    rcases hcases with ⟨hreused,hsegments⟩ | ⟨hnone,⟨existing,halloc⟩,hsegments⟩
    · have hown : ownAddrs olds (s'.cycle.sharedMemory.take (k+1)) = ownAddrs olds (s.cycle.sharedMemory.take k) := by
        rw [htake]
        simp [ownAddrs,hsame,Option.isSome_iff_ne_none.mp hreused]
      refine ⟨hmade.1 s' hs',?_,?_⟩
      · rw [hown]
        exact ⟨hsegments.trans h.obtained.1,h.obtained.2⟩
      · rw [hown]
        intro a ha
        obtain ⟨j,hj,hsource⟩ := h.source a ha
        exact ⟨j,Nat.lt_succ_of_lt hj,hsource⟩
    · have hown : ownAddrs olds (s'.cycle.sharedMemory.take (k+1)) =
          ownAddrs olds (s.cycle.sharedMemory.take k) ++ [z'.addr] := by
        rw [htake]
        simp [ownAddrs,hsame,hnone]
      refine ⟨hmade.1 s' hs',?_,?_⟩
      · rw [hown]
        exact h.new henv halloc hsegments
      · rw [hown]
        intro a ha
        rcases List.mem_append.mp ha with ha | ha
        · obtain ⟨j,hj,hsource⟩ := h.source a ha
          exact ⟨j,Nat.lt_succ_of_lt hj,hsource⟩
        · exact ⟨k,Nat.lt_succ_self k,existing,List.mem_singleton.mp ha ▸ halloc⟩
  · rcases herror s' hs' with hsegments | ⟨a,existing,halloc,hsegments⟩
    · exact ⟨_,hsegments.trans h.obtained.1,h.obtained.2⟩
    · exact ⟨_,h.new henv halloc hsegments⟩

theorem createZones_taken {G : List ℕ} (henv : env.Allots G) (olds zones : List ShmZone) :
    Triple (TakenUpTo env olds zones 0) (createZones env) (TakenUpTo env olds zones zones.length)
      (fun s => ∃ new, Obtained env s new) := by
  intro s hs
  have hloop := Triple.loop (f := createZone env) (I := TakenUpTo env olds zones) (i := 0) (n := zones.length)
    fun k _ hk => createZone_taken henv (by omega)
  rw [Nat.zero_add] at hloop
  unfold createZones
  rw [hs.made.length]
  exact hloop s hs

theorem TakenUpTo.congr (h : TakenUpTo env olds zones k s) {s' : Reload A} (hs : s'.zones = s.zones) :
    TakenUpTo env olds zones k s' := by
  obtain ⟨-,hcycle,hsegments⟩ : s'.old.sharedMemory = s.old.sharedMemory ∧
      s'.cycle.sharedMemory = s.cycle.sharedMemory ∧ s'.segments = s.segments := by simpa [Reload.zones] using hs
  refine ⟨h.made.congr hs,?_,?_⟩
  · rw [hcycle]
    exact ⟨hsegments.trans h.obtained.1,h.obtained.2⟩
  · rw [hcycle]
    exact h.source

theorem prepare_taken {G : List ℕ} (henv : env.Allots G) (old cycle : NgxCycle A) :
    Triple (· = start old cycle) (prepare env)
      (TakenUpTo env old.sharedMemory cycle.sharedMemory cycle.sharedMemory.length)
      (fun s => ∃ new, Obtained env s new) := by
  have hlate : Triple (TakenUpTo env old.sharedMemory cycle.sharedMemory cycle.sharedMemory.length)
      ((Attempt.always (handleListening env)).andThen (openListeningSockets env))
      (TakenUpTo env old.sharedMemory cycle.sharedMemory cycle.sharedMemory.length)
      (fun s => ∃ new, Obtained env s new) := by
    intro s hs
    have hkeeps : Keeps ((Attempt.always (handleListening env)).andThen (openListeningSockets env)) Reload.zones :=
      handleListening_keeps.andThen openListeningSockets_keeps
    obtain ⟨hok,herror⟩ := hkeeps.triple s.zones s rfl
    exact ⟨fun s' hs' => hs.congr (hok s' hs'),fun s' hs' => ⟨_,(hs.congr (herror s' hs')).obtained⟩⟩
  refine Triple.andThen ?_ ((createZones_taken henv _ _).andThen hlate)
  refine (early_keeps.triple (old,cycle.sharedMemory,cycle.listening,[])).weaken ?_ ?_ ?_
  · rintro s rfl
    rfl
  · intro s hs
    have hnone : Obtained env s [] := .none (congrArg (·.2.2.2) hs)
    exact ⟨madeUpTo_zero hs,by simpa [ownAddrs] using hnone,by simp [ownAddrs]⟩
  · exact fun s hs => ⟨[],.none (congrArg (·.2.2.2) hs)⟩

/-- The addresses of zones that are of a kind, and of those that are not. -/
theorem addrs_perm (kind : ShmZone → Bool) (zones : List ShmZone) : (zones.map (·.addr)).Perm
    ((zones.filter kind).map (·.addr) ++ (zones.filter fun z => !kind z).map (·.addr)) := by
  have hsplit := (List.filter_append_perm kind zones).map (·.addr)
  rw [List.map_append] at hsplit
  exact hsplit.symm

theorem MadeUpTo.reused_addr (h : MadeUpTo env olds zones zones.length s) {z : ShmZone}
    (hz : z ∈ s.cycle.sharedMemory) {o : ShmZone} (hreused : reusedZone olds z = some o) : z.addr = o.addr := by
  obtain ⟨w,-,hmade⟩ := h.of_mem hz
  exact hmade.reused o ((reusedZone_congr hmade.name hmade.tag hmade.size hmade.noreuse).symm.trans hreused)

/-- The old zones that live on are those that the new ones reuse. -/
theorem MadeUpTo.live_perm (h : MadeUpTo env olds zones zones.length s) (hold : Named olds) (hnew : Named zones)
    (hdistinct : (olds.map (·.addr)).Nodup)
    (hagree : ∀ o ∈ olds, ∀ z ∈ zones, z.Matches o → z.noreuse = o.noreuse) :
    ((olds.filter fun o => o.live s.cycle.sharedMemory).map (·.addr)).Perm (reusedAddrs olds s.cycle.sharedMemory) := by
  have hnamed := h.named hnew
  refine (List.perm_ext_iff_of_nodup ?_ ?_).mpr fun a => ?_
  · exact (List.Sublist.map _ List.filter_sublist).nodup hdistinct
  · unfold reusedAddrs
    rw [List.Nodup,List.pairwise_map,List.pairwise_filter]
    refine hnamed.imp_of_mem fun {z w} hz hw hne hzreused hwreused hsame => ?_
    obtain ⟨o,ho⟩ := Option.isSome_iff_exists.mp hzreused
    obtain ⟨o',ho'⟩ := Option.isSome_iff_exists.mp hwreused
    obtain ⟨hmem,hmatches,-⟩ := (reusedZone_eq_some hold).mp ho
    obtain ⟨hmem',hmatches',-⟩ := (reusedZone_eq_some hold).mp ho'
    have heq : o = o' := by
      refine List.inj_on_of_nodup_map hdistinct hmem hmem' ?_
      rw [← h.reused_addr hz ho,← h.reused_addr hw ho',hsame]
    have hname := sameStr_trans hmatches.1 (sameStr_comm .. ▸ heq ▸ hmatches'.1)
    rw [hne] at hname
    cases hname
  · unfold reusedAddrs
    simp only [List.mem_map,List.mem_filter]
    constructor
    · rintro ⟨o,⟨ho,hlive⟩,rfl⟩
      obtain ⟨w,hw,hmatches,hreuse⟩ := (h.live_iff hnew o).mp hlive
      obtain ⟨z,hz,hmade⟩ := h.mem hw
      have hreused : reusedZone olds z = some o := by
        rw [reusedZone_congr hmade.name hmade.tag hmade.size hmade.noreuse]
        exact (reusedZone_eq_some hold).mpr ⟨ho,hmatches,(hagree o ho w hw hmatches).trans hreuse⟩
      exact ⟨z,⟨hz,by simp [hreused]⟩,h.reused_addr hz hreused⟩
    · rintro ⟨z,⟨hz,hreused⟩,rfl⟩
      obtain ⟨o,ho⟩ := Option.isSome_iff_exists.mp hreused
      obtain ⟨w,hw,hmade⟩ := h.of_mem hz
      have hwreused := (reusedZone_congr hmade.name hmade.tag hmade.size hmade.noreuse).symm.trans ho
      obtain ⟨hmem,hmatches,hreuse⟩ := (reusedZone_eq_some hold).mp hwreused
      refine ⟨o,⟨hmem,(h.live_iff hnew o).mpr ⟨w,hw,hmatches,?_⟩⟩,(h.reused_addr hz ho).symm⟩
      exact (hagree o hmem w hw hmatches).symm.trans hreuse

/-- A successful call frees what no zone of the new cycle has. -/
theorem TakenUpTo.handover (h : TakenUpTo env old.sharedMemory zones zones.length s) (hold : Named old.sharedMemory)
    (hnew : Named zones) (hdistinct : old.addrs.Nodup)
    (hagree : ∀ o ∈ old.sharedMemory, ∀ z ∈ zones, z.Matches o → z.noreuse = o.noreuse) (lost : List ℕ) :
    ((old.sharedMemory.filter fun o => !o.live s.cycle.sharedMemory).map (·.addr) ++ (s.cycle.addrs ++ lost)).Perm
      (ownAddrs old.sharedMemory s.cycle.sharedMemory ++ (old.addrs ++ lost)) := by
  have hlive := h.made.live_perm hold hnew hdistinct hagree
  have holds : old.addrs.Perm _ := addrs_perm (fun o => o.live s.cycle.sharedMemory) old.sharedMemory
  have hnews : s.cycle.addrs.Perm _ := addrs_perm (fun z => (reusedZone old.sharedMemory z).isSome) s.cycle.sharedMemory
  have hown : (s.cycle.sharedMemory.filter fun z => !(reusedZone old.sharedMemory z).isSome).map (·.addr) =
      ownAddrs old.sharedMemory s.cycle.sharedMemory := by simp [ownAddrs]
  rw [hown] at hnews
  have hboth := holds.trans (hlive.append_right _)
  refine List.perm_iff_count.mpr fun a => ?_
  have hcount := hboth.count_eq a
  have hcount' := hnews.count_eq a
  simp only [List.count_append,reusedAddrs] at hcount hcount' ⊢
  omega

end InsideNginx.Cycle
