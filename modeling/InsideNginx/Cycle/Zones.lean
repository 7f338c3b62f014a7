import InsideNginx.Cycle.InitCycle

/-! Which segments of shared memory a new cycle reuses and which of the old ones are freed. -/
namespace InsideNginx.Cycle
open Transfer Attempt

variable {A : Type} {env : Env A} {old cycle : NgxCycle A}

/-! ### What the stages leave alone -/

/-- The old cycle, the zones and the sockets of the new one, and the segments. -/
def Reload.aside (s : Reload A) : NgxCycle A × List ShmZone × List (Listening A) × List (Transfer ℕ) :=
  (s.old,s.cycle.sharedMemory,s.cycle.listening,s.segments)

theorem deleteFile_aside (name : Str) (s : Reload A) : (deleteFile env name s).aside = s.aside := by
  unfold deleteFile
  split <;> rfl

theorem createPidfile_keeps : Keeps (createPidfile env) Reload.aside := by
  intro s
  unfold createPidfile
  split_ifs <;> rfl

theorem writePid_keeps : Keeps (writePid env) Reload.aside := by
  intro s
  unfold writePid
  split_ifs
  · exact createPidfile_keeps s
  · exact (createPidfile_keeps.andThen (Keeps.always fun s => deleteFile_aside _ s)) s
  · rfl
  · rfl

theorem testLockfile_keeps : Keeps (testLockfile env) Reload.aside := by
  intro s
  unfold testLockfile
  split_ifs
  · rfl
  · rfl
  · exact deleteFile_aside _ _

theorem createPaths_keeps : Keeps (createPaths env) Reload.aside := by
  intro s
  unfold createPaths
  split <;> rfl

theorem logOpenDefault_keeps : Keeps (logOpenDefault env) Reload.aside := by
  intro s
  unfold logOpenDefault
  split <;> rfl

theorem openFile_keeps (i : ℕ) : Keeps (openFile env i) Reload.aside := by
  intro s
  unfold openFile
  split
  · rfl
  · split_ifs <;> rfl

theorem early_keeps : Keeps (early env) Reload.aside :=
  writePid_keeps.andThen (testLockfile_keeps.andThen (createPaths_keeps.andThen (logOpenDefault_keeps.andThen
    fun s => Keeps.loop openFile_keeps 0 _ s)))

/-- What the sockets of the new cycle are no part of. -/
def Reload.zones (s : Reload A) : List ShmZone × List ShmZone × List (Transfer ℕ) :=
  (s.old.sharedMemory,s.cycle.sharedMemory,s.segments)

theorem handleListening_keeps : Keeps (Attempt.always (handleListening env)) Reload.zones := Keeps.always fun s => by
  unfold handleListening
  split <;> rfl

theorem openListeningSockets_keeps : Keeps (openListeningSockets env) Reload.zones := by
  intro s
  unfold openListeningSockets
  dsimp only
  split <;> rfl

/-! ### The creation of zones -/

/-- A zone after its creation: it has the memory of an old one, or its own. -/
structure Made (env : Env A) (olds : List ShmZone) (zone made : ShmZone) : Prop where
  name : made.name = zone.name
  tag : made.tag = zone.tag
  size : made.size = zone.size
  noreuse : made.noreuse = zone.noreuse
  reused : ∀ o, reusedZone olds zone = some o → made.addr = o.addr
  own : reusedZone olds zone = none → ∃ j existing, env.shmAlloc j = some (made.addr,existing)

/-- The zones up to `k` have been created, and nothing has been freed. -/
structure MadeUpTo (env : Env A) (olds zones : List ShmZone) (k : ℕ) (s : Reload A) : Prop where
  old : s.old.sharedMemory = olds
  made : ∀ j z, j < k → zones[j]? = some z → ∃ z', s.cycle.sharedMemory[j]? = some z' ∧ Made env olds z z'
  rest : ∀ j, k ≤ j → s.cycle.sharedMemory[j]? = zones[j]?
  length : s.cycle.sharedMemory.length = zones.length
  kept : ∀ a, freed a ∉ s.segments

variable {olds zones : List ShmZone} {k : ℕ} {s : Reload A}

theorem MadeUpTo.advance (h : MadeUpTo env olds zones k s) {z z' : ShmZone} (hz : zones[k]? = some z)
    (hmade : Made env olds z z') (new : List (Transfer ℕ)) (hnew : ∀ a, freed a ∉ new) :
    MadeUpTo env olds zones (k+1) { s.setZone k z' with segments := s.segments ++ new } := by
  have hlt : k < s.cycle.sharedMemory.length := h.length ▸ (List.getElem?_eq_some_iff.mp hz).1
  refine ⟨h.old,fun j w hj hw => ?_,fun j hj => ?_,?_,fun a ha => ?_⟩
  · by_cases hjk : j = k
    · subst hjk
      rw [hz] at hw
      cases hw
      exact ⟨z',List.getElem?_set_self hlt,hmade⟩
    · obtain ⟨w',hw',hold⟩ := h.made j w (by omega) hw
      exact ⟨w',(List.getElem?_set_ne (Ne.symm hjk)).trans hw',hold⟩
  · exact (List.getElem?_set_ne (by omega)).trans (h.rest j (by omega))
  · exact List.length_set.trans h.length
  · rcases List.mem_append.mp ha with ha | ha
    · exact h.kept a ha
    · exact hnew a ha

theorem createZone_made (hk : k < zones.length) :
    Triple (MadeUpTo env olds zones k) (createZone env k) (MadeUpTo env olds zones (k+1))
      (fun s => ∀ a, freed a ∉ s.segments) := by
  intro s h
  obtain ⟨z,hz⟩ : ∃ z, zones[k]? = some z := ⟨_,List.getElem?_eq_getElem hk⟩
  have hget : s.cycle.sharedMemory[k]? = some z := (h.rest k le_rfl).trans hz
  have hkept := h.kept
  unfold createZone
  simp only [hget,h.old]
  split_ifs with hsize
  · exact ⟨by simp,fun s' hs' => by cases hs'; exact hkept⟩
  cases hreused : reusedZone olds z with
  | some o =>
    dsimp only
    unfold initZone
    split
    · exact ⟨by simp,fun s' hs' => by cases hs'; exact hkept⟩
    · rename_i data hdata
      refine ⟨fun s' hs' => ?_,by simp⟩
      cases hs'
      have hmade : Made env olds z { z with addr := o.addr, data := data } :=
        ⟨rfl,rfl,rfl,rfl,fun o' ho' => by rw [hreused] at ho'; cases ho'; rfl,fun hnone => by rw [hreused] at hnone; cases hnone⟩
      have hadvance := h.advance hz hmade [] (by simp)
      simpa [Reload.setZone] using hadvance
  | none =>
    cases halloc : env.shmAlloc k with
    | none => exact ⟨by simp,fun s' hs' => by cases hs'; exact hkept⟩
    | some a =>
      obtain ⟨addr,existing⟩ := a
      have hnew : ∀ a, freed a ∉ s.segments ++ [handed addr] := fun a ha => hkept a (by simpa using ha)
      dsimp only
      split_ifs
      · unfold initZone
        split
        · exact ⟨by simp,fun s' hs' => by cases hs'; exact hnew⟩
        · rename_i data hdata
          refine ⟨fun s' hs' => ?_,by simp⟩
          cases hs'
          have hmade : Made env olds z { z with addr := addr, existing := existing, data := data } :=
            ⟨rfl,rfl,rfl,rfl,fun o' ho' => (by rw [hreused] at ho'; cases ho'),fun _ => ⟨k,existing,halloc⟩⟩
          have hadvance := h.advance hz hmade [handed addr] (by simp)
          simpa [Reload.setZone] using hadvance
      · exact ⟨by simp,fun s' hs' => by cases hs'; exact hnew⟩

theorem createZones_made (olds zones : List ShmZone) :
    Triple (MadeUpTo env olds zones 0) (createZones env) (MadeUpTo env olds zones zones.length)
      (fun s => ∀ a, freed a ∉ s.segments) := by
  intro s hs
  have hloop := Triple.loop (f := createZone env) (I := MadeUpTo env olds zones) (i := 0) (n := zones.length)
    fun k _ hk => createZone_made (by omega)
  rw [Nat.zero_add] at hloop
  unfold createZones
  rw [hs.length]
  exact hloop s hs

theorem MadeUpTo.congr (h : MadeUpTo env olds zones k s) {s' : Reload A} (hs : s'.zones = s.zones) :
    MadeUpTo env olds zones k s' := by
  obtain ⟨hold,hcycle,hsegments⟩ : s'.old.sharedMemory = s.old.sharedMemory ∧
      s'.cycle.sharedMemory = s.cycle.sharedMemory ∧ s'.segments = s.segments := by simpa [Reload.zones] using hs
  exact ⟨hold.trans h.old,hcycle ▸ h.made,hcycle ▸ h.rest,hcycle ▸ h.length,hsegments ▸ h.kept⟩

theorem madeUpTo_zero (h : s.aside = (old,cycle.sharedMemory,cycle.listening,[])) :
    MadeUpTo env old.sharedMemory cycle.sharedMemory 0 s := by
  obtain ⟨hold,hzones,-,hsegments⟩ : s.old = old ∧ s.cycle.sharedMemory = cycle.sharedMemory ∧
      s.cycle.listening = cycle.listening ∧ s.segments = [] := by simpa [Reload.aside] using h
  exact ⟨by rw [hold],fun j z hj => absurd hj (Nat.not_lt_zero j),fun j _ => by rw [hzones],by rw [hzones],
    by simp [hsegments]⟩

/-- What the preparation of a cycle does to the zones. -/
theorem prepare_made (env : Env A) (old cycle : NgxCycle A) :
    Triple (· = ⟨old,cycle,[],[],[]⟩) (prepare env)
      (MadeUpTo env old.sharedMemory cycle.sharedMemory cycle.sharedMemory.length)
      (fun s => ∀ a, freed a ∉ s.segments) := by
  have hlate : Triple (MadeUpTo env old.sharedMemory cycle.sharedMemory cycle.sharedMemory.length)
      ((Attempt.always (handleListening env)).andThen (openListeningSockets env))
      (MadeUpTo env old.sharedMemory cycle.sharedMemory cycle.sharedMemory.length)
      (fun s => ∀ a, freed a ∉ s.segments) := by
    intro s hs
    have hkeeps : Keeps ((Attempt.always (handleListening env)).andThen (openListeningSockets env)) Reload.zones :=
      handleListening_keeps.andThen openListeningSockets_keeps
    obtain ⟨hok,herror⟩ := hkeeps.triple s.zones s rfl
    exact ⟨fun s' hs' => hs.congr (hok s' hs'),fun s' hs' => (hs.congr (herror s' hs')).kept⟩
  refine Triple.andThen ?_ ((createZones_made _ _).andThen hlate)
  refine (early_keeps.triple (old,cycle.sharedMemory,cycle.listening,[])).weaken ?_ ?_ ?_
  · rintro s rfl
    rfl
  · exact fun s hs => madeUpTo_zero hs
  · intro s hs
    have hsegments : s.segments = [] := congrArg (·.2.2.2) hs
    simp [hsegments]

/-! ### Names -/

theorem strncmpEq_iff {a b : Str} (h : a.length = b.length) : strncmpEq a b = true ↔ path a = path b := by
  induction a generalizing b with
  | nil => simp [List.length_eq_zero_iff.mp h.symm,strncmpEq]
  | cons x a ih =>
    obtain ⟨y,b,rfl⟩ := List.exists_cons_of_length_eq_add_one h.symm
    have hrest := ih (Nat.succ.inj h)
    unfold path at hrest ⊢
    by_cases hx : x = 0 <;> by_cases hy : y = 0
    · simp [strncmpEq,hx,hy]
    · simp [strncmpEq,hx,hy,Ne.symm hy]
    · simp [strncmpEq,hx,hy]
    · simp [strncmpEq,hx,hy,hrest]

theorem sameStr_iff {a b : Str} : sameStr a b = true ↔ a.length = b.length ∧ path a = path b := by
  unfold sameStr
  rw [Bool.and_eq_true,beq_iff_eq]
  exact and_congr_right strncmpEq_iff

theorem sameStr_comm (a b : Str) : sameStr a b = sameStr b a := by
  rw [Bool.eq_iff_iff,sameStr_iff,sameStr_iff]
  exact and_congr eq_comm eq_comm

theorem sameStr_trans {a b c : Str} (h : sameStr a b = true) (h' : sameStr b c = true) : sameStr a c = true := by
  rw [sameStr_iff] at *
  exact ⟨h.1.trans h'.1,h.2.trans h'.2⟩

/-- The zones have different names, as `ngx_shared_memory_add` sees to it. -/
def Named (zones : List ShmZone) : Prop := zones.Pairwise fun a b => sameStr a.name b.name = false

instance (zones : List ShmZone) : Decidable (Named zones) := inferInstanceAs (Decidable (List.Pairwise _ _))

/-- A zone is found by its name. -/
theorem Named.find_iff (h : Named zones) {name : Str} {z : ShmZone} :
    zones.find? (fun z => sameStr name z.name) = some z ↔ z ∈ zones ∧ sameStr name z.name = true := by
  induction zones with
  | nil => simp
  | cons w zones ih =>
    obtain ⟨hw,hrest⟩ := List.pairwise_cons.mp h
    rw [List.find?_cons]
    cases hname : sameStr name w.name with
    | true =>
      refine ⟨fun heq => ?_,fun ⟨hmem,hz⟩ => ?_⟩
      · cases heq
        exact ⟨List.mem_cons_self,hname⟩
      · rcases List.mem_cons.mp hmem with rfl | hmem
        · rfl
        · have hsame := sameStr_trans (sameStr_comm .. ▸ hname) hz
          rw [hw z hmem] at hsame
          cases hsame
    | false =>
      dsimp only
      rw [ih hrest]
      refine ⟨fun ⟨hmem,hz⟩ => ⟨List.mem_cons_of_mem w hmem,hz⟩,fun ⟨hmem,hz⟩ => ⟨?_,hz⟩⟩
      rcases List.mem_cons.mp hmem with rfl | hmem
      · rw [hname] at hz
        cases hz
      · exact hmem

theorem Named.eq_of_same (h : Named zones) {z w : ShmZone} (hz : z ∈ zones) (hw : w ∈ zones)
    (hsame : sameStr z.name w.name = true) : z = w := by
  have hself : sameStr z.name z.name = true := sameStr_iff.mpr ⟨rfl,rfl⟩
  exact Option.some.inj ((h.find_iff.mpr ⟨hz,hself⟩).symm.trans (h.find_iff.mpr ⟨hw,hsame⟩))

/-! ### Reuse and release -/

/-- An old zone and a new one are the same but perhaps for `noreuse`. -/
def ShmZone.Matches (zone ozone : ShmZone) : Prop :=
  sameStr zone.name ozone.name = true ∧ zone.tag = ozone.tag ∧ zone.size = ozone.size

instance (zone ozone : ShmZone) : Decidable (zone.Matches ozone) := inferInstanceAs (Decidable (_ ∧ _ ∧ _))

theorem reusedZone_eq_some (h : Named olds) {z o : ShmZone} :
    reusedZone olds z = some o ↔ o ∈ olds ∧ z.Matches o ∧ z.noreuse = false := by
  unfold reusedZone oldZone ShmZone.Matches
  rw [Option.filter_eq_some_iff,h.find_iff]
  simp [ShmZone.reuses,and_assoc]

section
variable (h : MadeUpTo env olds zones zones.length s)
include h

theorem MadeUpTo.made_getElem {j : ℕ} {z : ShmZone} (hj : s.cycle.sharedMemory[j]? = some z) :
    ∃ w, zones[j]? = some w ∧ Made env olds w z := by
  have hlt : j < zones.length := h.length ▸ (List.getElem?_eq_some_iff.mp hj).1
  obtain ⟨z',hz',hmade⟩ := h.made j zones[j] hlt (List.getElem?_eq_getElem hlt)
  rw [hj] at hz'
  cases hz'
  exact ⟨zones[j],List.getElem?_eq_getElem hlt,hmade⟩

/-- Every zone of the new cycle is made from one of its zones. -/
theorem MadeUpTo.of_mem {z : ShmZone} (hz : z ∈ s.cycle.sharedMemory) : ∃ w ∈ zones, Made env olds w z := by
  obtain ⟨j,hj⟩ := List.mem_iff_getElem?.mp hz
  obtain ⟨w,hw,hmade⟩ := h.made_getElem hj
  exact ⟨w,List.mem_of_getElem? hw,hmade⟩

theorem MadeUpTo.mem {w : ShmZone} (hw : w ∈ zones) : ∃ z ∈ s.cycle.sharedMemory, Made env olds w z := by
  obtain ⟨j,hj⟩ := List.mem_iff_getElem?.mp hw
  obtain ⟨z,hz,hmade⟩ := h.made j w (List.getElem?_eq_some_iff.mp hj).1 hj
  exact ⟨z,List.mem_of_getElem? hz,hmade⟩

theorem MadeUpTo.named (hnew : Named zones) : Named s.cycle.sharedMemory := by
  refine List.pairwise_iff_getElem.mpr fun i j hi hj hij => ?_
  obtain ⟨w,hw,hmade⟩ := h.made_getElem (List.getElem?_eq_getElem hi)
  obtain ⟨w',hw',hmade'⟩ := h.made_getElem (List.getElem?_eq_getElem hj)
  obtain ⟨hi',rfl⟩ := List.getElem?_eq_some_iff.mp hw
  obtain ⟨hj',rfl⟩ := List.getElem?_eq_some_iff.mp hw'
  rw [hmade.name,hmade'.name]
  exact List.pairwise_iff_getElem.mp hnew i j hi' hj' hij

/-- An old segment is given to a new zone that matches and may reuse it. -/
theorem MadeUpTo.given_iff (hold : Named olds) (hdistinct : (olds.map (·.addr)).Nodup)
    (halloc : ∀ j a existing, env.shmAlloc j = some (a,existing) → a ∉ olds.map (·.addr)) {o : ShmZone} (ho : o ∈ olds) :
    (∃ z ∈ s.cycle.sharedMemory, z.addr = o.addr) ↔ ∃ z ∈ zones, z.Matches o ∧ z.noreuse = false := by
  constructor
  · rintro ⟨z,hz,haddr⟩
    obtain ⟨w,hw,hmade⟩ := h.of_mem hz
    refine ⟨w,hw,?_⟩
    cases hreused : reusedZone olds w with
    | none =>
      obtain ⟨i,existing,hi⟩ := hmade.own hreused
      exact absurd (List.mem_map.mpr ⟨o,ho,haddr.symm⟩) (halloc i _ _ hi)
    | some o' =>
      obtain ⟨ho',hmatches⟩ := (reusedZone_eq_some hold).mp hreused
      have heq : o' = o := List.inj_on_of_nodup_map hdistinct ho' ho ((hmade.reused o' hreused).symm.trans haddr)
      exact heq ▸ hmatches
  · rintro ⟨w,hw,hmatches⟩
    obtain ⟨z,hz,hmade⟩ := h.mem hw
    exact ⟨z,hz,hmade.reused o ((reusedZone_eq_some hold).mpr ⟨ho,hmatches⟩)⟩

/-- An old zone lives on when a new one matches and it may be reused itself. -/
theorem MadeUpTo.live_iff (hnew : Named zones) (o : ShmZone) :
    o.live s.cycle.sharedMemory = true ↔ ∃ z ∈ zones, z.Matches o ∧ o.noreuse = false := by
  have hfound : o.live s.cycle.sharedMemory = true ↔
      ∃ z ∈ s.cycle.sharedMemory, z.Matches o ∧ o.noreuse = false := by
    unfold ShmZone.live ShmZone.Matches
    constructor
    · intro hlive
      split at hlive
      · rename_i z hz
        obtain ⟨hmem,hname⟩ := (h.named hnew).find_iff.mp hz
        simp only [Bool.and_eq_true,beq_iff_eq,Bool.not_eq_true'] at hlive
        exact ⟨z,hmem,⟨sameStr_comm .. ▸ hname,hlive.1.1.symm,hlive.1.2.symm⟩,hlive.2⟩
      · cases hlive
    · rintro ⟨z,hmem,⟨hname,htag,hsize⟩,hnoreuse⟩
      rw [(h.named hnew).find_iff.mpr ⟨hmem,sameStr_comm .. ▸ hname⟩]
      simp [htag,hsize,hnoreuse]
  rw [hfound]
  constructor
  · rintro ⟨z,hz,⟨hname,htag,hsize⟩,hnoreuse⟩
    obtain ⟨w,hw,hmade⟩ := h.of_mem hz
    exact ⟨w,hw,⟨hmade.name ▸ hname,hmade.tag ▸ htag,hmade.size ▸ hsize⟩,hnoreuse⟩
  · rintro ⟨w,hw,⟨hname,htag,hsize⟩,hnoreuse⟩
    obtain ⟨z,hz,hmade⟩ := h.mem hw
    exact ⟨z,hz,⟨hmade.name ▸ hname,hmade.tag ▸ htag,hmade.size ▸ hsize⟩,hnoreuse⟩

/-- An old segment is freed when its zone does not live on. -/
theorem MadeUpTo.freed_iff (hdistinct : (olds.map (·.addr)).Nodup) {o : ShmZone} (ho : o ∈ olds) :
    freed o.addr ∈ (freeZones s).segments ↔ o.live s.cycle.sharedMemory = false := by
  unfold freeZones
  simp only [List.mem_append,h.kept,false_or,List.mem_map,List.mem_filter,h.old,freed.injEq,Bool.not_eq_true']
  constructor
  · rintro ⟨o',⟨ho',hlive⟩,haddr⟩
    exact List.inj_on_of_nodup_map hdistinct ho' ho haddr ▸ hlive
  · exact fun hlive => ⟨o,⟨ho,hlive⟩,rfl⟩

end

/-- What a successful call has left. -/
theorem initCycle_done {s : Reload A} (h : initCycle env old cycle = .done s) :
    ∃ t, prepare env ⟨old,cycle,[],[],[]⟩ = .ok t ∧ s = release env t := by
  unfold initCycle at h
  split at h
  · cases h
  · rename_i t ht
    split at h
    · cases h
      exact ⟨t,ht,rfl⟩
    · cases h

/-- Reuse and release of shared memory agree when the flags of matching zones do. -/
theorem zones_released {s : Reload A} (hold : Named old.sharedMemory) (hnew : Named cycle.sharedMemory)
    (hdistinct : (old.sharedMemory.map (·.addr)).Nodup)
    (halloc : ∀ j a existing, env.shmAlloc j = some (a,existing) → a ∉ old.sharedMemory.map (·.addr))
    (h : initCycle env old cycle = .done s) :
    (∀ o ∈ old.sharedMemory, freed o.addr ∈ s.segments ↔ ¬∃ z ∈ s.cycle.sharedMemory, z.addr = o.addr) ↔
    ∀ o ∈ old.sharedMemory, ∀ z ∈ cycle.sharedMemory, z.Matches o → z.noreuse = o.noreuse := by
  obtain ⟨t,ht,rfl⟩ := initCycle_done h
  have hmade := (prepare_made env old cycle _ rfl).1 t ht
  have hstep : ∀ o ∈ old.sharedMemory,
      (freed o.addr ∈ (release env t).segments ↔ ¬∃ z ∈ (release env t).cycle.sharedMemory, z.addr = o.addr) ↔
      ((∃ z ∈ cycle.sharedMemory, z.Matches o ∧ o.noreuse = false) ↔
        ∃ z ∈ cycle.sharedMemory, z.Matches o ∧ z.noreuse = false) := by
    intro o ho
    have hfreed := hmade.freed_iff hdistinct ho
    rw [← Bool.not_eq_true,hmade.live_iff hnew] at hfreed
    have hgiven := hmade.given_iff hold hdistinct halloc ho
    rw [show (release env t).segments = (freeZones t).segments from rfl,
      show (release env t).cycle.sharedMemory = t.cycle.sharedMemory from rfl,hfreed,hgiven]
    exact not_iff_not
  constructor
  · intro hall o ho z hz hmatches
    have hiff := (hstep o ho).mp (hall o ho)
    cases hz' : z.noreuse with
    | false =>
      obtain ⟨-,-,-,ho'⟩ := hiff.mpr ⟨z,hz,hmatches,hz'⟩
      exact ho'.symm
    | true =>
      by_contra hne
      have ho' : o.noreuse = false := by simpa using Ne.symm hne
      obtain ⟨w,hw,hwmatches,hwreuse⟩ := hiff.mp ⟨z,hz,hmatches,ho'⟩
      have heq : z = w := hnew.eq_of_same hz hw (sameStr_trans hmatches.1 (sameStr_comm .. ▸ hwmatches.1))
      rw [heq,hwreuse] at hz'
      cases hz'
  · intro hall o ho
    refine (hstep o ho).mpr ⟨?_,?_⟩
    · rintro ⟨z,hz,hmatches,ho'⟩
      exact ⟨z,hz,hmatches,(hall o ho z hz hmatches).trans ho'⟩
    · rintro ⟨z,hz,hmatches,hz'⟩
      exact ⟨z,hz,hmatches,(hall o ho z hz hmatches).symm.trans hz'⟩

/-- All calls succeed, in the master. -/
def plainEnv : Env Unit where
  testConfig := false
  atomicOps := true
  newBinary := false
  process := 1
  pidOpen := 20
  pidWrite := true
  lockOpen := 21
  deleteFile _ := true
  createPaths := true
  logOpenDefault := some []
  fileOpen i := 30 + i
  fcntl _ := true
  shmAlloc i := some (9000 + i,false)
  sameAddress _ := true
  zonePool _ := true
  zoneInit _ _ data := some data
  cmpSockaddr _ _ := true
  socket i := 40 + i
  openSockets := true
  initModules := true

/-- A cycle that has only zones. -/
def zoneCycle (zones : List ShmZone) : NgxCycle Unit := ⟨false,[112],[111],[108],[],zones,[]⟩

/-- Of two old zones one is reused and one is freed; a new one gets memory of its own. -/
theorem zones_released_two : ∃ s : Reload Unit,
    initCycle plainEnv (zoneCycle [⟨[97],1,10,false,5000,false,none⟩,⟨[98],1,10,true,6000,false,none⟩])
      (zoneCycle [⟨[97],1,10,false,0,false,none⟩,⟨[99],1,20,false,0,false,none⟩]) = .done s ∧
    s.segments = [handed 9001,freed 6000] ∧ s.cycle.sharedMemory.map (·.addr) = [5000,9001] ∧
    ¬∃ z ∈ s.cycle.sharedMemory, z.addr = 6000 := by
  obtain ⟨s,hs,hsegments,haddrs⟩ : ∃ s : Reload Unit,
      initCycle plainEnv (zoneCycle [⟨[97],1,10,false,5000,false,none⟩,⟨[98],1,10,true,6000,false,none⟩])
        (zoneCycle [⟨[97],1,10,false,0,false,none⟩,⟨[99],1,20,false,0,false,none⟩]) = .done s ∧
      s.segments = [handed 9001,freed 6000] ∧ s.cycle.sharedMemory.map (·.addr) = [5000,9001] := ⟨_,rfl,rfl,rfl⟩
  have hiff := zones_released (by decide) (by decide) (by decide)
    (fun j a existing ha => by cases ha; simp [zoneCycle]; omega) hs
  refine ⟨s,hs,hsegments,haddrs,(hiff.mpr (by decide) ⟨[98],1,10,true,6000,false,none⟩ (by decide)).mp ?_⟩
  rw [hsegments]
  decide

/-- The old zone is not to be reused and the new one does not object: it gets the old segment, which is
freed nevertheless. -/
theorem freed_while_given : ¬ ∀ (env : Env Unit) (old cycle : NgxCycle Unit) (s : Reload Unit),
    Named old.sharedMemory → Named cycle.sharedMemory → (old.sharedMemory.map (·.addr)).Nodup →
    (∀ j a existing, env.shmAlloc j = some (a,existing) → a ∉ old.sharedMemory.map (·.addr)) →
    initCycle env old cycle = .done s →
    ∀ o ∈ old.sharedMemory, freed o.addr ∈ s.segments ↔ ¬∃ z ∈ s.cycle.sharedMemory, z.addr = o.addr := by
  intro hall
  have hone := hall plainEnv (zoneCycle [⟨[97],1,10,true,5000,false,none⟩]) (zoneCycle [⟨[97],1,10,false,0,false,none⟩])
    _ (by decide) (by decide) (by decide) (fun j a existing ha => by cases ha; simp [zoneCycle]; omega) rfl
    ⟨[97],1,10,true,5000,false,none⟩ (by decide)
  exact hone.mp (by decide) (by decide)

end InsideNginx.Cycle
