import InsideNginx.Cycle.Renewal
import InsideNginx.General.TransitionSystem

/-! The cycles of a process, one after another: whatever reloads it makes and however they end, and however often
it reopens its files, it has open what its present cycle and other code have open, and no shared memory but that of
this cycle and of reloads that have failed. -/
namespace InsideNginx.Cycle
open Transfer Attempt

variable {A : Type}

/-- What a record of segments hands out. -/
def obtained (segments : List (Transfer ℕ)) : List ℕ :=
  segments.filterMap fun
    | handed a => some a
    | freed _ => none

/-- A process with its cycle, the descriptors that other code has open, the segments that failed reloads have
left behind, and all descriptors and segments that have been taken and given back. -/
structure Lineage (A : Type) where
  cycle : NgxCycle A
  others : List ℤ
  lost : List ℕ
  descriptors : List (Transfer ℤ)
  segments : List (Transfer ℕ)

/-- Other code opens or closes a descriptor, or the process calls `ngx_init_cycle` for a new cycle, or
`ngx_reopen_files` for its present one. -/
inductive Change (A : Type)
  | opens (fd : ℤ)
  | closes (fd : ℤ)
  | reload (env : Env A) (cycle : NgxCycle A)
  | reopen (env : ReopenEnv) (user : ℕ) (flush : ℕ → Bool)

namespace Lineage

/-- All that is open. -/
def fds (s : Lineage A) : List ℤ := s.cycle.fds ++ s.others

/-- The process goes on with a cycle after a call. -/
def adopt (s : Lineage A) (cycle : NgxCycle A) (lost : List ℕ) (r : Reload A) : Lineage A :=
  { s with
    cycle := cycle
    lost := lost ++ s.lost
    descriptors := s.descriptors ++ r.descriptors
    segments := s.segments ++ r.segments }

/-- A step; there is none when the process exits. A reload begins where the modules have been configured. -/
def step (s : Lineage A) : Change A → Option (Lineage A)
  | .opens fd => some { s with others := fd::s.others, descriptors := s.descriptors ++ [handed fd] }
  | .closes fd => some { s with others := s.others.erase fd, descriptors := s.descriptors ++ [freed fd] }
  | .reload env cycle =>
    match initCycle env s.cycle cycle with
    | .done r => some (s.adopt r.cycle [] r)
    | .failed r => some (s.adopt r.old (obtained r.segments) r)
    | .exited _ => none
  | .reopen env user flush =>
    let r := reopenCycle env user flush s.cycle s.fds.toFinset
    some { s with cycle := s.cycle.renew r, descriptors := s.descriptors ++ r.calls }

/-- The system returns no descriptor that is open, other code closes its own ones, and no write of a pid file
fails. -/
def Allowed (s : Lineage A) : Change A → Prop
  | .opens fd => fd ≠ invalidFile ∧ fd ∉ s.fds
  | .closes fd => fd ∈ s.others ∧ fd ≠ stderr
  | .reload env cycle => env.testConfig = false ∧ env.Honest s.fds ∧ cycle.Unopened ∧ ¬PidLeaks env s.cycle cycle
  | .reopen env _ _ => env.Honest

/-- The zones of the new cycle have different names, and a zone and its old one agree on `noreuse`. -/
def Zoned (s : Lineage A) : Change A → Prop
  | .reload env cycle => Named cycle.sharedMemory ∧ env.Allots (s.cycle.addrs ++ s.lost) ∧
      ∀ o ∈ s.cycle.sharedMemory, ∀ z ∈ cycle.sharedMemory, z.Matches o → z.noreuse = o.noreuse
  | _ => True

/-- A process with a cycle, before all reloads. -/
structure Start (s : Lineage A) : Prop where
  nodup : s.fds.Nodup
  stderr : stderr ∈ s.others
  valid : invalidFile ∉ s.others
  live : s.cycle.Live
  descriptors : s.descriptors = s.fds.map handed
  named : Named s.cycle.sharedMemory
  distinct : s.cycle.addrs.Nodup
  segments : s.segments = s.cycle.addrs.map handed
  lost : s.lost = []

end Lineage

/-- The runs of a process that does not test its configuration. -/
def lineage (A : Type) : TransitionSystem (Lineage A) (Change A) :=
  (TransitionSystem.ofFunction Lineage.Start Lineage.step).restrict Lineage.Allowed

/-- The runs of a process whose configurations have zones that can be told apart. -/
def zoning (A : Type) : TransitionSystem (Lineage A) (Change A) :=
  (TransitionSystem.ofFunction Lineage.Start Lineage.step).restrict Lineage.Zoned

/-! ### Descriptors -/

namespace Lineage
variable {s s' : Lineage A} {a : Change A}

/-- What holds between two changes. -/
structure Open (s : Lineage A) : Prop where
  holds : Holds s.descriptors s.fds
  stderr : stderr ∈ s.others
  valid : invalidFile ∉ s.others
  live : s.cycle.Live

theorem fds_valid (c : NgxCycle A) : invalidFile ∉ c.fds := by
  simp only [NgxCycle.fds,OpenFile.ours,List.mem_append,List.mem_map,List.mem_filter,Bool.and_eq_true,bne_iff_ne]
  rintro (⟨l,⟨-,hvalid⟩,heq⟩ | ⟨file,⟨-,hvalid,-⟩,heq⟩) <;> exact hvalid heq

theorem Open.table (h : s.Open) : Table s.fds s.cycle where
  nodup := h.holds.nodup
  stderr := List.mem_append_right _ h.stderr
  valid hmem := (List.mem_append.mp hmem).elim (fds_valid s.cycle) h.valid
  old := (List.sublist_append_left _ _).subperm

theorem Start.opened (h : s.Start) : s.Open := by
  refine ⟨?_,h.stderr,h.valid,h.live⟩
  rw [h.descriptors]
  exact .of_nodup h.nodup

theorem Open.step (h : s.Open) (hallowed : s.Allowed a) (hstep : s.step a = some s') : s'.Open := by
  cases a with
  | opens fd =>
    obtain ⟨hvalid,hnew⟩ := hallowed
    cases hstep
    refine ⟨(h.holds.hand hnew).perm List.perm_middle.symm,List.mem_cons_of_mem _ h.stderr,?_,h.live⟩
    exact fun hmem => (List.mem_cons.mp hmem).elim (Ne.symm hvalid) h.valid
  | closes fd =>
    obtain ⟨hopen,hother⟩ := hallowed
    cases hstep
    have hperm : s.fds.Perm (fd::(s.cycle.fds ++ s.others.erase fd)) :=
      ((List.perm_cons_erase hopen).append_left _).trans List.perm_middle
    exact ⟨(h.holds.perm hperm).free,(List.mem_erase_of_ne (Ne.symm hother)).mpr h.stderr,
      fun hmem => h.valid (List.mem_of_mem_erase hmem),h.live⟩
  | reload env cycle =>
    obtain ⟨htest,henv,hcycle,hleak⟩ := hallowed
    unfold Lineage.step at hstep
    dsimp only at hstep
    split at hstep
    · rename_i r hr
      cases hstep
      exact ⟨h.holds.chain ((reload_holds henv h.table hcycle hleak).1 hr),h.stderr,h.valid,
        done_live henv h.table hcycle hleak hr⟩
    · rename_i r hr
      cases hstep
      refine ⟨h.holds.chain ((reload_holds henv h.table hcycle hleak).2 htest hr),h.stderr,h.valid,?_⟩
      have hlive := h.live
      unfold NgxCycle.Live at hlive ⊢
      rwa [← (failed_olds hr).1] at hlive
    · cases hstep
  | reopen env user flush =>
    cases hstep
    obtain ⟨hlive,hholds⟩ := renew_holds hallowed h.live h.stderr h.holds.nodup (fun fd => List.mem_toFinset) user flush
    exact ⟨h.holds.chain hholds,h.stderr,h.valid,hlive⟩

end Lineage

/-- After any reloads, done or failed, and reopenings, and whatever else is opened and closed between them, open is
what its present cycle and other code have open; each descriptor was opened when it was closed, and closed once. -/
theorem lineage_descriptors {s : Lineage A} (h : (lineage A).Reachable s) :
    Holds s.descriptors (s.cycle.fds ++ s.others) ∧ stderr ∈ s.others := by
  have hopen : s.Open := h.invariant (fun s (hs : s.Start) => hs.opened) fun s a s' _ hs hstep => hs.step hstep.1 hstep.2
  exact ⟨hopen.holds,hopen.stderr⟩

/-- All calls succeed but perhaps for the sockets; new descriptors have numbers from `base` on. -/
def countingEnv (base : ℤ) (segment : ℕ) (openSockets : Bool) : Env Unit :=
  { plainEnv with
    fileOpen := fun i => base + 2 * i
    socket := fun i => base + 1 + 2 * i
    shmAlloc := fun i => some (segment + i,false)
    openSockets := openSockets }

theorem countingEnv_honest {base : ℤ} (segment : ℕ) (openSockets : Bool) {H : List ℤ}
    (hH : ∀ fd ∈ H, fd < base ∧ fd ≠ 20 ∧ fd ≠ 21) : (countingEnv base segment openSockets).Honest H where
  pid hmem := (hH 20 hmem).2.1 rfl
  lock hmem := (hH 21 hmem).2.2 rfl
  file i hmem := by have := (hH _ hmem).1; simp only [countingEnv] at this; omega
  socket i hmem := by have := (hH _ hmem).1; simp only [countingEnv] at this; omega
  files i j _ h := by simp only [countingEnv] at h; omega
  sockets i j _ h := by simp only [countingEnv] at h; omega
  apart i j _ := by simp only [countingEnv]; omega
  log files h := by cases h; simp

theorem countingEnv_allots {base : ℤ} {segment : ℕ} (openSockets : Bool) {G : List ℕ} (hG : ∀ a ∈ G, a < segment) :
    (countingEnv base segment openSockets).Allots G where
  fresh j a existing h hmem := by
    cases h
    have := hG _ hmem
    omega
  once i j a existing existing' h h' := by
    cases h
    have := (Prod.mk.inj (Option.some.inj h')).1
    omega

/-- A cycle with sockets, a file and zones. -/
def fullCycle (sockets : List ℤ) (file : ℤ) (zones : List ShmZone) : NgxCycle Unit :=
  { socketCycle [112] sockets file with sharedMemory := zones }

/-- Two sockets, a file and two zones, and `stderr` open. -/
def firstCycle : Lineage Unit where
  cycle := fullCycle [5,6] 7 [⟨[97],1,10,false,5000,false,none⟩,⟨[98],1,10,true,6000,false,none⟩]
  others := [2]
  lost := []
  descriptors := [handed 5,handed 6,handed 7,handed 2]
  segments := [handed 5000,handed 6000]

def secondCycle : NgxCycle Unit := fullCycle [-1] (-1) [⟨[97],1,10,false,0,false,none⟩,⟨[99],1,20,false,0,false,none⟩]

def thirdCycle : NgxCycle Unit := fullCycle [-1,-1] (-1) [⟨[100],1,20,false,0,false,none⟩]

/-- A reload, and one whose sockets cannot be opened. -/
def twoReloads : List (Change Unit) :=
  [.reload (countingEnv 30 9000 true) secondCycle,.opens 60,.reload (countingEnv 130 9100 false) thirdCycle]

theorem firstCycle_start : firstCycle.Start :=
  ⟨by decide,by decide,by decide,by decide,rfl,by decide,by decide,rfl,rfl⟩

theorem fullCycle_unopened {sockets : List ℤ} (zones : List ShmZone) (h : ∀ fd ∈ sockets, fd = -1) :
    (fullCycle sockets (-1) zones).Unopened := by
  refine ⟨by simp [fullCycle,socketCycle,OpenFile.Unopened,OpenFile.ours,invalidFile],fun l hl => ?_⟩
  obtain ⟨fd,hfd,rfl⟩ := List.mem_map.mp hl
  exact ⟨h fd hfd,rfl,rfl⟩

theorem twoReloads_reachable : ∃ s, TransitionSystem.replay Lineage.step firstCycle twoReloads = some s ∧
    (lineage Unit).Reachable s ∧ (zoning Unit).Reachable s := by
  -- both conditions hold of each step
  suffices h : ∃ s, TransitionSystem.replay Lineage.step firstCycle twoReloads = some s ∧
      ((TransitionSystem.ofFunction Lineage.Start Lineage.step).restrict fun s a => s.Zoned a ∧ s.Allowed a).Reachable s by
    obtain ⟨s,hs,hreach⟩ := h
    exact ⟨s,hs,hreach.restrict_mono fun _ _ => And.right,hreach.restrict_mono fun _ _ => And.left⟩
  obtain ⟨s₁,h₁⟩ : ∃ s₁, firstCycle.step (.reload (countingEnv 30 9000 true) secondCycle) = some s₁ := ⟨_,rfl⟩
  obtain ⟨s₂,h₂⟩ : ∃ s₂, s₁.step (.opens 60) = some s₂ := ⟨_,rfl⟩
  obtain ⟨s₃,h₃⟩ : ∃ s₃, s₂.step (.reload (countingEnv 130 9100 false) thirdCycle) = some s₃ := by
    cases h₁
    cases h₂
    exact ⟨_,rfl⟩
  have hfds : s₁.fds = [5,30,2] ∧ s₂.fds = [5,30,60,2] ∧ s₂.cycle.addrs ++ s₂.lost = [5000,9001] := by
    cases h₁
    cases h₂
    decide
  have hpid : ∀ s : Lineage Unit, s = firstCycle ∨ s = s₂ → ∀ cycle ∈ [secondCycle,thirdCycle], cycle.newPid s.cycle = false := by
    rintro s (rfl | rfl)
    · decide
    · cases h₁
      cases h₂
      decide
  have hreach₁ : ((TransitionSystem.ofFunction Lineage.Start Lineage.step).restrict fun s a =>
      s.Zoned a ∧ s.Allowed a).Reachable s₁ := by
    have hzoned : firstCycle.Zoned (.reload (countingEnv 30 9000 true) secondCycle) :=
      ⟨by decide,countingEnv_allots true (by decide),by decide⟩
    have hallowed : firstCycle.Allowed (.reload (countingEnv 30 9000 true) secondCycle) := by
      refine ⟨rfl,countingEnv_honest 9000 true (by decide),fullCycle_unopened _ (by decide),fun hleak => ?_⟩
      exact absurd (hleak.2.2.1.symm.trans (hpid _ (.inl rfl) _ (by simp))) Bool.noConfusion
    exact .step (.init firstCycle_start) ⟨⟨hzoned,hallowed⟩,h₁⟩
  have hreach₂ : ((TransitionSystem.ofFunction Lineage.Start Lineage.step).restrict fun s a =>
      s.Zoned a ∧ s.Allowed a).Reachable s₂ := by
    have hallowed : s₁.Allowed (.opens 60) := ⟨by decide,by rw [hfds.1]; decide⟩
    exact .step hreach₁ ⟨⟨show s₁.Zoned (.opens 60) from trivial,hallowed⟩,h₂⟩
  refine ⟨s₃,by simp [twoReloads,TransitionSystem.replay,h₁,h₂,h₃],?_⟩
  have hzoned : s₂.Zoned (.reload (countingEnv 130 9100 false) thirdCycle) := by
    refine ⟨by decide,hfds.2.2 ▸ countingEnv_allots false (by decide),?_⟩
    cases h₁
    cases h₂
    decide
  have hallowed : s₂.Allowed (.reload (countingEnv 130 9100 false) thirdCycle) := by
    refine ⟨rfl,hfds.2.1 ▸ countingEnv_honest 9100 false (by decide),fullCycle_unopened _ (by decide),fun hleak => ?_⟩
    exact absurd (hleak.2.2.1.symm.trans (hpid _ (.inr rfl) _ (by simp))) Bool.noConfusion
  exact .step hreach₂ ⟨⟨hzoned,hallowed⟩,h₃⟩

/-- One old socket is inherited; what the second reload of `twoReloads` opens is closed again. -/
theorem lineage_descriptors_two : ∃ s : Lineage Unit, (lineage Unit).Reachable s ∧
    s.descriptors = [handed 5,handed 6,handed 7,handed 2,handed 30,freed 6,freed 7,handed 60,handed 130,
      handed 133,freed 130,freed 133] ∧
    Holds s.descriptors [5,30,60,2] := by
  obtain ⟨s,hs,hreach,-⟩ := twoReloads_reachable
  obtain ⟨hholds,-⟩ := lineage_descriptors hreach
  have hfds : s.cycle.fds ++ s.others = [5,30,60,2] := by
    cases hs
    decide
  exact ⟨s,hreach,by cases hs; decide,hfds ▸ hholds⟩

namespace Lineage
variable {s s' : Lineage A} {a : Change A}

/-- What holds of the segments between two changes. -/
structure Allotted (s : Lineage A) : Prop where
  holds : Holds s.segments (s.cycle.addrs ++ s.lost)
  named : Named s.cycle.sharedMemory

theorem Start.allotted (h : s.Start) : s.Allotted := by
  refine ⟨?_,h.named⟩
  rw [h.segments,h.lost,List.append_nil]
  exact .of_nodup h.distinct

/-- New segments are others than those that are out. -/
theorem Allotted.nodup_new (h : s.Allotted) (henv : env.Allots (s.cycle.addrs ++ s.lost)) {r : Reload A} {new : List ℕ}
    (hnew : Obtained env r new) : (new ++ (s.cycle.addrs ++ s.lost)).Nodup := by
  refine List.nodup_append'.mpr ⟨hnew.2.1,h.holds.nodup,fun a ha hout => ?_⟩
  obtain ⟨j,existing,halloc⟩ := hnew.2.2 a ha
  exact henv.fresh j a existing halloc hout

theorem obtained_handed (new : List ℕ) : Cycle.obtained (new.map handed) = new := by
  simp [Cycle.obtained,List.filterMap_map]

theorem Allotted.done (h : s.Allotted) {env : Env A} {cycle : NgxCycle A} (hzoned : s.Zoned (.reload env cycle)) {r : Reload A}
    (hr : initCycle env s.cycle cycle = .done r) : (s.adopt r.cycle [] r).Allotted := by
  obtain ⟨hnew,henv,hagree⟩ := hzoned
  obtain ⟨t,ht,rfl⟩ := initCycle_done hr
  have htaken := (prepare_taken henv s.cycle cycle (start s.cycle cycle) rfl).1 t ht
  have hfull : t.cycle.sharedMemory.take cycle.sharedMemory.length = t.cycle.sharedMemory :=
    List.take_of_length_le htaken.made.length.le
  have hobtained := htaken.obtained
  rw [hfull] at hobtained
  have hdistinct := (List.nodup_append'.mp h.holds.nodup).1
  have hall := h.holds.exchange (h.nodup_new henv hobtained)
    (htaken.handover h.named hnew hdistinct hagree s.lost)
  have hsegments : (release env t).segments = (ownAddrs s.cycle.sharedMemory t.cycle.sharedMemory).map handed ++
      ((s.cycle.sharedMemory.filter fun o => !o.live t.cycle.sharedMemory).map (·.addr)).map freed := by
    rw [← hobtained.1,← htaken.made.old,List.map_map]
    rfl
  rw [← hsegments] at hall
  exact ⟨hall,htaken.made.named hnew⟩

/-- A failed call frees no segment. -/
theorem Allotted.failed (h : s.Allotted) {env : Env A} {cycle : NgxCycle A} (hzoned : s.Zoned (.reload env cycle)) {r : Reload A}
    (hr : initCycle env s.cycle cycle = .failed r) : (s.adopt r.old (Cycle.obtained r.segments) r).Allotted := by
  obtain ⟨-,henv,-⟩ := hzoned
  obtain ⟨-,-,hsame⟩ := failed_olds hr
  obtain ⟨t,ht,rfl⟩ := initCycle_failed hr
  obtain ⟨new,hobtained⟩ := (prepare_taken henv s.cycle cycle (start s.cycle cycle) rfl).2 t ht
  have hsegments : (rollback env t).segments = new.map handed := by
    rw [← hobtained.1]
    unfold rollback
    dsimp only
    split_ifs <;> rfl
  have hall := (h.holds.handAll (h.nodup_new henv hobtained)).perm
    (List.perm_append_comm_assoc new s.cycle.addrs s.lost)
  rw [← hsegments] at hall
  refine ⟨?_,hsame ▸ h.named⟩
  have haddrs : (rollback env t).old.addrs = s.cycle.addrs := congrArg (List.map ShmZone.addr) hsame
  have hlost : Cycle.obtained (rollback env t).segments = new := by rw [hsegments,obtained_handed]
  change Holds (s.segments ++ (rollback env t).segments)
    ((rollback env t).old.addrs ++ (Cycle.obtained (rollback env t).segments ++ s.lost))
  rw [haddrs,hlost]
  exact hall

theorem Allotted.step (h : s.Allotted) (hzoned : s.Zoned a) (hstep : s.step a = some s') : s'.Allotted := by
  cases a with
  | opens fd =>
    cases hstep
    exact ⟨h.holds,h.named⟩
  | closes fd =>
    cases hstep
    exact ⟨h.holds,h.named⟩
  | reload env cycle =>
    unfold Lineage.step at hstep
    dsimp only at hstep
    split at hstep
    · rename_i r hr
      cases hstep
      exact h.done hzoned hr
    · rename_i r hr
      cases hstep
      exact h.failed hzoned hr
    · cases hstep
  | reopen env user flush =>
    cases hstep
    exact ⟨h.holds,h.named⟩

end Lineage

/-- After any reloads, done or failed, the segments that are out are those of the zones of the present cycle, and
those that a failed reload had obtained; each was out when it was freed, and freed once. -/
theorem lineage_segments {s : Lineage A} (h : (zoning A).Reachable s) :
    Holds s.segments (s.cycle.addrs ++ s.lost) ∧ Named s.cycle.sharedMemory := by
  have hallotted : s.Allotted := h.invariant (fun s (hs : s.Start) => hs.allotted)
    fun s a s' _ hs hstep => hs.step hstep.1 hstep.2
  exact ⟨hallotted.holds,hallotted.named⟩

/-- The second reload of `twoReloads` has obtained a segment before it failed. -/
theorem lineage_segments_two : ∃ s : Lineage Unit, (zoning Unit).Reachable s ∧
    s.segments = [handed 5000,handed 6000,handed 9001,freed 6000,handed 9100] ∧
    Holds s.segments [5000,9001,9100] := by
  obtain ⟨s,hs,-,hreach⟩ := twoReloads_reachable
  obtain ⟨hholds,-⟩ := lineage_segments hreach
  have haddrs : s.cycle.addrs ++ s.lost = [5000,9001,9100] := by
    cases hs
    decide
  exact ⟨s,hreach,by cases hs; decide,haddrs ▸ hholds⟩

end InsideNginx.Cycle
