import InsideNginx.Process.Children

/-! Which ends of channels the master holds open, and that it closes each of them once, as long as
no respawn fails after its channel has been made. -/
namespace InsideNginx.Process

/-! ### The ledger of descriptors -/

/-- The ends of the pair that `socketpair` has returned. -/
def Pair.ends : Pair → Option (ℤ × ℤ)
  | .none => Option.none
  | .unusable fd0 fd1 | .ready fd0 fd1 => some (fd0,fd1)

/-- The numbers that are open ends of channels, with slot and side, the latest channel of each slot,
and whether a number was closed that was no open end. -/
structure Ledger where
  owner : ℤ → Option (ℕ × Bool)
  latest : ℕ → ℤ × ℤ
  twice : Bool

namespace Ledger

def opens (l : Ledger) (i : ℕ) (fd0 fd1 : ℤ) : Ledger :=
  { l with
    owner := Function.update (Function.update l.owner fd0 (some (i,false))) fd1 (some (i,true))
    latest := Function.update l.latest i (fd0,fd1) }

/-- `close`, which does nothing for -1. -/
def closes (l : Ledger) (fd : ℤ) : Ledger :=
  if fd = -1 then l
  else { l with owner := Function.update l.owner fd none, twice := l.twice || (l.owner fd).isNone }

/-- What `socketpair` promises: two numbers that are not open. -/
def Fresh (l : Ledger) (fd0 fd1 : ℤ) : Prop :=
  0 ≤ fd0 ∧ 0 ≤ fd1 ∧ fd0 ≠ fd1 ∧ l.owner fd0 = none ∧ l.owner fd1 = none

instance (l : Ledger) (fd0 fd1 : ℤ) : Decidable (l.Fresh fd0 fd1) :=
  inferInstanceAs (Decidable (_ ∧ _ ∧ _ ∧ _ ∧ _))

/-- Follow an event of a step whose call of `ngx_spawn_process`, if there is one, is for the slot `i`
and gets the pair `ends`. -/
def follow (i : ℕ) (ends : Option (ℤ × ℤ)) (l : Ledger) : Event → Option Ledger
  | .spawn _ =>
    match ends with
    | none => some l
    | some (fd0,fd1) => if l.Fresh fd0 fd1 then some (l.opens i fd0 fd1) else none
  | .close fd => some (l.closes fd)
  | _ => some l

end Ledger

/-- The pair that a call of `ngx_spawn_process` gets, if it gets so far. -/
def Master.pairFor (s : Master) (mode : Respawn) (o : Outcome) : Option (ℤ × ℤ) :=
  if mode = .detached ∨ mode.isSlot = false ∧ s.spawnSlot mode = maxProcesses then none else o.pair.ends

/-- The pair that a step gets. -/
def Run.pairFor (s : Run) : Action → Option (ℤ × ℤ)
  | .spawn mode o => s.master.pairFor mode o
  | .slot o => o.pair.ends
  | _ => none

/-- A run with the ledger of its descriptors. -/
structure Ledgered where
  run : Run
  ledger : Ledger

/-- A step; `none` when it may not be made, or `socketpair` would break its promise. -/
def Ledgered.step (s : Ledgered) (a : Action) : Option Ledgered := do
  let run ← s.run.step a
  let ledger ← (run.master.log.drop s.run.master.log.length).foldlM
    (Ledger.follow (s.run.target a) (s.run.pairFor a)) s.ledger
  return ⟨run,ledger⟩

/-- The runs from an empty table on, when no channel is open. -/
def ledgering : TransitionSystem Ledgered Action :=
  .ofFunction (fun s => mastering.init s.run ∧ s.ledger.owner = (fun _ => none) ∧ s.ledger.twice = false)
    Ledgered.step

/-- The child of a slot has exited and is to be respawned. -/
def Master.Respawns (s : Master) (i : ℕ) : Prop :=
  (s.processes i).pid ≠ -1 ∧ (s.processes i).exited = true ∧
    ((s.processes i).respawn && !(s.processes i).exiting && !s.flags.terminate && !s.flags.quit) = true

/-- A respawn that gets a pair forks a child. -/
def Ledgered.Sturdy (s : Ledgered) : Action → Prop
  | .slot o => ∀ i ∈ s.run.phase.slot?, s.run.master.Respawns i →
      o.pair.ends = none ∨ (o.forks (.slot i)).isSome
  | _ => True

instance (s : Master) (i : ℕ) : Decidable (s.Respawns i) := inferInstanceAs (Decidable (_ ∧ _ ∧ _))

instance (s : Ledgered) (a : Action) : Decidable (s.Sturdy a) :=
  match a with
  | .slot o => inferInstanceAs (Decidable (∀ i ∈ s.run.phase.slot?, s.run.master.Respawns i →
      o.pair.ends = none ∨ (o.forks (.slot i)).isSome))
  | .spawn _ _ | .exit _ _ | .flags _ _ _ | .reap | .reaped => inferInstanceAs (Decidable True)

/-! ### The ledger along the events -/

namespace Ledger
variable {l l' : Ledger} {i : ℕ} {fd fd0 fd1 : ℤ}

/-- An end that no entry has, or that is the open end of the latest channel of a slot. -/
def Own (l : Ledger) (i : ℕ) (side : Bool) (fd : ℤ) : Prop :=
  fd = -1 ∨ l.owner fd = some (i,side) ∧ (if side then (l.latest i).2 else (l.latest i).1) = fd

/-- An entry with the ends of its own latest channel. -/
def OwnBoth (l : Ledger) (i : ℕ) (p : Entry) : Prop := l.Own i false p.channel0 ∧ l.Own i true p.channel1

/-- The ends of a new channel are its own, and all others stay. -/
theorem Own.opens {j : ℕ} {side : Bool} (h : l.Own j side fd) (hfresh : l.Fresh fd0 fd1) (hj : j ≠ i) :
    (l.opens i fd0 fd1).Own j side fd := by
  rcases h with rfl | ⟨howner,hlatest⟩
  · exact .inl rfl
  · obtain ⟨-,-,-,h0,h1⟩ := hfresh
    have hne0 : fd ≠ fd0 := fun he => by rw [he,h0] at howner; cases howner
    have hne1 : fd ≠ fd1 := fun he => by rw [he,h1] at howner; cases howner
    exact .inr ⟨by simp [Ledger.opens,hne0,hne1,howner],by simpa [Ledger.opens,hj] using hlatest⟩

theorem opens_own (hfresh : l.Fresh fd0 fd1) {p : Entry} (h0 : p.channel0 = fd0) (h1 : p.channel1 = fd1) :
    (l.opens i fd0 fd1).OwnBoth i p := by
  have hne := hfresh.2.2.1
  exact ⟨.inr ⟨by simp [Ledger.opens,h0,hne],by simp [Ledger.opens,h0]⟩,
    .inr ⟨by simp [Ledger.opens,h1],by simp [Ledger.opens,h1]⟩⟩

/-- To close an own end leaves the other ends open, and is right. -/
theorem Own.closes {j : ℕ} {side side' : Bool} {fd' : ℤ} (h : l.Own j side fd) (hown : l.Own i side' fd')
    (hne : (j,side) ≠ (i,side')) : (l.closes fd').Own j side fd := by
  rcases h with rfl | ⟨howner,hlatest⟩
  · exact .inl rfl
  · rcases hown with rfl | ⟨howner',-⟩
    · exact .inr ⟨howner,hlatest⟩
    · have hfd : fd ≠ fd' := by
        rintro rfl
        rw [howner] at howner'
        exact hne (Option.some.inj howner')
      unfold Ledger.closes
      split
      · exact .inr ⟨howner,hlatest⟩
      · exact .inr ⟨by simp [hfd,howner],hlatest⟩

theorem closes_twice {side : Bool} (h : l.Own i side fd) (htwice : l.twice = false) :
    (l.closes fd).twice = false := by
  unfold closes
  split
  · exact htwice
  · rename_i hfd
    simp [htwice,(h.resolve_left hfd).1]

/-- To close both ends of an entry is right, and leaves the ends of the others open. -/
theorem OwnBoth.closes {p : Entry} (h : l.OwnBoth i p) (htwice : l.twice = false) :
    ((l.closes p.channel0).closes p.channel1).twice = false ∧
    ∀ j side fd, j ≠ i → l.Own j side fd → ((l.closes p.channel0).closes p.channel1).Own j side fd := by
  have h1 : (l.closes p.channel0).Own i true p.channel1 := h.2.closes h.1 (by simp)
  refine ⟨closes_twice h1 (closes_twice h.1 htwice),fun j side fd hj hown => ?_⟩
  exact (hown.closes h.1 (by simp [hj])).closes h1 (by simp [hj])

end Ledger

/-- An event that neither spawns nor closes. -/
def Event.Mute : Event → Prop
  | .spawn _ | .close _ => False
  | _ => True

theorem Ledger.follow_mute {i : ℕ} {ends : Option (ℤ × ℤ)} {l : Ledger} {events : List Event}
    (h : ∀ e ∈ events, e.Mute) : events.foldlM (follow i ends) l = some l := by
  induction events with
  | nil => rfl
  | cons e events ih =>
    have hhead : follow i ends l e = some l := by
      have := h e List.mem_cons_self
      cases e <;> simp_all [Event.Mute,follow]
    rw [List.foldlM_cons,hhead]
    exact ih fun e he => h e (List.mem_cons_of_mem _ he)

theorem Ledger.follow_spawn {i : ℕ} {ends : Option (ℤ × ℤ)} {l l' : Ledger} {mode : Respawn} {events : List Event}
    (h : (.spawn mode :: events).foldlM (follow i ends) l = some l') :
    ends = none ∧ events.foldlM (follow i ends) l = some l' ∨
    ∃ fd0 fd1, ends = some (fd0,fd1) ∧ l.Fresh fd0 fd1 ∧
      events.foldlM (follow i ends) (l.opens i fd0 fd1) = some l' := by
  rw [List.foldlM_cons] at h
  obtain ⟨l₁,hl₁,hrest⟩ := Option.bind_eq_some_iff.mp h
  cases ends with
  | none =>
    cases hl₁
    exact .inl ⟨rfl,hrest⟩
  | some ends =>
    obtain ⟨hfresh,heq⟩ := Option.ite_none_right_eq_some.mp hl₁
    cases heq
    exact .inr ⟨ends.1,ends.2,rfl,hfresh,hrest⟩

theorem Ledger.closes_none (l : Ledger) : l.closes (-1) = l := if_pos rfl

/-! ### What a spawn does to the channels -/

namespace Master
variable {s s' : Master} {mode : Respawn} {o : Outcome}

theorem setMode_channels (p : Entry) (mode : Respawn) :
    (p.setMode mode).channel0 = p.channel0 ∧ (p.setMode mode).channel1 = p.channel1 := by
  cases mode <;> exact ⟨rfl,rfl⟩

/-- The ends that an entry gets: those of the pair, or none. -/
def Ends (ends : Option (ℤ × ℤ)) (fd0 fd1 : ℤ) : Prop := ends = some (fd0,fd1) ∨ ends = none ∧ fd0 = -1 ∧ fd1 = -1

theorem Ends.of_none {ends : Option (ℤ × ℤ)} {fd0 fd1 : ℤ} (h : Ends ends fd0 fd1) (hends : ends = none) :
    fd0 = -1 ∧ fd1 = -1 := by
  rcases h with he | ⟨-,h⟩
  · rw [hends] at he
    cases he
  · exact h

theorem Ends.of_some {ends : Option (ℤ × ℤ)} {fd0 fd1 a b : ℤ} (h : Ends ends fd0 fd1) (hends : ends = some (a,b)) :
    fd0 = a ∧ fd1 = b := by
  rcases h with he | ⟨he,-⟩
  · rw [hends] at he
    cases he
    exact ⟨rfl,rfl⟩
  · rw [hends] at he
    cases he

/-- What becomes of a channel that has been set up: it is closed, or the new child has it. -/
theorem forkChild_channels {t : Master} {i : ℕ} {fd0 fd1 : ℤ} {fork : Option ℤ} {child : Option Child}
    (h : (t.setChannel i fd0 fd1).forkChild i mode fork = (s',child)) :
    (fork = none ∧ child = none ∧ s'.lastProcess = t.lastProcess ∧ s'.log = t.log ++ [.close fd0,.close fd1] ∧
      s'.processes = Function.update t.processes i { t.processes i with channel0 := fd0, channel1 := fd1 }) ∨
    child ≠ none ∧ (s'.processes i).channel0 = fd0 ∧ (s'.processes i).channel1 = fd1 := by
  unfold forkChild at h
  cases fork with
  | none =>
    cases h
    exact .inl ⟨rfl,rfl,rfl,by simp [closeChannel,emit,setChannel,setEntry],rfl⟩
  | some pid =>
    refine .inr ?_
    dsimp only [setEntry,emit,setChannel] at h
    split at h <;> cases h <;> simp [setMode_channels]

/-- A call that goes on with a channel. -/
theorem spawnProcess_opened {t : Master} {fd0 fd1 : ℤ} {child : Option Child} (ht : t.processes = s.processes)
    (hlast : t.lastProcess = s.lastProcess) (hlog : t.log = s.log ++ [.spawn mode])
    (hspawn : s.spawnProcess mode o = .ok (s',child))
    (h : (t.setChannel (s.spawnSlot mode) fd0 fd1).forkChild (s.spawnSlot mode) mode o.pid? = (s',child)) :
    (o.forks mode = none ∧ s'.lastProcess = s.lastProcess ∧
      s'.processes = Function.update s.processes (s.spawnSlot mode)
        { s.processes (s.spawnSlot mode) with channel0 := fd0, channel1 := fd1 } ∧
      s'.log = s.log ++ [.spawn mode,.close fd0,.close fd1]) ∨
    ∃ pid p, SpawnForks s mode pid p s' ∧ p.channel0 = fd0 ∧ p.channel1 = fd1 := by
  rcases forkChild_channels h with ⟨hfork,-,hlast',hlog',hprocesses⟩ | ⟨hchild,h0,h1⟩
  · refine .inl ⟨by simp [Outcome.forks,hfork],hlast'.trans hlast,?_,?_⟩
    · rw [hprocesses,ht]
    · rw [hlog',hlog,List.append_assoc]
      rfl
  · rcases spawnProcess_cases hspawn with ⟨hnone,-,-⟩ | ⟨pid,p,-,-,hforks⟩
    · exact absurd hnone hchild
    · rw [hforks.processes,Function.update_self] at h0 h1
      exact .inr ⟨pid,p,hforks,h0,h1⟩

/-- What becomes of the channels in a call of `ngx_spawn_process`: it gets no pair and changes
nothing, or it fails and closes what it got, or the new child has it. -/
theorem spawnProcess_channels {child : Option Child} (h : s.spawnProcess mode o = .ok (s',child)) :
    (s'.processes = s.processes ∧ s'.lastProcess = s.lastProcess ∧ s.pairFor mode o = none ∧
      s'.log = s.log ++ [.spawn mode]) ∨
    ∃ fd0 fd1, Ends (s.pairFor mode o) fd0 fd1 ∧
      ((o.forks mode = none ∧ s'.lastProcess = s.lastProcess ∧
        s'.processes = Function.update s.processes (s.spawnSlot mode)
          { s.processes (s.spawnSlot mode) with channel0 := fd0, channel1 := fd1 } ∧
        s'.log = s.log ++ [.spawn mode,.close fd0,.close fd1]) ∨
      ∃ pid p, SpawnForks s mode pid p s' ∧ p.channel0 = fd0 ∧ p.channel1 = fd1) := by
  have hspawn := h
  unfold spawnProcess at h
  dsimp only at h
  split at h
  · rename_i hfull
    rw [Bool.and_eq_true,Bool.not_eq_true',decide_eq_true_eq] at hfull
    cases h
    exact .inl ⟨rfl,rfl,if_pos (.inr hfull),rfl⟩
  rename_i hroom
  split at h
  · cases h
  have hpair : mode ≠ .detached → s.pairFor mode o = o.pair.ends := fun hmode =>
    if_neg fun hnot => hnot.elim hmode fun hfull => hroom (by simp [hfull])
  by_cases hmode : mode = .detached
  · simp only [openChannel,if_pos hmode] at h
    refine .inr ⟨-1,-1,.inr ⟨if_pos (.inl hmode),rfl,rfl⟩,?_⟩
    exact spawnProcess_opened (t := s.emit (.spawn mode)) rfl rfl rfl hspawn (Except.ok.inj h)
  simp only [openChannel,if_neg hmode] at h
  cases hends : o.pair with
  | none =>
    rw [hends] at h
    cases h
    exact .inl ⟨rfl,rfl,by rw [hpair hmode,hends]; rfl,rfl⟩
  | unusable fd0 fd1 =>
    rw [hends] at h
    cases h
    refine .inr ⟨fd0,fd1,.inl (by rw [hpair hmode,hends]; rfl),.inl ⟨?_,rfl,rfl,?_⟩⟩
    · simp [Outcome.forks,hends,Pair.opens,hmode]
    · simp [closeChannel,emit,setChannel,setEntry]
  | ready fd0 fd1 =>
    rw [hends] at h
    refine .inr ⟨fd0,fd1,.inl (by rw [hpair hmode,hends]; rfl),?_⟩
    exact spawnProcess_opened (t := { s.emit (.spawn mode) with channel := fd1 }) rfl rfl rfl hspawn
      (Except.ok.inj h)

end Master

/-! ### The invariant -/

/-- The entries in use have the open ends of their own latest channels, and nothing was closed twice. -/
structure Master.Backed (s : Master) (l : Ledger) : Prop where
  twice : l.twice = false
  own : ∀ i < s.lastProcess, (s.processes i).pid ≠ -1 → l.OwnBoth i (s.processes i)

namespace Master
variable {s s' : Master} {mode : Respawn} {o : Outcome} {l l' : Ledger}

theorem Backed.congr (h : s.Backed l) (hlast : s'.lastProcess = s.lastProcess)
    (hprocesses : s'.processes = s.processes) : s'.Backed l :=
  ⟨h.twice,fun i hi hused => by rw [hprocesses] at hused ⊢; exact h.own i (hlast ▸ hi) hused⟩

/-- An entry without a channel may be anywhere. -/
theorem Backed.setChannel (h : s.Backed l) {i : ℕ} {p : Entry} (h0 : p.channel0 = -1) (h1 : p.channel1 = -1)
    (hprocesses : s'.processes = Function.update s.processes i p)
    (hlast : ∀ j < s'.lastProcess, j ≠ i → j < s.lastProcess) : s'.Backed l := by
  refine ⟨h.twice,fun j hj hused => ?_⟩
  rw [hprocesses] at hused ⊢
  by_cases hji : j = i
  · rw [hji,Function.update_self]
    exact ⟨.inl h0,.inl h1⟩
  · rw [Function.update_of_ne hji] at hused ⊢
    exact h.own j (hlast j hj hji) hused

/-- The entry of a slot gets a new channel. -/
theorem Backed.opens (h : s.Backed l) {i : ℕ} {p : Entry} {fd0 fd1 : ℤ} (hfresh : l.Fresh fd0 fd1)
    (h0 : p.channel0 = fd0) (h1 : p.channel1 = fd1) (hprocesses : s'.processes = Function.update s.processes i p)
    (hlast : ∀ j < s'.lastProcess, j ≠ i → j < s.lastProcess) : s'.Backed (l.opens i fd0 fd1) := by
  refine ⟨h.twice,fun j hj hused => ?_⟩
  rw [hprocesses] at hused ⊢
  by_cases hji : j = i
  · rw [hji,Function.update_self]
    exact Ledger.opens_own hfresh h0 h1
  · rw [Function.update_of_ne hji] at hused ⊢
    obtain ⟨hown0,hown1⟩ := h.own j (hlast j hj hji) hused
    exact ⟨hown0.opens hfresh hji,hown1.opens hfresh hji⟩

/-- The ends of an entry are closed, which is not in use after it, or has no channel then. -/
theorem Backed.closes (h : s.Backed l) {i : ℕ} {p q : Entry} (hown : l.OwnBoth i p)
    (hprocesses : s'.processes = Function.update s.processes i q) (hlast : s'.lastProcess = s.lastProcess)
    (hq : i < s.lastProcess → q.pid ≠ -1 → q.channel0 = -1 ∧ q.channel1 = -1) :
    s'.Backed ((l.closes p.channel0).closes p.channel1) := by
  obtain ⟨htwice,hother⟩ := hown.closes h.twice
  refine ⟨htwice,fun j hj hused => ?_⟩
  rw [hprocesses] at hused ⊢
  rw [hlast] at hj
  by_cases hji : j = i
  · subst hji
    rw [Function.update_self] at hused ⊢
    obtain ⟨h0,h1⟩ := hq hj hused
    exact ⟨.inl h0,.inl h1⟩
  · rw [Function.update_of_ne hji] at hused ⊢
    obtain ⟨hown0,hown1⟩ := h.own j hj hused
    exact ⟨hother j _ _ hji hown0,hother j _ _ hji hown1⟩

/-- A part of a step that keeps the invariant, when the ledger follows its events. -/
def Carries (i : ℕ) (ends : Option (ℤ × ℤ)) (s s' : Master) : Prop :=
  ∃ events, s'.log = s.log ++ events ∧ ∀ l l', s.Backed l →
    events.foldlM (Ledger.follow i ends) l = some l' → s'.Backed l'

variable {i : ℕ} {ends : Option (ℤ × ℤ)}

theorem Carries.trans {t : Master} (h : Carries i ends s t) (h' : Carries i ends t s') : Carries i ends s s' := by
  obtain ⟨xs,hxs,hkeep⟩ := h
  obtain ⟨ys,hys,hkeep'⟩ := h'
  refine ⟨xs ++ ys,by rw [hys,hxs,List.append_assoc],fun l l' hs hfollow => ?_⟩
  rw [List.foldlM_append] at hfollow
  obtain ⟨l₁,hl₁,hrest⟩ := Option.bind_eq_some_iff.mp hfollow
  exact hkeep' l₁ l' (hkeep l l₁ hs hl₁) hrest

theorem Carries.of_mute (events : List Event) (hlog : s'.log = s.log ++ events) (hmute : ∀ e ∈ events, e.Mute)
    (h : ∀ l, s.Backed l → s'.Backed l) : Carries i ends s s' := by
  refine ⟨events,hlog,fun l l' hs hfollow => ?_⟩
  rw [Ledger.follow_mute hmute] at hfollow
  exact Option.some.inj hfollow ▸ h l hs

/-- A call of `ngx_spawn_process` for a slot that is free, or that does not fail after it got a pair. -/
theorem spawnProcess_carries {child : Option Child} (hspawn : s.spawnProcess mode o = .ok (s',child))
    (hspare : s.pairFor mode o ≠ none → o.forks mode = none →
      ¬ (s.spawnSlot mode < s.lastProcess ∧ (s.processes (s.spawnSlot mode)).pid ≠ -1)) :
    Carries (s.spawnSlot mode) (s.pairFor mode o) s s' := by
  rcases spawnProcess_channels hspawn with
    ⟨hprocesses,hlast,hpair,hlog⟩ | ⟨fd0,fd1,hends,⟨hnone,hlast,hprocesses,hlog⟩ | ⟨pid,p,hforks,h0,h1⟩⟩
  · refine ⟨_,hlog,fun l l' h hfollow => ?_⟩
    rw [hpair] at hfollow
    cases hfollow
    exact h.congr hlast hprocesses
  · refine ⟨_,hlog,fun l l' h hfollow => ?_⟩
    rcases Ledger.follow_spawn hfollow with ⟨hpair,hrest⟩ | ⟨a,b,hpair,hfresh,hrest⟩
    · obtain ⟨rfl,rfl⟩ := hends.of_none hpair
      simp only [List.foldlM_cons,List.foldlM_nil,Ledger.follow,Option.bind_eq_bind,Option.bind_some,
        Ledger.closes_none] at hrest
      cases hrest
      exact h.setChannel rfl rfl hprocesses fun j hj _ => hlast ▸ hj
    · obtain ⟨rfl,rfl⟩ := hends.of_some hpair
      have hidle := hspare (by simp [hpair]) hnone
      have hopened : s'.Backed (l.opens (s.spawnSlot mode) fd0 fd1) :=
        h.opens hfresh rfl rfl hprocesses fun j hj _ => hlast ▸ hj
      have hself : s'.processes = Function.update s'.processes (s.spawnSlot mode) (s'.processes (s.spawnSlot mode)) :=
        (Function.update_eq_self _ _).symm
      cases hrest
      refine hopened.closes (Ledger.opens_own hfresh (p := { s.processes (s.spawnSlot mode) with
        channel0 := fd0, channel1 := fd1 }) rfl rfl) hself rfl fun hlt hused => ?_
      rw [hprocesses,Function.update_self] at hused
      exact absurd ⟨hlast ▸ hlt,hused⟩ hidle
  · refine ⟨_,hforks.log,fun l l' h hfollow => ?_⟩
    rcases Ledger.follow_spawn hfollow with ⟨hpair,hrest⟩ | ⟨a,b,hpair,hfresh,hrest⟩
    · obtain ⟨rfl,rfl⟩ := hends.of_none hpair
      cases hrest
      exact h.setChannel h0 h1 hforks.processes fun j hj hne => hforks.lt hj hne
    · obtain ⟨rfl,rfl⟩ := hends.of_some hpair
      cases hrest
      exact h.opens hfresh h0 h1 hforks.processes fun j hj hne => hforks.lt hj hne

theorem passOpenChannel_carries (s : Master) (cause : Cause) (ch : Channel) :
    Carries i ends s (s.passOpenChannel cause ch) := by
  refine .of_mute _ rfl (fun e he => ?_) fun l h => h.congr rfl rfl
  rcases List.mem_cons.mp he with rfl | he
  · trivial
  · obtain ⟨n,-,rfl⟩ := List.mem_map.mp he
    trivial

end Master

namespace Reaping
variable {r r' : Reaping} {i : ℕ} {o : Outcome} {ends : Option (ℤ × ℤ)}

theorem passClose_carries (hi : i < r.master.lastProcess) (hused : (r.master.processes i).pid ≠ -1) :
    Master.Carries i ends r.master (r.passClose i).master := by
  have hclosed := r.passClose_closed i
  refine ⟨_,by simp [passClose,Master.closeChannel,Master.emit,Master.setChannel,Master.setEntry]; rfl,
    fun l l' h hfollow => ?_⟩
  rw [List.foldlM_cons] at hfollow
  obtain ⟨l₁,hl₁,hrest⟩ := Option.bind_eq_some_iff.mp hfollow
  rw [List.foldlM_cons] at hrest
  obtain ⟨l₂,hl₂,hmute⟩ := Option.bind_eq_some_iff.mp hrest
  cases hl₁
  cases hl₂
  rw [Ledger.follow_mute fun e he => ?_] at hmute
  · cases hmute
    exact h.closes (h.own i hi hused) hclosed.processes hclosed.lastProcess fun _ _ => ⟨rfl,rfl⟩
  · simp only [List.mem_cons,List.mem_map] at he
    obtain rfl | ⟨n,-,rfl⟩ := he <;> trivial

theorem drop_carries (r : Reaping) (i : ℕ) : Master.Carries i ends r.master (r.drop i).master := by
  obtain ⟨hcases,hlog,-,-⟩ := r.drop_cases i
  refine .of_mute [] (by simp [hlog]) (by simp) fun l h => ⟨h.twice,fun j hj hused => ?_⟩
  rcases hcases with ⟨hend,hlast,hprocesses⟩ | ⟨-,hlast,hprocesses⟩
  · rw [hprocesses] at hused ⊢
    exact h.own j (by omega) hused
  · rw [hprocesses] at hused ⊢
    have hji : j ≠ i := by
      rintro rfl
      rw [Function.update_self] at hused
      exact hused rfl
    rw [Function.update_of_ne hji] at hused ⊢
    exact h.own j (hlast ▸ hj) hused

/-- A round of the reaping in which no respawn fails after it got a pair. -/
theorem slot_carries (hslot : r.slot i o = .ok r') (hi : i < r.master.lastProcess)
    (hsturdy : r.master.Respawns i → o.pair.ends = none ∨ (o.forks (.slot i)).isSome) :
    Master.Carries i o.pair.ends r.master r'.master := by
  have hrefl : Master.Carries i o.pair.ends r.master r.master :=
    .of_mute [] (by simp) (by simp) fun _ => id
  rcases slot_cases hslot with ⟨-,rfl⟩ | ⟨-,-,rfl⟩ | ⟨hused,hexited,r₁,hr₁,hcases⟩
  · exact hrefl
  · exact hrefl
  have hclose : Master.Carries i o.pair.ends r.master r₁.master ∧ r₁.respawns i = r.respawns i := by
    split at hr₁
    · subst hr₁
      exact ⟨hrefl,rfl⟩
    · subst hr₁
      exact ⟨passClose_carries hi hused,r.passClose_respawns i⟩
  refine hclose.1.trans ?_
  rcases hcases with ⟨hrespawns,hrespawn⟩ | ⟨-,rfl⟩
  · obtain ⟨⟨s,child⟩,hspawn,hrest⟩ := bind_ok hrespawn
    have hpair : r₁.master.pairFor (.slot i) o = o.pair.ends := by simp [Master.pairFor,Respawn.isSlot]
    have hs : Master.Carries i o.pair.ends r₁.master s := by
      refine hpair ▸ Master.spawnProcess_carries hspawn fun hends hnone => ?_
      rw [hpair] at hends
      rcases hsturdy ⟨hused,hexited,hclose.2.symm.trans hrespawns⟩ with he | he
      · exact absurd he hends
      · simp [hnone] at he
    dsimp only at hrest
    split at hrest
    · cases hrest
      exact hs
    · cases hrest
      exact hs.trans (Master.passOpenChannel_carries s _ _)
  · exact r₁.drop_carries i

end Reaping

/-! ### The runs -/

namespace Ledgered
variable {s s' : Ledgered} {a : Action}

theorem step_eq (h : s.step a = some s') : s.run.step a = some s'.run ∧
    (s'.run.master.log.drop s.run.master.log.length).foldlM (Ledger.follow (s.run.target a) (s.run.pairFor a))
      s.ledger = some s'.ledger := by
  obtain ⟨run,hrun,hrest⟩ := Option.bind_eq_some_iff.mp h
  obtain ⟨ledger,hledger,hs⟩ := Option.bind_eq_some_iff.mp hrest
  cases hs
  exact ⟨hrun,hledger⟩

/-- A step whose respawn, if it makes one, does not fail after it got a pair. -/
theorem run_carries (hsturdy : s.Sturdy a) (hstep : s.run.step a = some s'.run) :
    Master.Carries (s.run.target a) (s.run.pairFor a) s.run.master s'.run.master := by
  obtain ⟨hallowed,hrun⟩ := Run.step_eq hstep
  cases a with
  | spawn mode o =>
    obtain ⟨⟨t,child⟩,hspawn,ht⟩ := bind_ok hrun
    rw [← Except.ok.inj ht]
    refine Master.spawnProcess_carries hspawn fun _ _ ⟨hlt,hused⟩ => ?_
    have hslot : s.run.master.spawnSlot mode = s.run.master.search (-1) := by
      have := hallowed.2.1
      cases mode <;> simp_all [Master.spawnSlot,Respawn.isSlot]
    rw [hslot] at hlt hused
    rcases (s.run.master.search_cases (-1)).2 with ⟨-,hfree⟩ | heq
    · exact hused hfree
    · omega
  | exit pid status =>
    obtain ⟨t,hget,ht⟩ := bind_ok hrun
    obtain ⟨u,hcollect,hu⟩ := bind_ok hget
    cases hu
    rw [← Except.ok.inj ht]
    have hcollected := Master.collect_cases hcollect
    refine .of_mute _ hcollected.log (by simp [Event.Mute]) fun l h => ⟨h.twice,fun i hi hused => ?_⟩
    rw [hcollected.samePid] at hused
    rw [Ledger.OwnBoth,hcollected.channel0,hcollected.channel1]
    exact h.own i (hcollected.lastProcess ▸ hi) hused
  | flags flags exiting justSpawn =>
    rw [← Except.ok.inj hrun]
    exact .of_mute [] (by simp) (by simp) fun l h => ⟨h.twice,fun i hi hused => h.own i hi hused⟩
  | reap =>
    rw [← Except.ok.inj hrun]
    exact .of_mute [] (by simp) (by simp) fun _ => id
  | slot o =>
    obtain ⟨⟨i,hslot,hi⟩,-⟩ := hallowed
    have hi' := hsturdy i hslot
    obtain ⟨ch,live,hphase⟩ := Run.slot_phase hslot
    rw [Run.run,hphase] at hrun
    obtain ⟨r,hr,ht⟩ := bind_ok hrun
    have htarget : s.run.target (.slot o) = i := by simp [Run.target,hphase,Phase.slot?]
    rw [← Except.ok.inj ht,htarget]
    exact Reaping.slot_carries hr hi hi'
  | reaped =>
    rw [← Except.ok.inj hrun]
    exact .of_mute [] (by simp) (by simp) fun _ => id

theorem step_backed (h : s.run.master.Backed s.ledger) (hsturdy : s.Sturdy a) (hstep : s.step a = some s') :
    s'.run.master.Backed s'.ledger := by
  obtain ⟨hrun,hledger⟩ := step_eq hstep
  obtain ⟨events,hlog,hkeep⟩ := run_carries hsturdy hrun
  rw [hlog,List.drop_left] at hledger
  exact hkeep _ _ h hledger

end Ledgered

/-- As long as no respawn fails after it got a pair, no end of a channel is closed twice, and each
entry in use has the open ends of its own latest channel, or none. -/
theorem channels_closed_once {s : Ledgered} (h : (ledgering.restrict Ledgered.Sturdy).Reachable s) :
    s.ledger.twice = false ∧ ∀ i < s.run.master.lastProcess, (s.run.master.processes i).pid ≠ -1 →
      ((s.run.master.processes i).channel0 ≠ -1 →
        s.ledger.owner (s.run.master.processes i).channel0 = some (i,false) ∧
        (s.ledger.latest i).1 = (s.run.master.processes i).channel0) ∧
      ((s.run.master.processes i).channel1 ≠ -1 →
        s.ledger.owner (s.run.master.processes i).channel1 = some (i,true) ∧
        (s.ledger.latest i).2 = (s.run.master.processes i).channel1) := by
  have hbacked : s.run.master.Backed s.ledger := by
    refine h.invariant (I := fun s => s.run.master.Backed s.ledger) (fun s hinit => ?_)
      fun s a s' _ hs (hstep : s.Sturdy a ∧ s.step a = some s') => Ledgered.step_backed hs hstep.1 hstep.2
    obtain ⟨⟨hlast,-⟩,-,htwice⟩ := hinit
    exact ⟨htwice,fun i hi => by omega⟩
  exact ⟨hbacked.twice,fun i hi hused => (hbacked.own i hi hused).imp (fun hown hne => hown.resolve_left hne)
    fun hown hne => hown.resolve_left hne⟩

/-- A table without children, and no open channel. -/
def idleLedgered : Ledgered := ⟨⟨idleMaster,.asleep⟩,⟨fun _ => none,fun _ => (-1,-1),false⟩⟩

/-- A worker exits and is respawned; the new channel gets the numbers of the old one. -/
theorem channels_closed_once_respawn : ∃ s, (ledgering.restrict Ledgered.Sturdy).Reachable s ∧
    (s.run.master.processes 0).pid = 101 ∧ s.ledger.twice = false ∧ s.ledger.owner 10 = some (0,false) := by
  obtain ⟨s,hs⟩ : ∃ s, TransitionSystem.replay (fun s a => if Ledgered.Sturdy s a then Ledgered.step s a else none)
      idleLedgered [.spawn .respawn ⟨.ready 10 11,some 100⟩,.exit 100 0,.reap,.slot ⟨.ready 10 11,some 101⟩,
        .reaped] = some s := ⟨_,rfl⟩
  have hreach : (ledgering.restrict Ledgered.Sturdy).Reachable s :=
    TransitionSystem.Reachable.of_guarded_replay (.init ⟨⟨rfl,rfl,rfl⟩,rfl,rfl⟩) hs
  obtain ⟨htwice,hown⟩ := channels_closed_once hreach
  have hself := (hown 0 (by cases hs; decide) (by cases hs; decide)).1 (by cases hs; decide)
  refine ⟨s,hreach,?_,htwice,?_⟩
  · cases hs
    decide
  · have hchannel : (s.run.master.processes 0).channel0 = 10 := by
      cases hs
      decide
    rw [← hchannel]
    exact hself.1

/-- The fork of a respawn fails: its closed channel stays in the entry, which the next pass closes
again. -/
theorem channel_closed_twice : ∃ s s', ledgering.Reachable s ∧ s.run.phase = .asleep ∧
    s.run.master.lastProcess = 1 ∧ (s.run.master.processes 0).pid ≠ -1 ∧
    (s.run.master.processes 0).channel0 = 12 ∧ s.ledger.owner 12 = none ∧
    ledgering.Reachable s' ∧ s'.run.phase = .asleep ∧ s'.ledger.twice = true := by
  obtain ⟨s,hs⟩ : ∃ s, TransitionSystem.replay Ledgered.step idleLedgered
      [.spawn .respawn ⟨.ready 10 11,some 100⟩,.exit 100 0,.reap,.slot ⟨.ready 12 13,none⟩,.reaped] =
        some s := ⟨_,rfl⟩
  obtain ⟨s',hs'⟩ : ∃ s', TransitionSystem.replay Ledgered.step s [.reap,.slot ⟨.none,none⟩,.reaped] = some s' := by
    cases hs
    exact ⟨_,rfl⟩
  have hreach : ledgering.Reachable s := .of_replay (.init ⟨⟨rfl,rfl,rfl⟩,rfl,rfl⟩) hs
  refine ⟨s,s',hreach,?_,?_,?_,?_,?_,.of_replay hreach hs',?_,?_⟩
  all_goals
    cases hs
    cases hs'
    decide

end InsideNginx.Process
