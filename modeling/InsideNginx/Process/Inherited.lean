import InsideNginx.Process.Channels
import InsideNginx.Process.Status

/-! Which ends of channels a worker process holds: it inherits all that the master has open at the fork, and
`ngx_worker_process_init` closes those that are not for it. -/
namespace InsideNginx.Process

/-- The variables of the master in a child that a step from `s` to `s'` forks: `fork` returns before the
master enters the pid and counts the slot. -/
def Master.forked (s s' : Master) : Master :=
  { s' with
    processes := Function.update s'.processes s'.processSlot
      { s'.processes s'.processSlot with pid := (s.processes s'.processSlot).pid }
    lastProcess := s.lastProcess }

/-- The entries that `ngx_worker_process_init` closes the reading end of. -/
def Master.others (s : Master) : List ℕ :=
  (List.range s.lastProcess).filter fun n =>
    (s.processes n).pid ≠ -1 ∧ n ≠ s.processSlot ∧ (s.processes n).channel1 ≠ -1

/-- What `ngx_worker_process_init` closes, in this order. -/
def Master.initCloses (s : Master) : List ℤ :=
  s.others.map (fun n => (s.processes n).channel1) ++ [(s.processes s.processSlot).channel0]

/-! ### The ends that are open -/

/-- The end that an entry has on a side. -/
def Entry.fd (p : Entry) (side : Bool) : ℤ := if side then p.channel1 else p.channel0

/-- A detached process has no channel and gets no successor, and any other has one as long as it runs. -/
structure Entry.Wired (p : Entry) : Prop where
  detached : p.detached = true → p.channel0 = -1 ∧ p.channel1 = -1 ∧ p.respawn = false
  attached : p.detached = false → p.exited = false → 0 ≤ p.channel0 ∧ 0 ≤ p.channel1

/-- Every open end is the one of an entry in use, and these entries have the channels that they are to have. -/
structure Master.Exact (s : Master) (l : Ledger) : Prop where
  own : ∀ fd i side, l.owner fd = some (i,side) →
    0 ≤ fd ∧ i < s.lastProcess ∧ (s.processes i).pid ≠ -1 ∧ (s.processes i).fd side = fd
  wired : ∀ i < s.lastProcess, (s.processes i).pid ≠ -1 → (s.processes i).Wired

/-- No end of a slot is open. -/
def Ledger.Bare (l : Ledger) (i : ℕ) : Prop := ∀ fd side, l.owner fd ≠ some (i,side)

namespace Ledger
variable {l l' : Ledger} {i j : ℕ} {fd fd0 fd1 : ℤ} {side : Bool}

theorem closes_owner (h : (l.closes fd0).owner fd = some (i,side)) :
    l.owner fd = some (i,side) ∧ (fd = fd0 → fd0 = -1) := by
  unfold closes at h
  split at h
  · rename_i hnone
    exact ⟨h,fun _ => hnone⟩
  · by_cases hfd : fd = fd0
    · subst hfd
      simp at h
    · exact ⟨by simpa [hfd] using h,fun heq => absurd heq hfd⟩

theorem opens_owner (hfresh : l.Fresh fd0 fd1) (h : (l.opens i fd0 fd1).owner fd = some (j,side)) :
    j = i ∧ fd = (if side then fd1 else fd0) ∨ l.owner fd = some (j,side) := by
  unfold opens at h
  by_cases h1 : fd = fd1
  · subst h1
    simp only [Function.update_self,Option.some.injEq,Prod.mk.injEq] at h
    obtain ⟨rfl,rfl⟩ := h
    exact .inl ⟨rfl,rfl⟩
  · by_cases h0 : fd = fd0
    · subst h0
      simp only [Function.update_of_ne h1,Function.update_self,Option.some.injEq,Prod.mk.injEq] at h
      obtain ⟨rfl,rfl⟩ := h
      exact .inl ⟨rfl,rfl⟩
    · exact .inr (by simpa [h0,h1] using h)

end Ledger

namespace Master
variable {s s' : Master} {l l' : Ledger} {i : ℕ}

theorem Exact.congr (h : s.Exact l) (hlast : s'.lastProcess = s.lastProcess)
    (hprocesses : s'.processes = s.processes) : s'.Exact l := by
  refine ⟨fun fd i side howner => ?_,fun i hi => ?_⟩
  · rw [hlast,hprocesses]
    exact h.own fd i side howner
  · rw [hprocesses]
    exact h.wired i (hlast ▸ hi)

/-- A slot that is not in use has no open end. -/
theorem Exact.bare (h : s.Exact l) (hfree : ¬ (i < s.lastProcess ∧ (s.processes i).pid ≠ -1)) : l.Bare i := by
  intro fd side howner
  obtain ⟨-,hi,hused,-⟩ := h.own fd i side howner
  exact hfree ⟨hi,hused⟩

/-- An entry without a channel has no open end. -/
theorem Exact.bare_of_none (h : s.Exact l) (h0 : (s.processes i).channel0 = -1) (h1 : (s.processes i).channel1 = -1) :
    l.Bare i := by
  intro fd side howner
  obtain ⟨hvalid,-,-,hfd⟩ := h.own fd i side howner
  cases side <;> simp only [Entry.fd,h0,h1,if_true,if_false,Bool.false_eq_true] at hfd <;> omega

/-- The entry of a slot without open ends changes. -/
theorem Exact.set (h : s.Exact l) (hbare : l.Bare i) {p : Entry} (hprocesses : s'.processes = Function.update s.processes i p)
    (hlast : ∀ j, j ≠ i → (j < s'.lastProcess ↔ j < s.lastProcess))
    (hwired : i < s'.lastProcess → p.pid ≠ -1 → p.Wired) : s'.Exact l := by
  refine ⟨fun fd j side howner => ?_,fun j hj hused => ?_⟩
  · have hji : j ≠ i := by
      rintro rfl
      exact hbare fd side howner
    rw [hprocesses,Function.update_of_ne hji,hlast j hji]
    exact h.own fd j side howner
  · by_cases hji : j = i
    · subst hji
      rw [hprocesses,Function.update_self] at hused ⊢
      exact hwired hj hused
    · rw [hprocesses,Function.update_of_ne hji] at hused ⊢
      exact h.wired j ((hlast j hji).mp hj) hused

/-- A new channel belongs to the entry of its slot. -/
theorem Exact.opens (h : s.Exact l) {fd0 fd1 : ℤ} (hfresh : l.Fresh fd0 fd1) (hi : i < s.lastProcess)
    (hused : (s.processes i).pid ≠ -1) (h0 : (s.processes i).channel0 = fd0) (h1 : (s.processes i).channel1 = fd1) :
    s.Exact (l.opens i fd0 fd1) := by
  refine ⟨fun fd j side howner => ?_,h.wired⟩
  rcases Ledger.opens_owner hfresh howner with ⟨rfl,rfl⟩ | howner
  · refine ⟨?_,hi,hused,?_⟩
    · cases side
      · exact hfresh.1
      · exact hfresh.2.1
    · cases side
      · exact h0
      · exact h1
  · exact h.own fd j side howner

/-- Ends are closed. -/
theorem Exact.mono (h : s.Exact l) (hsub : ∀ fd i side, l'.owner fd = some (i,side) → l.owner fd = some (i,side)) : s.Exact l' :=
  ⟨fun fd i side howner => h.own fd i side (hsub fd i side howner),h.wired⟩

/-- The two ends of a slot are closed. -/
theorem Exact.bare_closes (h : s.Exact l) (i : ℕ) :
    ((l.closes (s.processes i).channel0).closes (s.processes i).channel1).Bare i := by
  intro fd side howner
  obtain ⟨howner,hne1⟩ := Ledger.closes_owner howner
  obtain ⟨howner,hne0⟩ := Ledger.closes_owner howner
  obtain ⟨hvalid,-,-,hfd⟩ := h.own fd i side howner
  cases side with
  | false => exact absurd (hne0 hfd.symm) (by rw [show (s.processes i).channel0 = fd from hfd]; omega)
  | true => exact absurd (hne1 hfd.symm) (by rw [show (s.processes i).channel1 = fd from hfd]; omega)

/-- A part of a step that keeps the ends in place, when the ledger follows its events. -/
def Keeps (i : ℕ) (ends : Option (ℤ × ℤ)) (s s' : Master) : Prop :=
  ∃ events, s'.log = s.log ++ events ∧ ∀ l l', s.Exact l → events.foldlM (Ledger.follow i ends) l = some l' → s'.Exact l'

variable {mode : Respawn} {o : Outcome} {ends : Option (ℤ × ℤ)}

theorem Keeps.trans {t : Master} (h : Keeps i ends s t) (h' : Keeps i ends t s') : Keeps i ends s s' := by
  obtain ⟨xs,hxs,hkeep⟩ := h
  obtain ⟨ys,hys,hkeep'⟩ := h'
  refine ⟨xs ++ ys,by rw [hys,hxs,List.append_assoc],fun l l' hs hfollow => ?_⟩
  rw [List.foldlM_append] at hfollow
  obtain ⟨l₁,hl₁,hrest⟩ := Option.bind_eq_some_iff.mp hfollow
  exact hkeep' l₁ l' (hkeep l l₁ hs hl₁) hrest

theorem Keeps.of_mute (events : List Event) (hlog : s'.log = s.log ++ events) (hmute : ∀ e ∈ events, e.Mute)
    (h : ∀ l, s.Exact l → s'.Exact l) : Keeps i ends s s' := by
  refine ⟨events,hlog,fun l l' hs hfollow => ?_⟩
  rw [Ledger.follow_mute hmute] at hfollow
  exact Option.some.inj hfollow ▸ h l hs

/-- A slot that `ngx_spawn_process` may take: it is free, or its process has exited and its channel is closed. -/
def Clear (s : Master) (i : ℕ) : Prop :=
  i < s.lastProcess → (s.processes i).pid ≠ -1 → (s.processes i).detached = false ∧
    (s.processes i).exited = true ∧ (s.processes i).channel0 = -1 ∧ (s.processes i).channel1 = -1

theorem Clear.bare (hclear : s.Clear i) (h : s.Exact l) : l.Bare i := by
  by_cases hused : i < s.lastProcess ∧ (s.processes i).pid ≠ -1
  · obtain ⟨-,-,h0,h1⟩ := hclear hused.1 hused.2
    exact h.bare_of_none h0 h1
  · exact h.bare hused

/-- A channel that is closed at once. -/
theorem Exact.passing (h : s.Exact l) {fd0 fd1 : ℤ} (hfresh : l.Fresh fd0 fd1) :
    s.Exact (((l.opens i fd0 fd1).closes fd0).closes fd1) := by
  refine h.mono fun fd j side howner => ?_
  obtain ⟨howner,hne1⟩ := Ledger.closes_owner howner
  obtain ⟨howner,hne0⟩ := Ledger.closes_owner howner
  rcases Ledger.opens_owner hfresh howner with ⟨-,hfd⟩ | howner
  · have hvalid := hfresh.1
    have hvalid' := hfresh.2.1
    cases side with
    | false =>
      have := hne0 hfd
      omega
    | true =>
      have := hne1 hfd
      omega
  · exact howner

theorem setMode_detached {p : Entry} (h : (p.setMode mode).detached = true) :
    mode = .detached ∨ mode.isSlot = true ∧ p.detached = true := by
  cases mode <;> simp_all [Entry.setMode,Respawn.isSlot]

/-- The slot of a new child is below `ngx_last_process`. -/
theorem SpawnForks.lt_last {pid : ℤ} {p : Entry} (h : SpawnForks s mode pid p s')
    (hslot : mode.isSlot = true → s.spawnSlot mode < s.lastProcess) : s.spawnSlot mode < s'.lastProcess := by
  rw [h.lastProcess]
  cases hmode : mode.isSlot with
  | true =>
    have := hslot hmode
    split <;> omega
  | false =>
    have heq : s.spawnSlot mode = s.search (-1) := by
      cases mode <;> simp_all [spawnSlot,Respawn.isSlot]
    rcases (s.search_cases (-1)).2 with ⟨hlt,-⟩ | hend
    · split <;> omega
    · rw [if_pos (by simp [heq,hend])]
      omega

/-- The outcome of a call that forks a child. -/
theorem spawnProcess_forks {child : Option Child} {pid : ℤ} {p : Entry} (hspawn : s.spawnProcess mode o = .ok (s',child))
    (hforks : SpawnForks s mode pid p s') : o.forks mode = some pid := by
  rcases spawnProcess_cases hspawn with ⟨-,-,hfails⟩ | ⟨pid',p',hforked,-,hforks'⟩
  · obtain ⟨events,hlog,hquiet⟩ := hfails.log
    rw [hforks.log,List.append_cancel_left_eq] at hlog
    exact absurd (hquiet (.forked (s.spawnSlot mode) pid) (by simp [← hlog])) id
  · have hlog := hforks.log
    rw [hforks'.log,List.append_cancel_left_eq] at hlog
    have heq : pid' = pid := by simpa using hlog
    exact heq ▸ hforked

/-- Only a detached child has no channel. -/
theorem spawnProcess_unpaired {child : Option Child} {pid : ℤ} {p : Entry}
    (hspawn : s.spawnProcess mode o = .ok (s',child)) (hforks : SpawnForks s mode pid p s')
    (hpair : s.pairFor mode o = none) : mode = .detached := by
  by_contra hmode
  have hrange := hforks.inRange
  have hforked := spawnProcess_forks hspawn hforks
  unfold pairFor at hpair
  split at hpair
  · rename_i hnone
    rcases hnone with hdetached | ⟨-,hfull⟩
    · exact hmode hdetached
    · omega
  · cases hends : o.pair <;> simp_all [Pair.ends,Outcome.forks,Pair.opens]

/-- A call of `ngx_spawn_process` that fails closes the channel that it has opened. -/
theorem spawn_failed_keeps {fd0 fd1 : ℤ} (hends : Ends (s.pairFor mode o) fd0 fd1) (hclear : s.Clear (s.spawnSlot mode))
    (hlast : s'.lastProcess = s.lastProcess) (hprocesses : s'.processes = Function.update s.processes (s.spawnSlot mode)
      { s.processes (s.spawnSlot mode) with channel0 := fd0, channel1 := fd1 })
    (hlog : s'.log = s.log ++ [.spawn mode,.close fd0,.close fd1]) :
    Keeps (s.spawnSlot mode) (s.pairFor mode o) s s' := by
  refine ⟨_,hlog,fun l l' h hfollow => ?_⟩
  -- the slot is as clear as before
  have hset : ∀ l, s.Exact l → s'.Exact l := by
    refine fun l h => h.set (hclear.bare h) hprocesses (fun j _ => by rw [hlast]) fun hi hused => ?_
    obtain ⟨hattached,hexited,-,-⟩ := hclear (hlast ▸ hi) hused
    exact ⟨fun hd => absurd (hattached.symm.trans hd) Bool.false_ne_true,
      fun _ hruns => absurd (hruns.symm.trans hexited) Bool.false_ne_true⟩
  rcases Ledger.follow_spawn hfollow with ⟨hpair,hrest⟩ | ⟨a,b,hpair,hfresh,hrest⟩
  · obtain ⟨rfl,rfl⟩ := hends.of_none hpair
    simp only [List.foldlM_cons,List.foldlM_nil,Ledger.follow,Option.bind_eq_bind,Option.bind_some,
      Ledger.closes_none] at hrest
    cases hrest
    exact hset l h
  · obtain ⟨rfl,rfl⟩ := hends.of_some hpair
    cases hrest
    exact hset _ (h.passing hfresh)

/-- One that forks leaves the channel to the new entry. -/
theorem spawn_forks_keeps {child : Option Child} {pid : ℤ} {p : Entry} (hspawn : s.spawnProcess mode o = .ok (s',child))
    (hends : Ends (s.pairFor mode o) p.channel0 p.channel1) (hforks : SpawnForks s mode pid p s')
    (hclear : s.Clear (s.spawnSlot mode)) (hslot : mode.isSlot = true →
      s.spawnSlot mode < s.lastProcess ∧ (s.processes (s.spawnSlot mode)).detached = false) :
    Keeps (s.spawnSlot mode) (s.pairFor mode o) s s' := by
  have hpos := (Outcome.pid_eq_some (spawnProcess_forks hspawn hforks)).2
  refine ⟨_,hforks.log,fun l l' h hfollow => ?_⟩
  have hlast : ∀ j, j ≠ s.spawnSlot mode → (j < s'.lastProcess ↔ j < s.lastProcess) := by
    refine fun j hj => ⟨fun hlt => hforks.lt hlt hj,fun hlt => ?_⟩
    rw [hforks.lastProcess]
    split <;> omega
  have hself : s'.processes (s.spawnSlot mode) = p := by rw [hforks.processes,Function.update_self]
  obtain ⟨a,b,hentry⟩ := hforks.entry
  rcases Ledger.follow_spawn hfollow with ⟨hpair,hrest⟩ | ⟨fd0,fd1,hpair,hfresh,hrest⟩
  · obtain ⟨hfd0,hfd1⟩ := hends.of_none hpair
    cases hrest
    refine h.set (hclear.bare h) hforks.processes hlast fun _ _ => ?_
    have hmode := spawnProcess_unpaired hspawn hforks hpair
    rw [hmode] at hentry
    refine ⟨fun _ => ⟨hfd0,hfd1,by rw [hentry]; rfl⟩,fun hd => ?_⟩
    rw [hentry] at hd
    cases hd
  · obtain ⟨hfd0,hfd1⟩ := hends.of_some hpair
    cases hrest
    have hset : s'.Exact l := by
      refine h.set (hclear.bare h) hforks.processes hlast fun _ _ =>
        ⟨fun hd => ?_,fun _ _ => ⟨hfd0 ▸ hfresh.1,hfd1 ▸ hfresh.2.1⟩⟩
      rw [hentry] at hd
      rcases setMode_detached hd with hmode | ⟨hmode,hold⟩
      · rw [pairFor,if_pos (.inl hmode)] at hpair
        cases hpair
      · exact absurd ((hslot hmode).2.symm.trans hold) Bool.false_ne_true
    refine hset.opens hfresh (hforks.lt_last fun hmode => (hslot hmode).1) ?_ (hself ▸ hfd0) (hself ▸ hfd1)
    rw [hself,hforks.pid_exited.1]
    omega

/-- A call of `ngx_spawn_process`. -/
theorem spawnProcess_keeps {child : Option Child} (hspawn : s.spawnProcess mode o = .ok (s',child))
    (hclear : s.Clear (s.spawnSlot mode)) (hslot : mode.isSlot = true →
      s.spawnSlot mode < s.lastProcess ∧ (s.processes (s.spawnSlot mode)).detached = false) :
    Keeps (s.spawnSlot mode) (s.pairFor mode o) s s' := by
  rcases spawnProcess_channels hspawn with
    ⟨hprocesses,hlast,hpair,hlog⟩ | ⟨fd0,fd1,hends,⟨-,hlast,hprocesses,hlog⟩ | ⟨pid,p,hforks,rfl,rfl⟩⟩
  · refine ⟨_,hlog,fun l l' h hfollow => ?_⟩
    rw [hpair] at hfollow
    cases hfollow
    exact h.congr hlast hprocesses
  · exact spawn_failed_keeps hends hclear hlast hprocesses hlog
  · exact spawn_forks_keeps hspawn hends hforks hclear hslot

theorem passOpenChannel_keeps (s : Master) (cause : Cause) (ch : Channel) :
    Keeps i ends s (s.passOpenChannel cause ch) := by
  refine .of_mute _ rfl (fun e he => ?_) fun l h => h.congr rfl rfl
  rcases List.mem_cons.mp he with rfl | he
  · trivial
  · obtain ⟨n,-,rfl⟩ := List.mem_map.mp he
    trivial

/-- The ends of an exited child are closed. -/
theorem collect_keeps {pid : ℤ} {status : BitVec 32} (h : s.collect pid status = .ok s') : Keeps i ends s s' := by
  have hcollected := collect_cases h
  refine .of_mute _ hcollected.log (by simp [Event.Mute]) fun l hs => ⟨fun fd j side howner => ?_,fun j hj hused => ?_⟩
  · obtain ⟨hvalid,hlt,hused,hfd⟩ := hs.own fd j side howner
    refine ⟨hvalid,hcollected.lastProcess ▸ hlt,hcollected.samePid j ▸ hused,?_⟩
    rw [← hfd,Entry.fd,Entry.fd,hcollected.channel0,hcollected.channel1]
  · rw [hcollected.samePid] at hused
    rw [hcollected.lastProcess] at hj
    have hwired := hs.wired j hj hused
    refine ⟨fun hd => ?_,fun hd hruns => ?_⟩
    · rw [hcollected.detached] at hd
      obtain ⟨h0,h1,hrespawn⟩ := hwired.detached hd
      exact ⟨(hcollected.channel0 j).trans h0,(hcollected.channel1 j).trans h1,collect_respawn h hrespawn⟩
    · have hjk : j ≠ s.search pid := by
        rintro rfl
        exact absurd (hruns.symm.trans (hcollected.exited hj)) Bool.false_ne_true
      rw [hcollected.other j hjk] at hd hruns ⊢
      exact hwired.attached hd hruns

end Master

namespace Reaping
variable {r r' : Reaping} {i : ℕ} {o : Outcome} {ends : Option (ℤ × ℤ)}

theorem passClose_keeps (hattached : (r.master.processes i).detached = false)
    (hexited : (r.master.processes i).exited = true) :
    Master.Keeps i ends r.master (r.passClose i).master := by
  have hclosed := r.passClose_closed i
  refine ⟨_,by simp [passClose,Master.closeChannel,Master.emit,Master.setChannel,Master.setEntry]; rfl,
    fun l l' h hfollow => ?_⟩
  rw [List.foldlM_cons] at hfollow
  obtain ⟨l₁,hl₁,hrest⟩ := Option.bind_eq_some_iff.mp hfollow
  rw [List.foldlM_cons] at hrest
  obtain ⟨l₂,hl₂,hmute⟩ := Option.bind_eq_some_iff.mp hrest
  cases hl₁
  cases hl₂
  rw [Ledger.follow_mute fun e he => ?_] at hmute
  · cases hmute
    have hless : r.master.Exact ((l.closes (r.master.processes i).channel0).closes (r.master.processes i).channel1) :=
      h.mono fun fd j side howner => (Ledger.closes_owner (Ledger.closes_owner howner).1).1
    refine hless.set (h.bare_closes i) hclosed.processes (fun j _ => by rw [hclosed.lastProcess]) fun _ _ => ?_
    exact ⟨fun hd => absurd (hattached.symm.trans hd) Bool.false_ne_true,
      fun _ hruns => absurd (hruns.symm.trans hexited) Bool.false_ne_true⟩
  · simp only [List.mem_cons,List.mem_map] at he
    obtain rfl | ⟨n,-,rfl⟩ := he <;> trivial

/-- A slot without a channel is dropped. -/
theorem drop_keeps (h0 : (r.master.processes i).channel0 = -1) (h1 : (r.master.processes i).channel1 = -1) :
    Master.Keeps i ends r.master (r.drop i).master := by
  obtain ⟨hcases,hlog,-,-⟩ := r.drop_cases i
  refine .of_mute [] (by simp [hlog]) (by simp) fun l h => ?_
  have hbare := h.bare_of_none h0 h1
  rcases hcases with ⟨hend,hlast,hprocesses⟩ | ⟨hend,hlast,hprocesses⟩
  · refine h.set hbare (p := r.master.processes i) ?_ (fun j hj => by omega) fun hlt => by omega
    rw [hprocesses,Function.update_eq_self]
  · exact h.set hbare hprocesses (fun j _ => by rw [hlast]) fun _ hused => absurd rfl hused

/-- A round of the reaping. -/
theorem slot_keeps (hslot : r.slot i o = .ok r') (hi : i < r.master.lastProcess)
    (hwired : (r.master.processes i).pid ≠ -1 → (r.master.processes i).Wired) :
    Master.Keeps i o.pair.ends r.master r'.master := by
  have hrefl : Master.Keeps i o.pair.ends r.master r.master := .of_mute [] (by simp) (by simp) fun _ => id
  rcases slot_cases hslot with ⟨-,rfl⟩ | ⟨-,-,rfl⟩ | ⟨hused,hexited,r₁,hr₁,hcases⟩
  · exact hrefl
  · exact hrefl
  have hclose : Master.Keeps i o.pair.ends r.master r₁.master ∧ (r₁.master.processes i).channel0 = -1 ∧
      (r₁.master.processes i).channel1 = -1 ∧ r₁.master.lastProcess = r.master.lastProcess ∧
      (r₁.master.processes i).exited = true ∧ (r₁.respawns i = true → (r₁.master.processes i).detached = false) := by
    split at hr₁
    · rename_i hdetached
      subst hr₁
      obtain ⟨h0,h1,hrespawn⟩ := (hwired hused).detached hdetached
      refine ⟨hrefl,h0,h1,rfl,hexited,fun hrespawns => ?_⟩
      simp [respawns,hrespawn] at hrespawns
    · rename_i hattached
      rw [Bool.not_eq_true] at hattached
      subst hr₁
      have hclosed := r.passClose_closed i
      refine ⟨passClose_keeps hattached hexited,?_,?_,hclosed.lastProcess,?_,fun _ => ?_⟩
      all_goals rw [hclosed.processes,Function.update_self]
      · exact hexited
      · exact hattached
  obtain ⟨hkeeps,h0,h1,hlast,hexited₁,hattached⟩ := hclose
  refine hkeeps.trans ?_
  rcases hcases with ⟨hrespawns,hrespawn⟩ | ⟨-,rfl⟩
  · obtain ⟨⟨s,child⟩,hspawn,hrest⟩ := bind_ok hrespawn
    have hpair : r₁.master.pairFor (.slot i) o = o.pair.ends := by simp [Master.pairFor,Respawn.isSlot]
    have hs : Master.Keeps i o.pair.ends r₁.master s := by
      refine hpair ▸ Master.spawnProcess_keeps hspawn (fun _ _ => ⟨hattached hrespawns,hexited₁,h0,h1⟩) fun _ => ?_
      exact ⟨hlast ▸ hi,hattached hrespawns⟩
    dsimp only at hrest
    split at hrest
    · cases hrest
      exact hs
    · cases hrest
      exact hs.trans (Master.passOpenChannel_keeps s _ _)
  · exact drop_keeps h0 h1

end Reaping

/-! ### The runs -/

namespace Ledgered
variable {s s' : Ledgered} {a : Action}

/-- What a step leaves true of the ends. -/
theorem run_keeps (hexact : s.run.master.Exact s.ledger) (hstep : s.run.step a = some s'.run) :
    Master.Keeps (s.run.target a) (s.run.pairFor a) s.run.master s'.run.master := by
  obtain ⟨hallowed,hrun⟩ := Run.step_eq hstep
  cases a with
  | spawn mode o =>
    obtain ⟨⟨t,child⟩,hspawn,ht⟩ := bind_ok hrun
    rw [← Except.ok.inj ht]
    have hmode : mode.isSlot = false := hallowed.2.1
    have hslot : s.run.master.spawnSlot mode = s.run.master.search (-1) := by
      cases mode <;> simp_all [Master.spawnSlot,Respawn.isSlot]
    refine Master.spawnProcess_keeps hspawn (fun hlt hused => ?_) fun h => absurd (hmode.symm.trans h) Bool.false_ne_true
    rw [hslot] at hlt hused
    rcases (s.run.master.search_cases (-1)).2 with ⟨-,hfree⟩ | heq
    · exact absurd hfree hused
    · omega
  | exit pid status =>
    obtain ⟨t,hget,ht⟩ := bind_ok hrun
    obtain ⟨u,hcollect,hu⟩ := bind_ok hget
    cases hu
    rw [← Except.ok.inj ht]
    exact Master.collect_keeps hcollect
  | flags flags exiting justSpawn =>
    rw [← Except.ok.inj hrun]
    exact .of_mute [] (by simp) (by simp) fun l h =>
      ⟨h.own,fun i hi hused => ⟨(h.wired i hi hused).detached,(h.wired i hi hused).attached⟩⟩
  | reap =>
    rw [← Except.ok.inj hrun]
    exact .of_mute [] (by simp) (by simp) fun _ => id
  | slot o =>
    obtain ⟨⟨i,hslot,hi⟩,-⟩ := hallowed
    obtain ⟨ch,live,hphase⟩ := Run.slot_phase hslot
    rw [Run.run,hphase] at hrun
    obtain ⟨r,hr,ht⟩ := bind_ok hrun
    have htarget : s.run.target (.slot o) = i := by simp [Run.target,hphase,Phase.slot?]
    rw [← Except.ok.inj ht,htarget]
    exact Reaping.slot_keeps hr hi (hexact.wired i hi)
  | reaped =>
    rw [← Except.ok.inj hrun]
    exact .of_mute [] (by simp) (by simp) fun _ => id

theorem step_exact (h : s.run.master.Exact s.ledger) (hstep : s.step a = some s') :
    s'.run.master.Exact s'.ledger := by
  obtain ⟨hrun,hledger⟩ := step_eq hstep
  obtain ⟨events,hlog,hkeep⟩ := run_keeps h hrun
  rw [hlog,List.drop_left] at hledger
  exact hkeep _ _ h hledger

/-- In every run the open ends are those of the entries in use. -/
theorem reachable_exact (h : ledgering.Reachable s) : s.run.master.Exact s.ledger := by
  refine h.invariant (I := fun s => s.run.master.Exact s.ledger) (fun s hinit => ?_)
    fun s a s' _ hs (hstep : s.step a = some s') => step_exact hs hstep
  obtain ⟨⟨hlast,-⟩,howner,-⟩ := hinit
  exact ⟨fun fd i side h => by simp [howner] at h,fun i hi => by omega⟩

end Ledgered

/-! ### The fork -/

namespace Ledger
variable {l : Ledger}

/-- Different open ends are closed. -/
theorem closes_all {fds : List ℤ} (hnodup : fds.Nodup) (hopen : ∀ fd ∈ fds, fd ≠ -1 ∧ (l.owner fd).isSome) :
    (fds.foldl closes l).twice = l.twice ∧
    ∀ fd, (fds.foldl closes l).owner fd = if fd ∈ fds then none else l.owner fd := by
  induction fds generalizing l with
  | nil => exact ⟨rfl,fun fd => by simp⟩
  | cons fd₁ fds ih =>
    obtain ⟨hnot,hnodup⟩ := List.nodup_cons.mp hnodup
    obtain ⟨hne,hsome⟩ := hopen fd₁ List.mem_cons_self
    have hone : l.closes fd₁ = ⟨Function.update l.owner fd₁ none,l.latest,l.twice⟩ := by
      rw [closes,if_neg hne,Option.isNone_eq_false_iff.mpr hsome,Bool.or_false]
    have hothers : ∀ fd ∈ fds, fd ≠ -1 ∧ ((l.closes fd₁).owner fd).isSome := by
      intro fd hfd
      obtain ⟨hvalid,hother⟩ := hopen fd (List.mem_cons_of_mem _ hfd)
      have hfdne : fd ≠ fd₁ := fun heq => hnot (heq ▸ hfd)
      exact ⟨hvalid,by simpa [hone,hfdne] using hother⟩
    obtain ⟨htwice,howner⟩ := ih hnodup hothers
    rw [List.foldl_cons]
    refine ⟨htwice.trans (by rw [hone]),fun fd => ?_⟩
    rw [howner fd,hone]
    by_cases hfd : fd = fd₁
    · simp [hfd]
    · simp [hfd]

end Ledger

namespace Master
variable {s s' t : Master} {mode : Respawn} {o : Outcome} {i : ℕ}

/-- A step that has forked the child of a slot. -/
structure Forking (s s' : Master) (i : ℕ) : Prop where
  slot : s'.processSlot = i
  lt : i < s'.lastProcess
  used : (s'.processes i).pid ≠ -1
  runs : (s'.processes i).exited = false
  channel : (s'.processes i).detached = false → s'.channel = (s'.processes i).channel1
  last : ∀ j, j ≠ i → (j < s'.lastProcess ↔ j < s.lastProcess)

/-- All children that a part of a step has forked. -/
def Bears (s s' : Master) : Prop :=
  ∃ events, s'.log = s.log ++ events ∧ ∀ i pid, .forked i pid ∈ events → s.Forking s' i

theorem Bears.of_none (events : List Event) (hlog : s'.log = s.log ++ events)
    (hnone : ∀ i pid, .forked i pid ∉ events) : s.Bears s' :=
  ⟨events,hlog,fun i pid hmem => absurd hmem (hnone i pid)⟩

/-- A part without a fork goes before. -/
theorem Bears.after (h : t.Bears s') {events : List Event} (hlog : t.log = s.log ++ events)
    (hnone : ∀ i pid, .forked i pid ∉ events) (hlast : t.lastProcess = s.lastProcess) : s.Bears s' := by
  obtain ⟨more,hmore,hborn⟩ := h
  refine ⟨events ++ more,by rw [hmore,hlog,List.append_assoc],fun i pid hmem => ?_⟩
  obtain ⟨hslot,hlt,hused,hruns,hchannel,hthe⟩ := hborn i pid ((List.mem_append.mp hmem).resolve_left (hnone i pid))
  exact ⟨hslot,hlt,hused,hruns,hchannel,fun j hj => hlast ▸ hthe j hj⟩

/-- Messages go after. -/
theorem Bears.passOpenChannel (h : s.Bears s') (cause : Cause) (ch : Channel) :
    s.Bears (s'.passOpenChannel cause ch) := by
  obtain ⟨events,hlog,hborn⟩ := h
  refine ⟨_,by rw [Master.passOpenChannel,hlog,List.append_assoc],fun i pid hmem => ?_⟩
  rcases List.mem_append.mp hmem with hmem | hmem
  · obtain ⟨hslot,hlt,hused,hruns,hchannel,hlast⟩ := hborn i pid hmem
    exact ⟨hslot,hlt,hused,hruns,hchannel,hlast⟩
  · simp at hmem

theorem forkChild_channel (t : Master) (i : ℕ) (mode : Respawn) (fork : Option ℤ) :
    (t.forkChild i mode fork).1.channel = t.channel := by
  unfold forkChild
  cases fork with
  | none => rfl
  | some pid =>
    dsimp only
    split <;> rfl

/-- `ngx_channel` is the reading end of the new child. -/
theorem spawnProcess_channel {child : Child} (h : s.spawnProcess mode o = .ok (s',some child)) (hmode : mode ≠ .detached) :
    s'.channel = (s'.processes (s.spawnSlot mode)).channel1 := by
  unfold spawnProcess at h
  dsimp only at h
  split at h
  · cases h
  split at h
  · cases h
  simp only [openChannel,if_neg hmode] at h
  cases hpair : o.pair with
  | none =>
    rw [hpair] at h
    cases h
  | unusable fd0 fd1 =>
    rw [hpair] at h
    cases h
  | ready fd0 fd1 =>
    rw [hpair] at h
    have hfork := Except.ok.inj h
    rcases forkChild_channels (t := { s.emit (.spawn mode) with channel := fd1 }) hfork with ⟨-,hnone,-⟩ | ⟨-,-,h1⟩
    · cases hnone
    · rw [h1,← congrArg (fun r => Master.channel r.1) hfork]
      exact forkChild_channel _ _ _ _

/-- A call of `ngx_spawn_process` forks for its own slot. -/
theorem spawnProcess_bears {child : Option Child} (hspawn : s.spawnProcess mode o = .ok (s',child))
    (hslot : mode.isSlot = true → s.spawnSlot mode < s.lastProcess) : s.Bears s' := by
  rcases spawnProcess_cases hspawn with ⟨-,-,hfails⟩ | ⟨pid,p,hforked,rfl,hforks⟩
  · obtain ⟨events,hlog,hquiet⟩ := hfails.log
    exact .of_none events hlog fun i pid hmem => hquiet _ hmem
  · refine ⟨_,hforks.log,fun i pid' hmem => ?_⟩
    have hi : i = s.spawnSlot mode := by simp at hmem; exact hmem.1
    have hpos := (Outcome.pid_eq_some hforked).2
    subst hi
    have hself : s'.processes (s.spawnSlot mode) = p := by rw [hforks.processes,Function.update_self]
    refine ⟨hforks.processSlot,hforks.lt_last hslot,?_,?_,fun hattached => ?_,fun j hj => ?_⟩
    · rw [hself,hforks.pid_exited.1]
      omega
    · rw [hself,hforks.pid_exited.2]
    · refine spawnProcess_channel hspawn fun hmode => ?_
      obtain ⟨a,b,hentry⟩ := hforks.entry
      rw [hself,hentry,hmode] at hattached
      cases hattached
    · refine ⟨fun hlt => hforks.lt hlt hj,fun hlt => ?_⟩
      rw [hforks.lastProcess]
      split <;> omega

end Master

namespace Reaping
variable {r r' : Reaping} {i : ℕ} {o : Outcome}

/-- A round of the reaping forks for its own slot. -/
theorem slot_bears (hslot : r.slot i o = .ok r') (hi : i < r.master.lastProcess) : r.master.Bears r'.master := by
  have hrefl : r.master.Bears r.master := .of_none [] (by simp) (by simp)
  rcases slot_cases hslot with ⟨-,rfl⟩ | ⟨-,-,rfl⟩ | ⟨-,-,r₁,hr₁,hcases⟩
  · exact hrefl
  · exact hrefl
  have hclose : (∃ events, r₁.master.log = r.master.log ++ events ∧ ∀ i pid, .forked i pid ∉ events) ∧
      r₁.master.lastProcess = r.master.lastProcess := by
    split at hr₁
    · subst hr₁
      exact ⟨⟨[],by simp,by simp⟩,rfl⟩
    · subst hr₁
      refine ⟨⟨_,by simp [passClose,Master.closeChannel,Master.emit,Master.setChannel,Master.setEntry]; rfl,?_⟩,rfl⟩
      simp
  obtain ⟨⟨events,hlog,hnone⟩,hlast⟩ := hclose
  rcases hcases with ⟨-,hrespawn⟩ | ⟨-,rfl⟩
  · obtain ⟨⟨s,child⟩,hspawn,hrest⟩ := bind_ok hrespawn
    have hs : r.master.Bears s := (Master.spawnProcess_bears hspawn fun _ => hlast ▸ hi).after hlog hnone hlast
    dsimp only at hrest
    split at hrest
    · cases hrest
      exact hs
    · cases hrest
      exact hs.passOpenChannel _ _
  · exact .of_none events (by rw [(r₁.drop_cases i).2.1,hlog]) hnone

end Reaping

/-- A step forks for one slot, which is `ngx_process_slot` then. -/
theorem Run.step_bears {s s' : Run} {a : Action} (hstep : s.step a = some s') : s.master.Bears s'.master := by
  obtain ⟨hallowed,hrun⟩ := Run.step_eq hstep
  cases a with
  | spawn mode o =>
    obtain ⟨⟨t,child⟩,hspawn,ht⟩ := bind_ok hrun
    rw [← Except.ok.inj ht]
    exact Master.spawnProcess_bears hspawn fun h => absurd (hallowed.2.1.symm.trans h) Bool.false_ne_true
  | exit pid status =>
    obtain ⟨t,hget,ht⟩ := bind_ok hrun
    obtain ⟨u,hcollect,hu⟩ := bind_ok hget
    cases hu
    rw [← Except.ok.inj ht]
    exact .of_none _ (Master.collect_cases hcollect).log (by simp)
  | flags flags exiting justSpawn =>
    rw [← Except.ok.inj hrun]
    exact .of_none [] (by simp) (by simp)
  | reap =>
    rw [← Except.ok.inj hrun]
    exact .of_none [] (by simp) (by simp)
  | slot o =>
    obtain ⟨⟨i,hslot,hi⟩,-⟩ := hallowed
    obtain ⟨ch,live,hphase⟩ := Run.slot_phase hslot
    rw [Run.run,hphase] at hrun
    obtain ⟨r,hr,ht⟩ := bind_ok hrun
    rw [← Except.ok.inj ht]
    exact Reaping.slot_bears hr hi
  | reaped =>
    rw [← Except.ok.inj hrun]
    exact .of_none [] (by simp) (by simp)

/-! ### What the worker holds -/

namespace Master
variable {s s' : Master} {l : Ledger} {i : ℕ}

theorem forked_of_ne (hborn : s.Forking s' i) {k : ℕ} (hk : k ≠ i) :
    (s.forked s').processes k = s'.processes k := by
  rw [forked,hborn.slot]
  exact Function.update_of_ne hk _ _

theorem forked_channels (s s' : Master) (k : ℕ) :
    ((s.forked s').processes k).channel0 = (s'.processes k).channel0 ∧
    ((s.forked s').processes k).channel1 = (s'.processes k).channel1 := by
  unfold forked
  by_cases hk : k = s'.processSlot
  · subst hk
    simp
  · simp [hk]

theorem mem_others (hborn : s.Forking s' i) (k : ℕ) : k ∈ (s.forked s').others ↔
    k ≠ i ∧ k < s'.lastProcess ∧ (s'.processes k).pid ≠ -1 ∧ (s'.processes k).channel1 ≠ -1 := by
  have hslot : (s.forked s').processSlot = i := hborn.slot
  have hlast : (s.forked s').lastProcess = s.lastProcess := rfl
  simp only [others,List.mem_filter,List.mem_range,decide_eq_true_eq,hslot,hlast]
  by_cases hk : k = i
  · simp [hk]
  · simp [hk,forked_of_ne hborn hk,hborn.last k hk]

/-- What the worker closes: the reading ends of the others, and its own writing end. -/
theorem mem_initCloses (hborn : s.Forking s' i) (fd : ℤ) : fd ∈ (s.forked s').initCloses ↔
    (∃ k ∈ (s.forked s').others, (s'.processes k).channel1 = fd) ∨ fd = (s'.processes i).channel0 := by
  have hslot : (s.forked s').processSlot = i := hborn.slot
  simp only [initCloses,hslot,(forked_channels s s' _).1,(forked_channels s s' _).2,List.mem_append,List.mem_map,
    List.mem_singleton]

/-- The channel of the new child, and the reading ends of the others, are open. -/
structure Given (s' : Master) (l : Ledger) (i : ℕ) : Prop where
  valid0 : (s'.processes i).channel0 ≠ -1
  valid1 : (s'.processes i).channel1 ≠ -1
  own0 : l.owner (s'.processes i).channel0 = some (i,false)
  own1 : l.owner (s'.processes i).channel1 = some (i,true)

theorem Forking.given (hborn : s.Forking s' i) (hexact : s'.Exact l) (hbacked : s'.Backed l)
    (hattached : (s'.processes i).detached = false) : s'.Given l i := by
  obtain ⟨hpos0,hpos1⟩ := (hexact.wired i hborn.lt hborn.used).attached hattached hborn.runs
  obtain ⟨hown0,hown1⟩ := hbacked.own i hborn.lt hborn.used
  have hvalid0 : (s'.processes i).channel0 ≠ -1 := by omega
  have hvalid1 : (s'.processes i).channel1 ≠ -1 := by omega
  exact ⟨hvalid0,hvalid1,(hown0.resolve_left hvalid0).1,(hown1.resolve_left hvalid1).1⟩

theorem others_own (hborn : s.Forking s' i) (hbacked : s'.Backed l) {k : ℕ} (hk : k ∈ (s.forked s').others) :
    l.owner (s'.processes k).channel1 = some (k,true) := by
  obtain ⟨-,hlt,hused,hvalid⟩ := (mem_others hborn k).mp hk
  exact ((hbacked.own k hlt hused).2.resolve_left hvalid).1

/-- All that the worker closes is open, and each of it another number. -/
theorem initCloses_open (hborn : s.Forking s' i) (hgiven : s'.Given l i) (hbacked : s'.Backed l) :
    (s.forked s').initCloses.Nodup ∧ ∀ fd ∈ (s.forked s').initCloses, fd ≠ -1 ∧ (l.owner fd).isSome := by
  have hslot : (s.forked s').processSlot = i := hborn.slot
  constructor
  · simp only [initCloses,hslot,(forked_channels s s' _).1,(forked_channels s s' _).2]
    refine List.nodup_append.mpr ⟨?_,List.nodup_singleton _,?_⟩
    · refine List.Nodup.map_on (fun k hk m hm heq => ?_) (List.nodup_range.filter _)
      have howner := others_own hborn hbacked hk
      rw [heq,others_own hborn hbacked hm] at howner
      exact (congrArg Prod.fst (Option.some.inj howner)).symm
    · intro fd hfd fd' hfd' heq
      obtain ⟨k,hk,rfl⟩ := List.mem_map.mp hfd
      have howner := others_own hborn hbacked hk
      rw [heq,List.mem_singleton.mp hfd',hgiven.own0] at howner
      cases howner
  · intro fd hfd
    rcases (mem_initCloses hborn fd).mp hfd with ⟨k,hk,rfl⟩ | rfl
    · exact ⟨((mem_others hborn k).mp hk).2.2.2,by rw [others_own hborn hbacked hk]; rfl⟩
    · exact ⟨hgiven.valid0,by rw [hgiven.own0]; rfl⟩

/-- What stays open in the worker. -/
theorem holds_iff (hborn : s.Forking s' i) (hexact : s'.Exact l) (hgiven : s'.Given l i) (hbacked : s'.Backed l)
    (fd : ℤ) (k : ℕ) (side : Bool) : (fd ∉ (s.forked s').initCloses ∧ l.owner fd = some (k,side)) ↔
      if side then k = i ∧ fd = (s'.processes i).channel1
      else k ≠ i ∧ k < s'.lastProcess ∧ (s'.processes k).pid ≠ -1 ∧ fd = (s'.processes k).channel0 ∧ fd ≠ -1 := by
  rw [mem_initCloses hborn]
  constructor
  · rintro ⟨hkept,howner⟩
    obtain ⟨hvalid,hlt,hused,hfd⟩ := hexact.own fd k side howner
    have hopen : fd ≠ -1 := by omega
    cases side with
    | true =>
      rw [if_pos rfl]
      have hki : k = i := by
        by_contra hk
        exact hkept (.inl ⟨k,(mem_others hborn k).mpr ⟨hk,hlt,hused,fun hnone => hopen (hfd.symm.trans hnone)⟩,hfd⟩)
      exact ⟨hki,hki ▸ hfd.symm⟩
    | false =>
      rw [if_neg Bool.false_ne_true]
      refine ⟨?_,hlt,hused,hfd.symm,hopen⟩
      rintro rfl
      exact hkept (.inr hfd.symm)
  · cases side with
    | true =>
      rw [if_pos rfl]
      rintro ⟨rfl,rfl⟩
      refine ⟨?_,hgiven.own1⟩
      rintro (⟨m,hm,heq⟩ | heq)
      · have howner := others_own hborn hbacked hm
        rw [heq,hgiven.own1] at howner
        cases howner
        exact ((mem_others hborn _).mp hm).1 rfl
      · have howner := hgiven.own1
        rw [heq,hgiven.own0] at howner
        cases howner
    | false =>
      rw [if_neg Bool.false_ne_true]
      rintro ⟨hk,hlt,hused,rfl,hopen⟩
      have hown0 := ((hbacked.own k hlt hused).1.resolve_left hopen).1
      refine ⟨?_,hown0⟩
      rintro (⟨m,hm,heq⟩ | heq)
      · have howner := others_own hborn hbacked hm
        rw [heq,hown0] at howner
        cases howner
      · rw [heq,hgiven.own0] at hown0
        cases hown0
        exact hk rfl

end Master

theorem Ledgered.reachable_backed {s : Ledgered} (h : (ledgering.restrict Ledgered.Sturdy).Reachable s) :
    s.run.master.Backed s.ledger := by
  refine h.invariant (I := fun s => s.run.master.Backed s.ledger) (fun s hinit => ?_)
    fun s a s' _ hs (hstep : s.Sturdy a ∧ s.step a = some s') => Ledgered.step_backed hs hstep.1 hstep.2
  obtain ⟨⟨hlast,-⟩,-,htwice⟩ := hinit
  exact ⟨htwice,fun i hi => by omega⟩

/-- A worker process that a step forks at any time has, after `ngx_worker_process_init`, of all ends of channels
just the reading end of its own, where `ngx_channel` is, and the writing ends of all other entries in use; it
has closed nothing that was not open. -/
theorem worker_holds {s s' : Ledgered} {a : Action} {i : ℕ} {pid : ℤ}
    (h : (ledgering.restrict Ledgered.Sturdy).Reachable s) (hstep : (ledgering.restrict Ledgered.Sturdy).step s a s')
    (hforked : .forked i pid ∈ s'.run.master.log.drop s.run.master.log.length)
    (hattached : (s'.run.master.processes i).detached = false) :
    let child := s.run.master.forked s'.run.master
    let l := child.initCloses.foldl Ledger.closes s'.ledger
    l.twice = false ∧ child.channel = (child.processes i).channel1 ∧
    ∀ fd k side, l.owner fd = some (k,side) ↔
      if side then k = i ∧ fd = child.channel
      else k ≠ i ∧ k < child.lastProcess ∧ (child.processes k).pid ≠ -1 ∧ fd = (child.processes k).channel0 ∧
        fd ≠ -1 := by
  intro child l
  obtain ⟨hsturdy,hrun⟩ := hstep
  have hbacked := Ledgered.step_backed (Ledgered.reachable_backed h) hsturdy hrun
  have hexact := Ledgered.step_exact (Ledgered.reachable_exact h.of_restrict) hrun
  obtain ⟨events,hlog,hbears⟩ := Run.step_bears (Ledgered.step_eq hrun).1
  rw [hlog,List.drop_left] at hforked
  have hborn := hbears i pid hforked
  have hgiven := hborn.given hexact hbacked hattached
  obtain ⟨hnodup,hopen⟩ := Master.initCloses_open hborn hgiven hbacked
  obtain ⟨htwice,howner⟩ := Ledger.closes_all hnodup hopen
  have hchannel : child.channel = (s'.run.master.processes i).channel1 := hborn.channel hattached
  refine ⟨htwice.trans hbacked.twice,?_,fun fd k side => ?_⟩
  · rw [hchannel,(Master.forked_channels _ _ i).2]
  · have hholds := Master.holds_iff hborn hexact hgiven hbacked fd k side
    have hkept : l.owner fd = some (k,side) ↔ fd ∉ child.initCloses ∧ s'.ledger.owner fd = some (k,side) := by
      by_cases hmem : fd ∈ child.initCloses
      · have hnone : l.owner fd = none := (howner fd).trans (if_pos hmem)
        simp [hnone,hmem]
      · have hsame : l.owner fd = s'.ledger.owner fd := (howner fd).trans (if_neg hmem)
        simp [hsame,hmem]
    rw [hkept,hholds,hchannel,(Master.forked_channels _ _ k).1]
    cases side with
    | true => rfl
    | false =>
      simp only [Bool.false_eq_true,if_false]
      refine and_congr_right fun hk => ?_
      rw [Master.forked_of_ne hborn hk,hborn.last k hk]
      rfl

/-- Two workers start; the second one has the channel to the first. -/
theorem worker_holds_second : ∃ s s' : Ledgered, (ledgering.restrict Ledgered.Sturdy).Reachable s ∧
    s.step (.spawn .respawn ⟨.ready 12 13,some 101⟩) = some s' ∧
    (s.run.master.forked s'.run.master).initCloses = [11,12] ∧
    ((s.run.master.forked s'.run.master).initCloses.foldl Ledger.closes s'.ledger).owner 13 = some (1,true) ∧
    ((s.run.master.forked s'.run.master).initCloses.foldl Ledger.closes s'.ledger).owner 10 = some (0,false) := by
  obtain ⟨s,hs⟩ : ∃ s, TransitionSystem.replay (fun s a => if Ledgered.Sturdy s a then Ledgered.step s a else none)
      idleLedgered [.spawn .respawn ⟨.ready 10 11,some 100⟩] = some s := ⟨_,rfl⟩
  obtain ⟨s',hs'⟩ : ∃ s', s.step (.spawn .respawn ⟨.ready 12 13,some 101⟩) = some s' := by
    cases hs
    exact ⟨_,rfl⟩
  have hreach : (ledgering.restrict Ledgered.Sturdy).Reachable s :=
    TransitionSystem.Reachable.of_guarded_replay (.init ⟨⟨rfl,rfl,rfl⟩,rfl,rfl⟩) hs
  obtain ⟨-,hchannel,hholds⟩ := worker_holds hreach
    (show (ledgering.restrict Ledgered.Sturdy).step s (.spawn .respawn ⟨.ready 12 13,some 101⟩) s' from ⟨trivial,hs'⟩)
    (show .forked 1 101 ∈ s'.run.master.log.drop s.run.master.log.length by cases hs; cases hs'; decide)
    (by cases hs; cases hs'; decide)
  refine ⟨s,s',hreach,hs',?_,?_,?_⟩
  · cases hs
    cases hs'
    decide
  · rw [hholds]
    cases hs
    cases hs'
    decide
  · rw [hholds]
    cases hs
    cases hs'
    decide

end InsideNginx.Process
