import InsideNginx.Process.Live
import InsideNginx.Process.Messages
import InsideNginx.Process.Telling

/-! A reload tells the old workers to quit and no new one: the new ones bear a mark, which the
broadcast takes away, and nobody else bears it. -/
namespace InsideNginx.Process

/-- A child that a broadcast would skip because of its mark. -/
def Entry.Marked (p : Entry) : Prop := p.pid ≠ -1 ∧ p.detached = false ∧ p.justSpawn = true

/-- A mode that does not mark the children. -/
def Respawn.Unmarking (mode : Respawn) : Prop := ∀ p : Entry, (p.setMode mode).justSpawn = false

/-- A mode that marks the children. -/
def Respawn.Marking (mode : Respawn) : Prop := mode = .justSpawn ∨ mode = .justRespawn

namespace Master
variable {s s' : Master} {mode : Respawn} {o : Outcome} {i : ℕ}

/-- No child bears the mark. -/
def Unmarked (s : Master) : Prop := ∀ i < s.lastProcess, ¬ (s.processes i).Marked

theorem Unmarked.congr (h : s.Unmarked) (hlast : s'.lastProcess = s.lastProcess)
    (hprocesses : s'.processes = s.processes) : s'.Unmarked := fun i hi => hprocesses ▸ h i (hlast ▸ hi)

theorem Noted.unmarked (h : Noted s s') (hs : s.Unmarked) : s'.Unmarked := by
  intro i hi hmarked
  refine hs i (h.lastProcess ▸ hi) ?_
  rwa [Entry.Marked,h.pid,h.detached,h.justSpawn] at hmarked

/-- A broadcast takes the marks away. -/
theorem unmarked_signalWorkerProcesses (s : Master) (signo : Signo) (d : ℕ → Delivery) :
    (s.signalWorkerProcesses signo d).Unmarked := by
  obtain ⟨hpid,hdetached,hjust,hlast,-⟩ := signalWorkerProcesses_told s signo d
  rintro i hi ⟨hused,halone,hmark⟩
  rw [hpid] at hused
  rw [hdetached] at halone
  rw [hjust i (hlast ▸ hi) hused halone] at hmark
  cases hmark

theorem SpawnFails.unmarked (h : SpawnFails s i s') (hs : s.Unmarked) : s'.Unmarked := by
  intro j hj
  rw [h.lastProcess] at hj
  by_cases hji : j = i
  · obtain ⟨fd0,fd1,hself⟩ := h.self
    rw [hji,hself]
    exact hs i (hji ▸ hj)
  · rw [h.other j hji]
    exact hs j hj

theorem SpawnForks.unmarked {pid : ℤ} {p : Entry} (h : SpawnForks s mode pid p s') (hp : ¬ p.Marked)
    (hs : s.Unmarked) : s'.Unmarked := by
  intro j hj
  rw [h.processes]
  by_cases hjs : j = s.spawnSlot mode
  · rwa [hjs,Function.update_self]
  · rw [Function.update_of_ne hjs]
    exact hs j (h.lt hj hjs)

theorem Unmarked.spawnProcess (h : s.Unmarked) (hmode : mode.Unmarking) {child : Option Child}
    (hspawn : s.spawnProcess mode o = .ok (s',child)) : s'.Unmarked := by
  rcases spawnProcess_cases hspawn with ⟨-,-,hfails⟩ | ⟨pid,p,-,-,hforks⟩
  · exact hfails.unmarked h
  · obtain ⟨fd0,fd1,hp⟩ := hforks.entry
    refine hforks.unmarked (fun hmarked => ?_) h
    have := hmarked.2.2
    rw [hp,hmode] at this
    cases this

/-- What every call of `ngx_spawn_process` with one of the modes keeps, the start of all processes
keeps. -/
theorem startProcesses_rule {I : Master → Prop} {P : Respawn → Prop} {conf : Conf} {respawn : Bool} {o : Starts}
    (hmode : P mode) (hmanager : P (if respawn then .justRespawn else .respawn))
    (hloader : P (if respawn then .justSpawn else .norespawn))
    (hstep : ∀ {s s' : Master} {mode : Respawn} {o : Outcome}, I s → P mode → s.startWorker mode o = .ok s' → I s')
    (h : I s) (hstart : s.startProcesses conf mode respawn o = .ok s') : I s' := by
  obtain ⟨t,hworkers,hcache⟩ := bind_ok hstart
  have ht : I t := by
    unfold startWorkerProcesses at hworkers
    generalize conf.workerProcesses = n at hworkers
    clear hcache
    induction n generalizing t with
    | zero =>
      cases hworkers
      exact h
    | succ n ih =>
      rw [List.range_succ,List.foldlM_append] at hworkers
      obtain ⟨u,hu,hround⟩ := bind_ok hworkers
      simp only [List.foldlM_cons,List.foldlM_nil] at hround
      obtain ⟨v,hv,hv'⟩ := bind_ok hround
      cases hv'
      exact hstep (ih u hu) hmode hv
  unfold startCacheManagerProcesses at hcache
  split at hcache
  · cases hcache
    exact ht
  obtain ⟨u,hu,hrest⟩ := bind_ok hcache
  have hu' := hstep ht hmanager hu
  split at hrest
  · cases hrest
    exact hu'
  · exact hstep hu' hloader hrest

theorem Unmarked.startWorker (h : s.Unmarked) (hmode : mode.Unmarking) (hstart : s.startWorker mode o = .ok s') :
    s'.Unmarked := by
  obtain ⟨⟨t,child⟩,hspawn,ht⟩ := bind_ok hstart
  cases ht
  exact (h.spawnProcess hmode hspawn).congr rfl rfl

theorem Unmarked.startProcesses {conf : Conf} {o : Starts} (h : s.Unmarked) (hmode : mode.Unmarking)
    (hstart : s.startProcesses conf mode false o = .ok s') : s'.Unmarked :=
  startProcesses_rule (I := Unmarked) (P := Respawn.Unmarking) hmode (fun _ => rfl) (fun _ => rfl)
    (fun hs hmode hstart => hs.startWorker hmode hstart) h hstart

/-- A new binary does not bear the mark. -/
theorem Unmarked.spawn_detached {child : Option Child} (h : s.Unmarked)
    (hspawn : s.spawnProcess .detached o = .ok (s',child)) : s'.Unmarked := h.spawnProcess (fun _ => rfl) hspawn

end Master

/-! ### Reaping -/

namespace Reaping
variable {r r' : Reaping} {i : ℕ} {o : Outcome}

theorem slot_unmarked (h : r.slot i o = .ok r') (hi : i < r.master.lastProcess) (hr : r.master.Unmarked) :
    r'.master.Unmarked := by
  rcases slot_cases h with ⟨-,rfl⟩ | ⟨-,-,rfl⟩ | ⟨hused,-,r₁,hr₁,hcases⟩
  · exact hr
  · exact hr
  have hr₁' : r₁.master.Unmarked ∧ r₁.master.lastProcess = r.master.lastProcess ∧
      (r₁.master.processes i).pid = (r.master.processes i).pid := by
    split at hr₁
    · subst hr₁
      exact ⟨hr,rfl,rfl⟩
    · subst hr₁
      have hclosed := r.passClose_closed i
      refine ⟨fun j hj => ?_,hclosed.lastProcess,by rw [hclosed.processes,Function.update_self]⟩
      rw [hclosed.lastProcess] at hj
      rw [hclosed.processes]
      by_cases hji : j = i
      · rw [hji,Function.update_self]
        exact hr i hi
      · rw [Function.update_of_ne hji]
        exact hr j hj
  obtain ⟨hunmarked,hlast,hpid⟩ := hr₁'
  rcases hcases with ⟨-,hrespawn⟩ | ⟨-,rfl⟩
  · rcases respawn_cases hrespawn with ⟨-,s,hfails,rfl⟩ | ⟨pid,p,s,-,hforks,rfl⟩
    · exact hfails.unmarked hunmarked
    · obtain ⟨fd0,fd1,hp⟩ := hforks.entry
      have hold : ¬ (r₁.master.processes i).Marked := hunmarked i (hlast ▸ hi)
      have hp' : ¬ p.Marked := by
        rw [hp]
        exact fun hmarked => hold ⟨hpid ▸ hused,hmarked.2⟩
      exact (hforks.unmarked hp' hunmarked).congr rfl rfl
  · obtain ⟨⟨hend,hlast',hprocesses⟩ | ⟨-,hlast',hprocesses⟩,-⟩ := r₁.drop_cases i
    · intro j hj
      rw [hprocesses]
      exact hunmarked j (by omega)
    · intro j hj
      rw [hprocesses]
      by_cases hji : j = i
      · rw [hji,Function.update_self]
        exact fun hmarked => hmarked.1 rfl
      · rw [Function.update_of_ne hji]
        exact hunmarked j (hlast' ▸ hj)

theorem slots_unmarked {os : ℕ → Outcome} {n : ℕ} (h : slots os n i r = .ok r') (hr : r.master.Unmarked) :
    r'.master.Unmarked := by
  induction n generalizing i r with
  | zero =>
    cases h
    exact hr
  | succ n ih =>
    unfold slots at h
    split at h
    · rename_i hi
      obtain ⟨r₁,hslot,hrest⟩ := bind_ok h
      exact ih hrest (slot_unmarked hslot hi hr)
    · cases h
      exact hr

end Reaping

/-! ### The loop -/

namespace Cycle
variable {c c' : Cycle} {x : Answers} {dd : Respawn}

theorem unmarked_wake {signals : List Signal} {o : ℕ → Outcome} (h : c.master.Unmarked)
    (hwake : c.wake signals o = .ok c') : c'.master.Unmarked := by
  obtain ⟨s,hsignals,hreap⟩ := bind_ok hwake
  have harm : c.arm.master.Unmarked := by
    unfold arm
    split
    · exact h
    · exact h
  have hs : s.Unmarked := (Master.noted_signals hsignals).unmarked harm
  unfold reap at hreap
  split at hreap
  · obtain ⟨⟨t,live⟩,hpass,ht⟩ := bind_ok hreap
    cases ht
    obtain ⟨r,hslots,hr⟩ := bind_ok hpass
    cases hr
    exact Reaping.slots_unmarked hslots hs
  · cases hreap
    exact hs

theorem unmarked_tell (c : Cycle) (signo : Signo) (d : ℕ → Delivery) : (c.tell signo d).master.Unmarked :=
  Master.unmarked_signalWorkerProcesses _ _ _

theorem unmarked_terminate (h : c.master.Unmarked) (x : Answers) : (c.terminate x).master.Unmarked := by
  unfold terminate
  have hdelay : (if c.delay = 0 then { c with delay := 50 } else c).master.Unmarked := by split <;> exact h
  generalize (if c.delay = 0 then { c with delay := 50 } else c) = c₁ at hdelay
  dsimp only
  split
  · exact hdelay
  · split
    · exact unmarked_tell _ _ _
    · exact unmarked_tell _ _ _

/-- The branches after the one for `ngx_reconfigure` mark no child, if the mode `dd` does not. -/
theorem unmarked_rest (hdd : dd.Unmarking) (h : c.master.Unmarked) (hrest : c.rest dd x = .ok c') :
    c'.master.Unmarked := by
  obtain ⟨c₁,hrestart,hrest⟩ := bind_ok hrest
  obtain ⟨c₂,hbinary,hc₂⟩ := bind_ok hrest
  cases hc₂
  have h₁ : c₁.master.Unmarked := by
    unfold restart at hrestart
    split at hrestart
    · obtain ⟨s,hstart,hs⟩ := bind_ok hrestart
      cases hs
      refine Master.Unmarked.startProcesses ?_ hdd hstart
      exact h
    · cases hrestart
      exact h
  have hreopen : (c₁.reopen x).master.Unmarked := by
    unfold reopen
    split
    · exact unmarked_tell _ _ _
    · exact h₁
  have h₂ : c₂.master.Unmarked := by
    unfold changeBinary at hbinary
    split at hbinary
    · dsimp only at hbinary
      split at hbinary
      · cases hbinary
        exact hreopen
      · obtain ⟨⟨s,child⟩,hspawn,hs⟩ := bind_ok hbinary
        cases hs
        refine Master.Unmarked.congr (Master.Unmarked.spawn_detached ?_ hspawn) rfl rfl
        exact hreopen
    · cases hbinary
      exact hreopen
  unfold noaccept
  split
  · exact unmarked_tell _ _ _
  · exact h₂

theorem unmarked_act (hdd : dd.Unmarking) (h : c.master.Unmarked) (hact : c.act dd x = .ok (.back c')) :
    c'.master.Unmarked := by
  unfold Cycle.act at hact
  split at hact
  · cases hact
  split at hact
  · cases hact
    exact unmarked_terminate h x
  split at hact
  · cases hact
    exact unmarked_tell _ _ _
  split at hact
  · dsimp only at hact
    split at hact
    · obtain ⟨c₁,hupgrade,hc₁⟩ := bind_ok hact
      cases hc₁
      obtain ⟨s,hstart,hs⟩ := bind_ok hupgrade
      cases hs
      refine Master.Unmarked.congr (Master.Unmarked.startProcesses ?_ (fun _ => rfl) hstart) rfl rfl
      exact h
    · split at hact
      · cases hact
        exact h
      · obtain ⟨c₁,hreload,hrest⟩ := bind_ok hact
        obtain ⟨c₂,hrest',hc₂⟩ := bind_ok hrest
        cases hc₂
        obtain ⟨s,-,hs⟩ := bind_ok hreload
        cases hs
        exact unmarked_rest hdd (unmarked_tell _ _ _) hrest'
  · obtain ⟨c₁,hrest,hc₁⟩ := bind_ok hact
    cases hc₁
    exact unmarked_rest hdd h hrest

end Cycle

/-! ### The generations -/

namespace Master
variable {s s' : Master} {mode : Respawn} {o : Outcome}

/-- A child in the table. -/
def Holds (s : Master) (i : ℕ) : Prop := i < s.lastProcess ∧ (s.processes i).pid ≠ -1

/-- Children that bear the mark have joined those in the table, or none have. -/
structure Joined (s s' : Master) : Prop where
  lastProcess : s.lastProcess ≤ s'.lastProcess
  kept : ∀ i, s.Holds i → s'.processes i = s.processes i
  marked : ∀ i, s'.Holds i → s.Holds i ∨ (s'.processes i).justSpawn = true
  log : ∃ started, s'.log = s.log ++ started ∧ ∀ i pid, .forked i pid ∈ started → ¬ s.Holds i

theorem Joined.refl (s : Master) : Joined s s := ⟨le_rfl,fun _ _ => rfl,fun _ => .inl,[],by simp,by simp⟩

theorem Joined.holds (h : Joined s s') {i : ℕ} (hi : s.Holds i) : s'.Holds i :=
  ⟨hi.1.trans_le h.lastProcess,by rw [h.kept i hi]; exact hi.2⟩

theorem Joined.trans {t : Master} (h : Joined s t) (h' : Joined t s') : Joined s s' := by
  obtain ⟨xs,hxs,hfree⟩ := h.log
  obtain ⟨ys,hys,hfree'⟩ := h'.log
  refine ⟨h.lastProcess.trans h'.lastProcess,fun i hi => (h'.kept i (h.holds hi)).trans (h.kept i hi),fun i hi => ?_,
    xs ++ ys,by rw [hys,hxs,List.append_assoc],fun i pid hmem => ?_⟩
  · rcases h'.marked i hi with hi | hi
    · rcases h.marked i hi with hold | hmark
      · exact .inl hold
      · exact .inr (by rw [h'.kept i hi,hmark])
    · exact .inr hi
  · rcases List.mem_append.mp hmem with hmem | hmem
    · exact hfree i pid hmem
    · exact fun hi => hfree' i pid hmem (h.holds hi)

/-- A new child takes a slot that holds none. -/
theorem spawnSlot_free (hmode : mode.isSlot = false) : ¬ s.Holds (s.spawnSlot mode) := by
  rintro ⟨hlt,hused⟩
  rcases spawnSlot_cases (s := s) hmode with hmem | ⟨heq,-⟩
  · exact hused (Finset.mem_filter.mp hmem).2
  · omega

theorem SpawnFails.joined {i : ℕ} (h : SpawnFails s i s') (hfree : ¬ s.Holds i) : Joined s s' := by
  obtain ⟨events,hlog,hquiet⟩ := h.log
  refine ⟨h.lastProcess.ge,fun j hj => h.other j fun hji => hfree (hji ▸ hj),fun j ⟨hlt,hused⟩ => .inl ?_,
    events,hlog,fun j pid hmem => absurd (hquiet _ hmem) id⟩
  refine ⟨h.lastProcess ▸ hlt,?_⟩
  by_cases hji : j = i
  · obtain ⟨fd0,fd1,hself⟩ := h.self
    rw [hji,hself] at hused
    exact hji ▸ hused
  · rwa [h.other j hji] at hused

theorem SpawnForks.joined {pid : ℤ} {p : Entry} (h : SpawnForks s mode pid p s') (hmode : mode.Marking) :
    Joined s s' := by
  have hslot : mode.isSlot = false := by rcases hmode with rfl | rfl <;> rfl
  have hfree := spawnSlot_free (s := s) hslot
  obtain ⟨fd0,fd1,hp⟩ := h.entry
  have hmark : p.justSpawn = true := by rcases hmode with rfl | rfl <;> rw [hp] <;> rfl
  refine ⟨?_,fun j hj => ?_,fun j ⟨hlt,hused⟩ => ?_,_,h.log,fun j pid' hmem => ?_⟩
  · rw [h.lastProcess]
    split <;> omega
  · have hjs : j ≠ s.spawnSlot mode := fun hjs => hfree (hjs ▸ hj)
    rw [h.processes,Function.update_of_ne hjs]
  · rw [h.processes] at hused ⊢
    by_cases hjs : j = s.spawnSlot mode
    · rw [hjs,Function.update_self]
      exact .inr hmark
    · rw [Function.update_of_ne hjs] at hused
      exact .inl ⟨h.lt hlt hjs,hused⟩
  · simp only [List.mem_cons,reduceCtorEq,Event.forked.injEq,List.not_mem_nil,or_false,false_or] at hmem
    rwa [hmem.1]

theorem joined_startWorker (hmode : mode.Marking) (h : s.startWorker mode o = .ok s') : Joined s s' := by
  have hslot : mode.isSlot = false := by rcases hmode with rfl | rfl <;> rfl
  obtain ⟨⟨t,child⟩,hspawn,ht⟩ := bind_ok h
  cases ht
  have hjoined : Joined s t := by
    rcases spawnProcess_cases hspawn with ⟨-,-,hfails⟩ | ⟨pid,p,-,-,hforks⟩
    · exact hfails.joined (spawnSlot_free hslot)
    · exact hforks.joined hmode
  refine hjoined.trans ⟨le_rfl,fun _ _ => rfl,fun _ => .inl,_,rfl,fun j pid hmem => ?_⟩
  simp at hmem

theorem joined_startProcesses {conf : Conf} {o : Starts}
    (h : s.startProcesses conf .justRespawn true o = .ok s') : Joined s s' :=
  startProcesses_rule (I := Joined s) (P := Respawn.Marking) (.inr rfl) (.inr rfl) (.inl rfl)
    (fun hs hmode hstart => hs.trans (joined_startWorker hmode hstart)) (.refl s) h

/-- The children that a reload tells to quit. -/
def outgoing (s : Master) : List ℕ := (List.range s.lastProcess).filter fun i =>
  (s.processes i).pid ≠ -1 ∧ (s.processes i).detached = false ∧ (s.processes i).exiting = false

theorem mem_outgoing {i : ℕ} : i ∈ s.outgoing ↔
    s.Holds i ∧ (s.processes i).detached = false ∧ (s.processes i).exiting = false := by
  simp [outgoing,Holds,and_assoc]

/-- The broadcast after a start that marks its children reaches the old ones only. -/
theorem Joined.hears (h : Joined s s') (hunmarked : s.Unmarked) {i : ℕ} (hi : i < s'.lastProcess) :
    (s'.processes i).hears .shutdown = true ↔ i ∈ s.outgoing := by
  rw [mem_outgoing]
  by_cases hold : s.Holds i
  · have hmark : (s.processes i).detached = false → (s.processes i).justSpawn = false := fun halone =>
      Bool.eq_false_of_not_eq_true fun hjust => hunmarked i hold.1 ⟨hold.2,halone,hjust⟩
    have hpid := hold.2
    rw [h.kept i hold]
    simp only [Entry.hears,hold,true_and]
    grind
  · have hnot : (s'.processes i).hears .shutdown = false := by
      by_cases hnew : (s'.processes i).pid = -1
      · simp [Entry.hears,hnew]
      · have hmark := (h.marked i ⟨hi,hnew⟩).resolve_left hold
        simp [Entry.hears,hmark]
    simp [hnot,hold]

theorem Joined.tell_log (h : Joined s s') (hunmarked : s.Unmarked) (d : ℕ → Delivery) :
    (s'.signalWorkerProcesses .shutdown d).log =
      s'.log ++ s.outgoing.flatMap fun i => (s.processes i).attempt .shutdown i (d i) := by
  obtain ⟨-,-,-,-,-,hlog⟩ := signalWorkerProcesses_told s' .shutdown d
  have hfilter : ((List.range s'.lastProcess).filter fun i => (s'.processes i).hears .shutdown) = s.outgoing := by
    obtain ⟨k,hk⟩ := Nat.exists_eq_add_of_le h.lastProcess
    have hnew : ((List.range k).map (s.lastProcess + ·)).filter (fun i => (s'.processes i).hears .shutdown) = [] := by
      refine List.filter_eq_nil_iff.mpr fun i hi hhears => ?_
      obtain ⟨j,hj,rfl⟩ := List.mem_map.mp hi
      have hj := List.mem_range.mp hj
      have hold := (mem_outgoing.mp ((h.hears hunmarked (by omega)).mp hhears)).1.1
      omega
    rw [hk,List.range_add,List.filter_append,hnew,List.append_nil]
    refine List.filter_congr fun i hi => ?_
    have hi := List.mem_range.mp hi
    rw [Bool.eq_iff_iff,h.hears hunmarked (by omega),outgoing,List.mem_filter]
    simp [hi]
  rw [hlog,hfilter]
  congr 1
  refine List.flatMap_congr fun i hi => ?_
  rw [h.kept i (mem_outgoing.mp hi).1]

end Master

namespace Stage

/-- No child bears the mark at the top of the loop or after the reaping. -/
def Unmarked : Stage → Prop
  | .asleep c | .awake c => c.master.Unmarked
  | .exited _ => True

theorem Unmarked.turn {dd : Respawn} {stage stage' : Stage} {turn : Turn} (hdd : dd.Unmarking) (h : stage.Unmarked)
    (hturn : stage.turn dd turn = some stage') : stage'.Unmarked := by
  cases stage with
  | asleep c =>
    cases turn with
    | wake signals o =>
      obtain ⟨c',hwake,rfl⟩ := Option.map_eq_some_iff.mp hturn
      exact Cycle.unmarked_wake h (toOption_ok hwake)
    | act x => cases hturn
  | awake c =>
    cases turn with
    | wake signals o => cases hturn
    | act x =>
      obtain ⟨next,hact,rfl⟩ := Option.map_eq_some_iff.mp hturn
      cases next with
      | back c' => exact Cycle.unmarked_act hdd h (toOption_ok hact)
      | exit s => trivial
  | exited s => cases turn <;> cases hturn

theorem reachable_unmarked {dd : Respawn} {stage : Stage} (hdd : dd.Unmarking) (h : (cycling dd).Reachable stage) :
    stage.Unmarked := by
  refine h.invariant (I := Stage.Unmarked) (fun stage hinit => ?_) fun stage turn stage' _ hs hstep =>
    hs.turn hdd hstep
  obtain ⟨m,conf,o,c,hlast,hstart,rfl⟩ := hinit
  obtain ⟨s,hs,hc⟩ := bind_ok hstart
  cases hc
  refine Master.Unmarked.congr (Master.Unmarked.startProcesses (fun i hi => ?_) (fun _ => rfl) hs) rfl rfl
  omega

end Stage

/-- Whenever the master sleeps no child bears the mark of a new one; so the broadcast of a reload
attempts to reach every child of the old generation once, and none of the new one. The mode that
the restart passes on must not mark the children. -/
theorem reload_generation {dd : Respawn} (hdd : dd.Unmarking) :
    (∀ c, (cycling dd).Reachable (.asleep c) → ∀ i < c.master.lastProcess, (c.master.processes i).pid ≠ -1 →
      (c.master.processes i).detached = false → (c.master.processes i).justSpawn = false) ∧
    ∀ c x conf next, (cycling dd).Reachable (.awake c) → c.flags.terminate = false → c.flags.quit = false →
      c.flags.reconfigure = true → c.flags.newBinary = 0 → x.conf = some conf → c.act dd x = .ok next →
      ∃ (s : Master) (started : List Event) (c₁ c₂ : Cycle),
        (c.setFlags { c.flags with reconfigure := false }).master.startProcesses conf .justRespawn true x.starts =
          .ok s ∧
        s.log = c.master.log ++ started ∧ (∀ i pid, .forked i pid ∈ started → i ∉ c.master.outgoing) ∧
        c₁.master = s.signalWorkerProcesses .shutdown (x.tell .shutdown) ∧
        c₁.master.log = s.log ++
          c.master.outgoing.flatMap (fun i => (c.master.processes i).attempt .shutdown i (x.tell .shutdown i)) ∧
        c₁.rest dd x = .ok c₂ ∧ next = .back c₂ := by
  refine ⟨fun c h i hi hused halone => ?_,fun c x conf next h hterminate hquit hreconfigure hbinary hconf hact => ?_⟩
  · exact Bool.eq_false_of_not_eq_true fun hmark => Stage.reachable_unmarked hdd h i hi ⟨hused,halone,hmark⟩
  have hunmarked : c.master.Unmarked := Stage.reachable_unmarked hdd h
  rw [Cycle.act,if_neg (by simp [hterminate,hquit]),if_neg (by simp [hterminate]),if_neg (by simp [hquit]),
    if_pos hreconfigure] at hact
  dsimp only at hact
  split at hact
  · rename_i hnew
    exact absurd hbinary hnew
  rw [hconf] at hact
  obtain ⟨c₁,hreload,hrest⟩ := bind_ok hact
  obtain ⟨c₂,hrest',hc₂⟩ := bind_ok hrest
  cases hc₂
  obtain ⟨s,hstart,hs⟩ := bind_ok hreload
  cases hs
  have hjoined := Master.joined_startProcesses hstart
  obtain ⟨started,hlog,hfree⟩ := hjoined.log
  exact ⟨s,started,_,c₂,hstart,hlog,fun i pid hmem hi => hfree i pid hmem (Master.mem_outgoing.mp hi).1,rfl,
    hjoined.tell_log hunmarked _,hrest',rfl⟩

/-- A reload with one worker: the old one, in slot 0, is told to quit, and the new one is not. -/
theorem reload_generation_one : ∃ (c : Cycle) (s s' : Master), (cycling .respawn).Reachable (.awake c) ∧
    s' = s.signalWorkerProcesses .shutdown (fun _ => ⟨true,.ok⟩) ∧ s.lastProcess = 2 ∧
    s'.log = s.log ++ [.write 0 ⟨.quit,0,0,-1⟩] := by
  obtain ⟨c,hc,hreach,-⟩ := started
  obtain ⟨c',hc'⟩ : ∃ c', Stage.turn .respawn (.asleep c) (.wake [.reconfigure] fun _ => ⟨.none,none⟩) =
      some (.awake c') := by
    cases hc
    exact ⟨_,rfl⟩
  obtain ⟨next,hnext⟩ : ∃ next, c'.act .respawn
      ⟨fun _ _ => ⟨true,.ok⟩,some ⟨1,false,false⟩,oneWorker 12 200,oneWorker 12 200,none,fun _ => ⟨true,.ok⟩⟩ =
        .ok next := by
    cases hc
    cases hc'
    exact ⟨_,rfl⟩
  have hreach' : (cycling .respawn).Reachable (.awake c') := .step hreach hc'
  obtain ⟨s,started,c₁,c₂,hstart,-,-,hc₁,htold,-,-⟩ := (reload_generation (show Respawn.Unmarking .respawn from fun _ => rfl)).2 c' _
    ⟨1,false,false⟩ next hreach' (by cases hc; cases hc'; rfl) (by cases hc; cases hc'; rfl)
    (by cases hc; cases hc'; rfl) (by cases hc; cases hc'; rfl) rfl hnext
  refine ⟨c',s,c₁.master,hreach',hc₁,?_,?_⟩
  · cases hc
    cases hc'
    cases hstart
    rfl
  · rw [htold]
    cases hc
    cases hc'
    rfl

end InsideNginx.Process
