import InsideNginx.Cycle.InitCycle
import InsideNginx.EventTimer.Expiry

/-! The old cycles of a single process: a reload leaves its old cycle to a timer, whose handler destroys the
cycles without live connections. -/
namespace InsideNginx.Cycle
open EventTimer Transfer

/-- `NGX_PROCESS_SINGLE`. -/
def processSingle : ℕ := 0

/-- The old cycles and what is around them. A cycle is the number of its creation, `cycle` is `ngx_cycle`, and `isInit`
tells whether that is the initial one. `oldCycles` is the contents of `ngx_old_cycles`, and `pushed`, `destroyed` and
`pools` are the cycles that were put there, those whose pool was destroyed, and the temporary pools. -/
structure OldCycles (w : ℕ) (ε : Type) where
  timers : Timers w ε
  cycle : ℕ
  isInit : Bool
  created : ℕ
  connections : ℕ → List ℤ
  oldCycles : List (Option ℕ)
  tempPool : Option ℕ
  pushed : List ℕ
  destroyed : List ℕ
  pools : List (Transfer ℕ)

/-- What a step can break: the contract of the timers, or a pointer that is NULL. -/
inductive Broken
  | misuse (m : Misuse)
  | nullDeref
  deriving DecidableEq, Repr

/-- The loop of `ngx_clean_old_cycles`: the entries afterwards, and the cycles that it destroys. -/
def cleanCycles (connections : ℕ → List ℤ) : List (Option ℕ) → List (Option ℕ) × List ℕ
  | [] => ([],[])
  | none::cs => (none::(cleanCycles connections cs).1,(cleanCycles connections cs).2)
  | some c::cs =>
    if (connections c).any (· != -1) then (some c::(cleanCycles connections cs).1,(cleanCycles connections cs).2)
    else (none::(cleanCycles connections cs).1,c::(cleanCycles connections cs).2)

section
variable {w : ℕ} {ε : Type} [DecidableEq ε] (cleaner : ε)

namespace OldCycles

/-- `ngx_add_timer(&ngx_cleaner_event, 30000)`. -/
def armCleaner (s : OldCycles w ε) : Except Broken (OldCycles w ε) :=
  match s.timers.addTimer cleaner (BitVec.ofNat w 30000) with
  | .error m => .error (.misuse m)
  | .ok timers => .ok { s with timers := timers }

/-- `ngx_clean_old_cycles`; `live` is set for the cycles that it finds and leaves. -/
def cleanOldCycles (s : OldCycles w ε) : Except Broken (OldCycles w ε) :=
  match s.tempPool with
  | none => .error .nullDeref
  | some pool =>
    let (cycles,gone) := cleanCycles s.connections s.oldCycles
    let s := { s with oldCycles := cycles, destroyed := s.destroyed ++ gone }
    if cycles.any Option.isSome then s.armCleaner cleaner
    else .ok { s with tempPool := none, oldCycles := [], pools := s.pools ++ [freed pool] }

/-- The temporary pool with an empty array; `memory` is what `ngx_create_pool` returns, or NULL when the array
cannot be made. -/
def startTempPool (memory : Option ℕ) (s : OldCycles w ε) : Option (OldCycles w ε) :=
  match s.tempPool with
  | some _ => some s
  | none => memory.map fun pool => { s with tempPool := some pool, oldCycles := [], pools := s.pools ++ [handed pool] }

/-- The flag is set once more after the call that has set it. -/
def armUnset (s : OldCycles w ε) : Except Broken (OldCycles w ε) :=
  if (s.timers.ev cleaner).timerSet then .ok s
  else (s.armCleaner cleaner).map fun s =>
    { s with timers := s.timers.setEvent cleaner { s.timers.ev cleaner with timerSet := true } }

/-- The end of `ngx_init_cycle`, which leaves the process when the array cannot take the old cycle. -/
def retire (process : ℕ) (memory : Option ℕ) (push : Bool) (s : OldCycles w ε) : Except Broken (Option (OldCycles w ε)) :=
  if process = processMaster ∨ s.isInit = true then .ok (some { s with destroyed := s.destroyed ++ [s.cycle] })
  else
    match s.startTempPool memory with
    | none => .ok none
    | some s =>
      if push = false then .ok none
      else
        let s := { s with oldCycles := s.oldCycles ++ [some s.cycle], pushed := s.pushed ++ [s.cycle] }
        (s.armUnset cleaner).map some

/-- The new cycle is `ngx_cycle`. -/
def replaceCycle (connections : List ℤ) (s : OldCycles w ε) : OldCycles w ε :=
  { s with
    cycle := s.created
    isInit := false
    created := s.created + 1
    connections := Function.update s.connections s.created connections }

/-- A round of `ngx_event_expire_timers` that finds the cleaner. -/
def expireCleaner (s : OldCycles w ε) : Except Broken (OldCycles w ε) :=
  match s.timers.expireTimer cleaner with
  | .error m => .error (.misuse m)
  | .ok timers =>
    if 0 < ((s.timers.ev cleaner).key - s.timers.currentMsec).toInt then .ok { s with timers := timers }
    else cleanOldCycles cleaner { s with timers := timers }

def setFd (c i : ℕ) (fd : ℤ) (s : OldCycles w ε) : OldCycles w ε :=
  { s with connections := Function.update s.connections c ((s.connections c).set i fd) }

end OldCycles

end

/-- A step: other code works with its timers, the timer of the cleaner comes up, a reload succeeds, a connection
of the current cycle is used, or one of any cycle is closed. -/
inductive CycleOp (w : ℕ) (ε : Type)
  | timer (a : Action w ε)
  | fire
  | reload (memory : Option ℕ) (push : Bool) (connections : List ℤ)
  | accept (i : ℕ) (fd : ℤ)
  | close (c i : ℕ)

/-- The event is none of the action. -/
def Spares {w : ℕ} {ε : Type} (e : ε) : Action w ε → Prop
  | .add f _ | .del f | .expire (some f) => f ≠ e
  | _ => True

namespace OldCycles
variable {w : ℕ} {ε : Type} [DecidableEq ε] (cleaner : ε)

def run (s : OldCycles w ε) : CycleOp w ε → Except Broken (Option (OldCycles w ε))
  | .timer a =>
    match s.timers.run a with
    | .error m => .error (.misuse m)
    | .ok timers => .ok (some { s with timers := timers })
  | .fire => (s.expireCleaner cleaner).map some
  | .reload memory push connections =>
    (s.retire cleaner processSingle memory push).map fun r => r.map (replaceCycle connections)
  | .accept i fd => .ok (some (s.setFd s.cycle i fd))
  | .close c i => .ok (some (s.setFd c i (-1)))

def Allowed (s : OldCycles w ε) : CycleOp w ε → Prop
  | .timer a => Spares cleaner a ∧ s.timers.Allowed a
  | .fire => s.timers.Allowed (.expire (some cleaner))
  | _ => True

end OldCycles

/-- The runs from the initial cycle on. -/
def reloading (w : ℕ) {ε : Type} [DecidableEq ε] (cleaner : ε) : TransitionSystem (OldCycles w ε) (CycleOp w ε) where
  init s := (timing w ε).init s.timers ∧ s.isInit = true ∧ s.cycle = 0 ∧ s.created = 1 ∧ s.oldCycles = [] ∧
    s.tempPool = none ∧ s.pushed = [] ∧ s.destroyed = [] ∧ s.pools = []
  step s op s' := s.Allowed cleaner op ∧ s.run cleaner op = .ok (some s')

/-! ### One step -/

section
variable {w : ℕ} {ε : Type} [DecidableEq ε] {cleaner : ε}

theorem Spares.run_eq {s t : Timers w ε} {a : Action w ε} (h : Spares cleaner a) (hrun : s.run a = .ok t) :
    t.ev cleaner = s.ev cleaner := by
  cases a with
  | add e timer => exact Timers.addTimer_other hrun (Ne.symm h)
  | del e => exact Timers.delTimer_other hrun (Ne.symm h)
  | advance d => cases hrun; rfl
  | enter => cases hrun; rfl
  | expire node =>
    cases node with
    | none => cases hrun; rfl
    | some e => exact Timers.expireTimer_other hrun (Ne.symm h)

/-- A cycle has a connection that is not closed. -/
def liveCycle (connections : ℕ → List ℤ) (c : ℕ) : Bool := (connections c).any (· != -1)

theorem cleanCycles_spec (connections : ℕ → List ℤ) (cs : List (Option ℕ)) :
    (cleanCycles connections cs).1.reduceOption = cs.reduceOption.filter (liveCycle connections) ∧
    (cleanCycles connections cs).2 = cs.reduceOption.filter (fun c => !liveCycle connections c) := by
  induction cs with
  | nil => exact ⟨rfl,rfl⟩
  | cons c cs ih =>
    cases c with
    | none => simpa [cleanCycles,List.reduceOption_cons_of_none] using ih
    | some c =>
      rw [cleanCycles]
      split_ifs with hlive
      · have hlive' : liveCycle connections c = true := hlive
        simp [List.reduceOption_cons_of_some,ih.1,ih.2,hlive']
      · have hlive' : liveCycle connections c = false := by simpa [liveCycle] using hlive
        simp [List.reduceOption_cons_of_some,List.reduceOption_cons_of_none,ih.1,ih.2,hlive']

theorem any_isSome_iff (cs : List (Option ℕ)) : cs.any Option.isSome = true ↔ cs.reduceOption ≠ [] := by
  rw [List.any_eq_true]
  constructor
  · rintro ⟨o,ho,hsome⟩
    obtain ⟨c,rfl⟩ := Option.isSome_iff_exists.mp hsome
    exact List.ne_nil_of_mem (List.reduceOption_mem_iff.mpr ho)
  · intro h
    obtain ⟨c,hc⟩ := List.exists_mem_of_ne_nil _ h
    exact ⟨some c,List.reduceOption_mem_iff.mp hc,rfl⟩

namespace OldCycles
variable {s s' : OldCycles w ε}

/-- The cycles in `ngx_old_cycles`. -/
def waiting (s : OldCycles w ε) : List ℕ := s.oldCycles.reduceOption

/-- Every cycle is current, waiting or destroyed, and those that were pushed are no longer current. -/
structure Placed (s : OldCycles w ε) : Prop where
  cycles : (s.cycle::(s.waiting ++ s.destroyed)).Nodup
  old : ∀ c ∈ s.cycle::(s.waiting ++ s.destroyed), c < s.created
  pushed : s.pushed.Nodup
  placed : ∀ c ∈ s.pushed, c ∈ s.waiting ++ s.destroyed
  waiting : ∀ c ∈ s.waiting, c ∈ s.pushed

/-- The invariant: while cycles are waiting there is a temporary pool, and the cleaner has its timer. -/
structure Sound (cleaner : ε) (s : OldCycles w ε) : Prop where
  placed : s.Placed
  timers : s.timers.Consistent
  armed : s.tempPool ≠ none → (s.timers.ev cleaner).timerSet = true ∧ s.waiting ≠ []
  idle : s.tempPool = none → (s.timers.ev cleaner).timerSet = false ∧ s.oldCycles = []
  pools : Holds s.pools s.tempPool.toList

omit [DecidableEq ε] in
/-- Waiting cycles are destroyed. -/
theorem Placed.destroy (h : s.Placed) (hcycle : s'.cycle = s.cycle) (hcreated : s'.created = s.created)
    (hpushed : s'.pushed = s.pushed) (hperm : (s'.waiting ++ s'.destroyed).Perm (s.waiting ++ s.destroyed))
    (hsub : ∀ c ∈ s'.waiting, c ∈ s.waiting) : s'.Placed := by
  have hall : (s'.cycle::(s'.waiting ++ s'.destroyed)).Perm (s.cycle::(s.waiting ++ s.destroyed)) := hcycle ▸ hperm.cons _
  refine ⟨hall.symm.nodup h.cycles,fun c hc => hcreated ▸ h.old c (hall.subset hc),hpushed ▸ h.pushed,fun c hc => ?_,
    fun c hc => hpushed ▸ h.waiting c (hsub c hc)⟩
  exact hperm.symm.subset (h.placed c (hpushed ▸ hc))

theorem armCleaner_spec (h : s.timers.Consistent) (hset : (s.timers.ev cleaner).timerSet = false) :
    ∃ t, s.armCleaner cleaner = .ok { s with timers := t } ∧ t.Consistent ∧ (t.ev cleaner).timerSet = true := by
  obtain ⟨t,hadd,ht,htree,-⟩ := Timers.addTimer_unset h hset (BitVec.ofNat w 30000)
  refine ⟨t,by rw [armCleaner,hadd],ht,?_⟩
  rw [← ht.mem_snd_iff,htree]
  simp

theorem armUnset_spec (h : s.timers.Consistent) :
    ∃ t, s.armUnset cleaner = .ok { s with timers := t } ∧ t.Consistent ∧ (t.ev cleaner).timerSet = true := by
  unfold armUnset
  split_ifs with hset
  · exact ⟨s.timers,rfl,h,hset⟩
  · obtain ⟨t,harm,ht,hset'⟩ := armCleaner_spec h (by simpa using hset)
    refine ⟨t,?_,ht,hset'⟩
    rw [harm]
    have hsame : t.setEvent cleaner { t.ev cleaner with timerSet := true } = t := by
      rw [Timers.setEvent,← hset']
      simp [Function.update_eq_self]
    simp [Except.map,hsame]

theorem filter_perm (p : ℕ → Bool) (xs ys : List ℕ) :
    (xs.filter p ++ (ys ++ xs.filter fun c => !p c)).Perm (xs ++ ys) := by
  refine (List.perm_append_comm.append_left _).trans ?_
  rw [← List.append_assoc]
  exact (List.filter_append_perm p xs).append_right ys

/-- The handler destroys the cycles without connections, and arms the cleaner again or destroys its pool. -/
theorem Sound.clean (h : s.Sound cleaner) {pool : ℕ} (hpool : s.tempPool = some pool) {t : Timers w ε} (ht : t.Consistent)
    (hset : (t.ev cleaner).timerSet = false) :
    ∃ s', cleanOldCycles cleaner { s with timers := t } = .ok s' ∧ s'.Sound cleaner ∧ s'.pushed = s.pushed ∧
      s'.destroyed = s.destroyed ++ s.waiting.filter fun c => !liveCycle s.connections c := by
  obtain ⟨hcycles,hgone⟩ := cleanCycles_spec s.connections s.oldCycles
  have hperm := filter_perm (liveCycle s.connections) s.waiting s.destroyed
  have hpools := h.pools
  rw [hpool] at hpools
  unfold cleanOldCycles
  simp only [hpool]
  generalize cleanCycles s.connections s.oldCycles = result at hcycles hgone ⊢
  obtain ⟨cycles,gone⟩ := result
  simp only at hcycles hgone ⊢
  subst hgone
  by_cases hany : cycles.any Option.isSome = true
  · rw [if_pos hany]
    obtain ⟨u,harm,hu,huset⟩ := armCleaner_spec (s := { s with
      timers := t
      oldCycles := cycles
      tempPool := some pool
      destroyed := s.destroyed ++ s.waiting.filter fun c => !liveCycle s.connections c }) ht hset
    refine ⟨_,harm,⟨?_,hu,fun _ => ⟨huset,(any_isSome_iff cycles).mp hany⟩,fun hnone => (by cases hnone),hpools⟩,rfl,rfl⟩
    · refine h.placed.destroy rfl rfl rfl ?_ fun c hc => ?_
      · rw [waiting,hcycles]
        exact hperm
      · rw [waiting,hcycles] at hc
        exact (List.mem_filter.mp hc).1
  · rw [if_neg hany]
    have hempty : s.waiting.filter (liveCycle s.connections) = [] := by
      rw [any_isSome_iff,not_not,hcycles] at hany
      exact hany
    rw [hempty] at hperm
    refine ⟨_,rfl,⟨h.placed.destroy rfl rfl rfl hperm (fun c hc => by cases hc),ht,fun hne => absurd rfl hne,
      fun _ => ⟨hset,rfl⟩,?_⟩,rfl,rfl⟩
    exact hpools.free

/-- Other timers and the connections do not matter. -/
theorem Sound.frame (h : s.Sound cleaner) {t : Timers w ε} (ht : t.Consistent)
    (hset : (t.ev cleaner).timerSet = (s.timers.ev cleaner).timerSet) (connections : ℕ → List ℤ) :
    Sound cleaner { s with timers := t, connections := connections } :=
  ⟨⟨h.placed.cycles,h.placed.old,h.placed.pushed,h.placed.placed,h.placed.waiting⟩,ht,fun hne => hset ▸ h.armed hne,
    fun hnone => hset ▸ h.idle hnone,h.pools⟩

/-- The timer of the cleaner comes up. -/
theorem Sound.fire (h : s.Sound cleaner) (hallowed : s.timers.Allowed (.expire (some cleaner))) :
    ∃ s', s.expireCleaner cleaner = .ok s' ∧ s'.Sound cleaner ∧ s'.pushed = s.pushed ∧
      ∃ gone, s'.destroyed = s.destroyed ++ gone ∧ ∀ c ∈ gone, liveCycle s.connections c = false := by
  have hset := (h.timers.mem_iff cleaner).mp hallowed.2.1
  unfold expireCleaner Timers.expireTimer
  by_cases hdue : 0 < ((s.timers.ev cleaner).key - s.timers.currentMsec).toInt
  · rw [if_pos hdue]
    dsimp only
    rw [if_pos hdue]
    have hround : Timers.Consistent { s.timers with loops := s.timers.loops - 1 } :=
      ⟨h.timers.count,h.timers.key,h.timers.asked⟩
    exact ⟨_,rfl,h.frame hround rfl s.connections,rfl,[],(List.append_nil _).symm,by simp⟩
  · obtain ⟨hdelete,hremoved⟩ := h.timers.remove hset true
    rw [if_neg hdue,hdelete]
    simp only [bind,Except.bind,pure,Except.pure]
    rw [if_neg hdue]
    cases hpool : s.tempPool with
    | none =>
      rw [(h.idle hpool).1] at hset
      cases hset
    | some pool =>
      obtain ⟨s',hclean,hs',hpushed,hdestroyed⟩ := h.clean hpool hremoved.consistent hremoved.unset
      rw [hpool] at hclean
      refine ⟨s',hclean,hs',hpushed,_,hdestroyed,fun c hc => ?_⟩
      simpa using (List.mem_filter.mp hc).2

omit [DecidableEq ε] in
theorem Placed.cycle_not_mem (h : s.Placed) : s.cycle ∉ s.pushed := fun hmem =>
  (List.nodup_cons.mp h.cycles).1 (h.placed _ hmem)

omit [DecidableEq ε] in
/-- Another cycle takes the place of the current one, which is destroyed or waits. -/
theorem Placed.replace (h : s.Placed) (hcycle : s'.cycle = s.created) (hcreated : s'.created = s.created + 1)
    (hperm : (s'.waiting ++ s'.destroyed).Perm (s.cycle::(s.waiting ++ s.destroyed))) (hpushed : s'.pushed.Nodup)
    (hplaced : ∀ c ∈ s'.pushed, c ∈ s'.waiting ++ s'.destroyed) (hwaiting : ∀ c ∈ s'.waiting, c ∈ s'.pushed) :
    s'.Placed := by
  refine ⟨?_,fun c hc => ?_,hpushed,hplaced,hwaiting⟩
  · rw [hcycle]
    refine List.nodup_cons.mpr ⟨fun hmem => ?_,hperm.symm.nodup h.cycles⟩
    exact absurd (h.old _ (hperm.subset hmem)) (lt_irrefl _)
  · rw [hcycle] at hc
    rw [hcreated]
    rcases List.mem_cons.mp hc with rfl | hc
    · exact Nat.lt_succ_self _
    · exact (h.old c (hperm.subset hc)).trans (Nat.lt_succ_self _)

/-- What a reload does with the old cycle: the initial one is destroyed, another one waits. -/
inductive Retired (s : OldCycles w ε) (memory : Option ℕ) (s' : OldCycles w ε) : Prop
  | initial (hinit : s.isInit = true) (hpushed : s'.pushed = s.pushed) (hdestroyed : s'.destroyed = s.destroyed ++ [s.cycle])
      (hnever : s.cycle ∉ s.pushed)
  | waits (hinit : s.isInit = false) (hpushed : s'.pushed = s.pushed ++ [s.cycle]) (hdestroyed : s'.destroyed = s.destroyed)
      (hold : s'.oldCycles = s.oldCycles ++ [some s.cycle]) (hpool : s'.tempPool = s.tempPool.or memory)
      (harmed : s'.tempPool ≠ none)

theorem startTempPool_spec (h : s.Sound cleaner) (memory : Option ℕ) : s.startTempPool memory = none ∨
    ∃ pools, s.startTempPool memory = some { s with tempPool := s.tempPool.or memory, pools := pools } ∧
      s.tempPool.or memory ≠ none ∧ Holds pools (s.tempPool.or memory).toList := by
  unfold startTempPool
  have hpools := h.pools
  cases hpool : s.tempPool with
  | some pool =>
    rw [hpool] at hpools
    have hsame : s = { s with tempPool := some pool } := by rw [← hpool]
    exact .inr ⟨s.pools,congrArg some hsame,by simp,hpools⟩
  | none =>
    rw [hpool] at hpools
    cases memory with
    | none => exact .inl rfl
    | some pool =>
      refine .inr ⟨s.pools ++ [handed pool],?_,by simp,hpools.hand (by simp)⟩
      have hold := (h.idle hpool).2
      simp [← hold]

theorem Sound.reload (h : s.Sound cleaner) (memory : Option ℕ) (push : Bool) (connections : List ℤ) :
    ∃ r, (s.retire cleaner processSingle memory push).map (fun r => r.map (replaceCycle connections)) = .ok r ∧
      ∀ s' ∈ r, s'.Sound cleaner ∧ Retired s memory s' := by
  unfold retire
  by_cases hinit : s.isInit = true
  · rw [if_pos (.inr hinit)]
    refine ⟨_,rfl,fun s' hs' => ?_⟩
    cases hs'
    refine ⟨⟨h.placed.replace rfl rfl ?_ h.placed.pushed (fun c hc => ?_) h.placed.waiting,h.timers,h.armed,h.idle,h.pools⟩,
      .initial hinit rfl rfl h.placed.cycle_not_mem⟩
    · change (s.waiting ++ (s.destroyed ++ [s.cycle])).Perm (s.cycle::(s.waiting ++ s.destroyed))
      rw [← List.append_assoc]
      exact List.perm_append_singleton _ _
    · change c ∈ s.waiting ++ (s.destroyed ++ [s.cycle])
      rw [← List.append_assoc]
      exact List.mem_append_left _ (h.placed.placed c hc)
  · have hprocess : ¬(processSingle = processMaster ∨ s.isInit = true) := not_or.mpr ⟨by decide,hinit⟩
    rw [if_neg hprocess]
    obtain hexit | ⟨pools,hstart,hne,hpools⟩ := startTempPool_spec h memory
    · rw [hexit]
      exact ⟨none,rfl,fun s' hs' => by cases hs'⟩
    rw [hstart]
    cases push with
    | false => exact ⟨none,rfl,fun s' hs' => by cases hs'⟩
    | true =>
      obtain ⟨t,harm,ht,hset⟩ : ∃ t : Timers w ε, _ ∧ t.Consistent ∧ (t.ev cleaner).timerSet = true :=
        armUnset_spec (s := { s with
          tempPool := s.tempPool.or memory
          pools := pools
          oldCycles := s.oldCycles ++ [some s.cycle]
          pushed := s.pushed ++ [s.cycle] }) h.timers
      dsimp only
      rw [if_neg (by decide),harm]
      refine ⟨_,rfl,fun s' hs' => ?_⟩
      cases hs'
      have hwaiting : (s.oldCycles ++ [some s.cycle]).reduceOption = s.waiting ++ [s.cycle] := by
        rw [List.reduceOption_append]
        rfl
      refine ⟨⟨h.placed.replace rfl rfl ?_ ?_ (fun c hc => ?_) (fun c hc => ?_),ht,fun _ => ⟨hset,?_⟩,fun hnone => ?_,hpools⟩,
        .waits (by simpa using hinit) rfl rfl rfl rfl hne⟩
      · change ((s.oldCycles ++ [some s.cycle]).reduceOption ++ s.destroyed).Perm (s.cycle::(s.waiting ++ s.destroyed))
        rw [hwaiting,List.append_assoc,List.singleton_append]
        exact List.perm_middle
      · exact List.nodup_append.mpr ⟨h.placed.pushed,List.nodup_singleton _,fun c hc d hd => by
          rw [List.mem_singleton.mp hd]
          exact ne_of_mem_of_not_mem hc h.placed.cycle_not_mem⟩
      · change c ∈ (s.oldCycles ++ [some s.cycle]).reduceOption ++ s.destroyed
        rw [hwaiting]
        rcases List.mem_append.mp hc with hc | hc
        · have hplaced := h.placed.placed c hc
          simp only [List.mem_append] at hplaced ⊢
          tauto
        · simp [List.mem_singleton.mp hc]
      · have hc : c ∈ s.waiting ++ [s.cycle] := hwaiting ▸ hc
        exact List.mem_append.mpr ((List.mem_append.mp hc).imp_left (h.placed.waiting c))
      · change (s.oldCycles ++ [some s.cycle]).reduceOption ≠ []
        rw [hwaiting]
        simp
      · exact absurd hnone hne

/-- What a step can do to old cycles. -/
structure Effect (s : OldCycles w ε) (op : CycleOp w ε) (s' : OldCycles w ε) : Prop where
  destroyed : ∃ gone, s'.destroyed = s.destroyed ++ gone ∧
    ∀ c ∈ gone, c ∈ s.pushed → op = .fire ∧ ∀ fd ∈ s.connections c, fd = -1
  reload : ∀ memory push connections, op = .reload memory push connections → Retired s memory s'

omit [DecidableEq ε] in
theorem Effect.idle {op : CycleOp w ε} (hop : ∀ memory push connections, op ≠ .reload memory push connections)
    (hdestroyed : s'.destroyed = s.destroyed) : Effect s op s' :=
  ⟨⟨[],by rw [hdestroyed,List.append_nil],by simp⟩,fun memory push connections h => absurd h (hop memory push connections)⟩

/-- Every step that may be made breaks nothing, and keeps the invariant. -/
theorem Sound.run (h : s.Sound cleaner) {op : CycleOp w ε} (hallowed : s.Allowed cleaner op) :
    ∃ r, s.run cleaner op = .ok r ∧ ∀ s' ∈ r, s'.Sound cleaner ∧ Effect s op s' := by
  cases op with
  | timer a =>
    obtain ⟨hspares,hallowed⟩ := hallowed
    obtain ⟨t,hrun,ht⟩ := h.timers.run hallowed
    refine ⟨some { s with timers := t },by rw [OldCycles.run,hrun],fun s' hs' => ?_⟩
    cases hs'
    exact ⟨h.frame ht (by rw [hspares.run_eq hrun]) s.connections,.idle (by simp) rfl⟩
  | fire =>
    obtain ⟨t,hfire,ht,hpushed,gone,hgone,hidle⟩ := h.fire hallowed
    refine ⟨some t,by rw [OldCycles.run,hfire]; rfl,fun s' hs' => ?_⟩
    cases hs'
    refine ⟨ht,⟨gone,hgone,fun c hc _ => ⟨rfl,fun fd hfd => ?_⟩⟩,by simp⟩
    have hclosed := hidle c hc
    unfold liveCycle at hclosed
    simpa using List.any_eq_false.mp hclosed fd hfd
  | reload memory push connections =>
    obtain ⟨r,hrun,hr⟩ := h.reload memory push connections
    refine ⟨r,hrun,fun s' hs' => ?_⟩
    obtain ⟨hs,hretired⟩ := hr s' hs'
    refine ⟨hs,?_,fun memory' push' connections' heq => ?_⟩
    · cases hretired with
      | initial _ _ hdestroyed hnever =>
        exact ⟨_,hdestroyed,fun c hc hmem => absurd (List.mem_singleton.mp hc ▸ hmem) hnever⟩
      | waits _ _ hdestroyed => exact ⟨[],by rw [hdestroyed,List.append_nil],by simp⟩
    · cases heq
      exact hretired
  | accept i fd =>
    refine ⟨_,rfl,fun s' hs' => ?_⟩
    cases hs'
    exact ⟨h.frame h.timers rfl _,.idle (by simp) rfl⟩
  | close c i =>
    refine ⟨_,rfl,fun s' hs' => ?_⟩
    cases hs'
    exact ⟨h.frame h.timers rfl _,.idle (by simp) rfl⟩

/-- What holds of the old cycles, and of the next step. -/
structure Reclaimed (cleaner : ε) (s : OldCycles w ε) : Prop where
  pushed : s.pushed.Nodup
  once : s.destroyed.Nodup
  listed : ∀ c ∈ s.pushed, c ∉ s.destroyed → some c ∈ s.oldCycles
  armed : (∃ c ∈ s.pushed, c ∉ s.destroyed) → s.tempPool ≠ none ∧ (s.timers.ev cleaner).timerSet = true ∧
    ((s.timers.ev cleaner).key,cleaner) ∈ s.timers.tree
  idle : (∀ c ∈ s.pushed, c ∈ s.destroyed) → s.tempPool = none ∧ s.oldCycles = []
  pools : Holds s.pools s.tempPool.toList
  next : ∀ op, s.Allowed cleaner op → ∃ r, s.run cleaner op = .ok r ∧ ∀ s' ∈ r, Effect s op s'

theorem Sound.reclaimed (h : s.Sound cleaner) : s.Reclaimed cleaner := by
  have hparts := List.nodup_append.mp (List.nodup_cons.mp h.placed.cycles).2
  have hwaiting : ∀ c ∈ s.pushed, c ∉ s.destroyed → c ∈ s.waiting := fun c hc hnot =>
    (List.mem_append.mp (h.placed.placed c hc)).resolve_right hnot
  refine ⟨h.placed.pushed,hparts.2.1,fun c hc hnot => List.reduceOption_mem_iff.mp (hwaiting c hc hnot),?_,fun hall => ?_,
    h.pools,fun op hallowed => ?_⟩
  · rintro ⟨c,hc,hnot⟩
    have hpool : s.tempPool ≠ none := fun hnone => by
      have hmem := hwaiting c hc hnot
      rw [waiting,(h.idle hnone).2] at hmem
      cases hmem
    exact ⟨hpool,(h.armed hpool).1,(h.timers.mem_iff cleaner).mpr (h.armed hpool).1⟩
  · have hnone : s.tempPool = none := by
      by_contra hpool
      obtain ⟨c,hc⟩ := List.exists_mem_of_ne_nil _ (h.armed hpool).2
      exact hparts.2.2 c hc c (hall c (h.placed.waiting c hc)) rfl
    exact ⟨hnone,(h.idle hnone).2⟩
  · obtain ⟨r,hrun,hr⟩ := h.run hallowed
    exact ⟨r,hrun,fun s' hs' => (hr s' hs').2⟩

end OldCycles

/-- Old cycles are destroyed once, when they are idle. -/
theorem old_cycles_reclaimed {s : OldCycles w ε} (h : (reloading w cleaner).Reachable s) : s.Reclaimed cleaner := by
  have hsound : s.Sound cleaner := by
    refine h.invariant (I := OldCycles.Sound cleaner) ?_ ?_
    · rintro s ⟨htimers,-,hcycle,hcreated,hold,hpool,hpushed,hdestroyed,hpools⟩
      refine ⟨⟨?_,?_,?_,?_,?_⟩,consistent (.init htimers),fun hne => absurd hpool hne,
        fun _ => ⟨htimers.2.1 cleaner,hold⟩,?_⟩
      · simp [OldCycles.waiting,hold,hdestroyed]
      · simp [OldCycles.waiting,hold,hdestroyed,hcycle,hcreated]
      · simp [hpushed]
      · simp [hpushed]
      · simp [OldCycles.waiting,hold]
      · rw [hpools,hpool]
        exact Holds.nil
    · rintro s op s' - ih ⟨hallowed,hrun⟩
      obtain ⟨r,hok,hr⟩ := ih.run hallowed
      obtain rfl : r = some s' := Except.ok.inj (hok.symm.trans hrun)
      exact (hr s' rfl).1
  exact hsound.reclaimed

/-- The second reload leaves cycle 1, whose connection is closed after the cleaner has come once; the third one
starts a new pool. -/
def reloadOps : List (CycleOp 64 Unit) :=
  [.reload none true [5],.reload (some 7) true [-1],.timer (.advance 30000),.timer .enter,.fire,.close 1 0,
    .timer (.advance 30000),.fire,.reload (some 8) true []]

/-- The steps that may be made when the cleaner has the only timer. -/
def reloadStep (s : OldCycles 64 Unit) (op : CycleOp 64 Unit) : Option (OldCycles 64 Unit) :=
  let allowed := match op with
    | .fire => decide (0 < s.timers.loops) && decide (s.timers.tree = {((s.timers.ev ()).key,())})
    | .timer (.advance _) | .timer .enter | .reload _ _ _ | .close _ _ | .accept _ _ => true
    | .timer _ => false
  if allowed then
    match s.run () op with
    | .ok r => r
    | .error _ => none
  else none

theorem reloadStep_spec {s s' : OldCycles 64 Unit} {op : CycleOp 64 Unit} (h : reloadStep s op = some s') :
    (reloading 64 ()).step s op s' := by
  unfold reloadStep at h
  dsimp only at h
  rw [Option.ite_none_right_eq_some] at h
  obtain ⟨hallowed,hrun⟩ := h
  refine ⟨?_,?_⟩
  · cases op with
    | fire =>
      obtain ⟨hloops,htree⟩ : 0 < s.timers.loops ∧ s.timers.tree = {((s.timers.ev ()).key,())} := by simpa using hallowed
      refine ⟨hloops,by rw [htree]; exact Multiset.mem_singleton_self _,?_⟩
      rintro ⟨entry,hentry,hleast⟩
      rw [htree,Multiset.mem_singleton] at hentry
      rwa [hentry] at hleast
    | timer a =>
      cases a with
      | advance d => exact ⟨trivial,trivial⟩
      | enter => exact ⟨trivial,trivial⟩
      | add | del | expire => cases hallowed
    | reload | accept | close => trivial
  · cases hr : s.run () op with
    | error m => simp [hr] at hrun
    | ok r =>
      simp only [hr] at hrun
      rw [hrun]

theorem old_cycles_reclaimed_twice : ∃ s : OldCycles 64 Unit, (reloading 64 ()).Reachable s ∧ s.pushed = [1,2] ∧
    s.destroyed = [0,1] ∧ s.tempPool = some 8 ∧ s.Reclaimed () := by
  have hinit : (reloading 64 ()).Reachable
      ⟨⟨fun _ => ⟨0,false,false⟩,0,0,0,fun _ => 0⟩,0,true,1,fun _ => [],[],none,[],[],[]⟩ :=
    .init ⟨⟨rfl,fun _ => rfl,rfl⟩,rfl,rfl,rfl,rfl,rfl,rfl,rfl,rfl⟩
  have hrun : (TransitionSystem.replay reloadStep
      ⟨⟨fun _ => ⟨0,false,false⟩,0,0,0,fun _ => 0⟩,0,true,1,fun _ => [],[],none,[],[],[]⟩ reloadOps).map
      (fun s => (s.pushed,s.destroyed,s.tempPool)) = some ([1,2],[0,1],some 8) := by
    decide +kernel
  obtain ⟨s,hs,heq⟩ := Option.map_eq_some_iff.mp hrun
  obtain ⟨hpushed,hrest⟩ := Prod.mk.inj heq
  obtain ⟨hdestroyed,hpool⟩ := Prod.mk.inj hrest
  have hreach : (reloading 64 ()).Reachable s := hinit.of_replay_of_step (fun _ _ _ _ h => reloadStep_spec h) hs
  exact ⟨s,hreach,hpushed,hdestroyed,hpool,old_cycles_reclaimed hreach⟩

end

end InsideNginx.Cycle
