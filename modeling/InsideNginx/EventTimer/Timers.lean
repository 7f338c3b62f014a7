import InsideNginx.Fault
import InsideNginx.General.TransitionSystem

/-! The event timers over their tree, which is taken through its contract: a multiset of entries,
each with the key it was inserted with. A key is a word of `w` bits that wraps. -/
namespace InsideNginx.EventTimer

/-- The ways to break the contract of the tree, or to leave the range of a signed word. -/
inductive Misuse
  | deleteAbsent
  | insertPresent
  | rekeyPresent
  | absOverflow
  deriving DecidableEq, Repr

/-- The key of `timer` and the flags of an event. -/
structure Event (w : ℕ) where
  key : BitVec w
  timerSet : Bool
  timedout : Bool
  deriving DecidableEq, Repr

/-- The timers: `tree` is `ngx_event_timer_rbtree`, `currentMsec` is `ngx_current_msec`, and
`loops` the number of running calls of `ngx_event_expire_timers`; each of them is in the handler
of an event or about to go on. `asked` records the deadline of the last add of an event. -/
structure Timers (w : ℕ) (ε : Type) where
  ev : ε → Event w
  tree : Multiset (BitVec w × ε)
  currentMsec : BitVec w
  loops : ℕ
  asked : ε → BitVec w

variable {w : ℕ} {ε : Type} [DecidableEq ε]

/-- NGX_TIMER_LAZY_DELAY. -/
def lazyDelay : ℤ := 300

/-- `ngx_abs` of a signed word. -/
def ngxAbs (x : BitVec w) : Except Misuse ℤ :=
  if 2^(w - 1) ≤ |x.toInt| then .error .absOverflow else .ok |x.toInt|

theorem ngxAbs_of_lt {x : BitVec w} (h : |x.toInt| < 2^(w - 1)) : ngxAbs x = .ok |x.toInt| :=
  if_neg (not_le.mpr h)

namespace Timers

def setEvent (s : Timers w ε) (e : ε) (event : Event w) : Timers w ε :=
  { s with ev := Function.update s.ev e event }

/-- `ngx_rbtree_insert`. -/
def treeInsert (s : Timers w ε) (e : ε) : Except Misuse (Timers w ε) :=
  if e ∈ s.tree.map Prod.snd then .error .insertPresent
  else .ok { s with tree := ((s.ev e).key,e) ::ₘ s.tree }

/-- `ngx_rbtree_delete`. -/
def treeDelete (s : Timers w ε) (e : ε) : Except Misuse (Timers w ε) :=
  if ((s.ev e).key,e) ∈ s.tree then .ok { s with tree := s.tree.erase ((s.ev e).key,e) }
  else .error .deleteAbsent

/-- `ev->timer.key = key`, which the tree does not allow for one of its nodes. -/
def setKey (s : Timers w ε) (e : ε) (key : BitVec w) : Except Misuse (Timers w ε) :=
  if e ∈ s.tree.map Prod.snd then .error .rekeyPresent
  else .ok (s.setEvent e { s.ev e with key := key })

/-- `ngx_event_del_timer`. -/
def delTimer (s : Timers w ε) (e : ε) : Except Misuse (Timers w ε) := do
  let s ← s.treeDelete e
  return s.setEvent e { s.ev e with timerSet := false }

/-- The bookkeeping of what an add asked for. -/
def record (s : Timers w ε) (e : ε) (key : BitVec w) : Timers w ε :=
  { s with asked := Function.update s.asked e key }

/-- The end of `ngx_event_add_timer`, for an event without a timer. -/
def armTimer (s : Timers w ε) (e : ε) (key : BitVec w) : Except Misuse (Timers w ε) := do
  let s ← s.setKey e key
  let s ← s.treeInsert e
  return (s.setEvent e { s.ev e with timerSet := true }).record e key

/-- `ngx_event_add_timer`. -/
def addTimer (s : Timers w ε) (e : ε) (timer : BitVec w) : Except Misuse (Timers w ε) := do
  let key := s.currentMsec + timer
  if (s.ev e).timerSet then
    if (← ngxAbs (key - (s.ev e).key)) < lazyDelay then return s.record e key
    else
      let s ← s.delTimer e
      s.armTimer e key
  else s.armTimer e key

/-- No entry of the tree comes before the key. -/
def Least (s : Timers w ε) (key : BitVec w) : Prop := ∀ entry ∈ s.tree, 0 ≤ (entry.1 - key).toInt

/-- What `ngx_rbtree_min` may return: an entry, which is the least one if there is a least one. -/
def MayReturn (s : Timers w ε) (e : ε) : Prop :=
  ((s.ev e).key,e) ∈ s.tree ∧ ((∃ entry ∈ s.tree, s.Least entry.1) → s.Least (s.ev e).key)

/-- One round of the loop of `ngx_event_expire_timers`, with what `ngx_rbtree_min` returns, up to
the call of the handler. -/
def expireTimer (s : Timers w ε) (e : ε) : Except Misuse (Timers w ε) :=
  if 0 < ((s.ev e).key - s.currentMsec).toInt then .ok { s with loops := s.loops - 1 }
  else do
    let s ← s.treeDelete e
    return s.setEvent e { s.ev e with timerSet := false, timedout := true }

end Timers

/-- A step: any code, handlers included, adds or deletes a timer, the clock advances, or a call
of `ngx_event_expire_timers` begins or makes another round with the entry of `node`. -/
inductive Action (w : ℕ) (ε : Type)
  | add (e : ε) (timer : BitVec w)
  | del (e : ε)
  | advance (d : BitVec w)
  | enter
  | expire (node : Option ε)
  deriving DecidableEq, Repr

def Timers.run (s : Timers w ε) : Action w ε → Except Misuse (Timers w ε)
  | .add e timer => s.addTimer e timer
  | .del e => s.delTimer e
  | .advance d => .ok { s with currentMsec := s.currentMsec + d }
  | .enter => .ok { s with loops := s.loops + 1 }
  | .expire none => .ok { s with loops := s.loops - 1 }
  | .expire (some e) => s.expireTimer e

/-- When a step may be made: a requested deadline is less than half the range away from the live
keys, only a set timer is deleted, and a round of the loop follows the tree. -/
def Timers.Allowed (s : Timers w ε) : Action w ε → Prop
  | .add _ timer => ∀ entry ∈ s.tree, |(s.currentMsec + timer - entry.1).toInt| < 2^(w - 1)
  | .del e => (s.ev e).timerSet = true
  | .advance _ | .enter => True
  | .expire none => 0 < s.loops ∧ s.tree = 0
  | .expire (some e) => 0 < s.loops ∧ s.MayReturn e

/-- The runs from `ngx_event_timer_init` on. -/
def timing (w : ℕ) (ε : Type) [DecidableEq ε] : TransitionSystem (Timers w ε) (Action w ε) where
  init s := s.tree = 0 ∧ (∀ e, (s.ev e).timerSet = false) ∧ s.loops = 0
  step s a s' := s.Allowed a ∧ s.run a = .ok s'

/-! ### The invariant -/

namespace Timers

/-- Flags, tree and keys agree, and a key is close to the deadline of the last add. -/
structure Consistent (s : Timers w ε) : Prop where
  count : ∀ e, (s.tree.map Prod.snd).count e = if (s.ev e).timerSet then 1 else 0
  key : ∀ entry ∈ s.tree, entry.1 = (s.ev entry.2).key
  asked : ∀ e, (s.ev e).timerSet = true → |((s.ev e).key - s.asked e).toInt| < lazyDelay

variable {s : Timers w ε} {e : ε}

/-- An event has its entry in the tree exactly when its flag is set. -/
theorem Consistent.mem_iff (h : s.Consistent) (e : ε) :
    ((s.ev e).key,e) ∈ s.tree ↔ (s.ev e).timerSet = true := by
  have hcount := h.count e
  constructor
  · intro hmem
    have hpos : 0 < (s.tree.map Prod.snd).count e :=
      Multiset.count_pos.mpr (Multiset.mem_map.mpr ⟨_,hmem,rfl⟩)
    by_contra hset
    rw [hcount,if_neg hset] at hpos
    exact absurd hpos (lt_irrefl 0)
  · intro hset
    rw [if_pos hset] at hcount
    obtain ⟨⟨key,f⟩,hmem,rfl⟩ := Multiset.mem_map.mp (Multiset.count_pos.mp (by rw [hcount]; exact Nat.one_pos))
    rw [← h.key _ hmem]
    exact hmem

theorem Consistent.mem_snd_iff (h : s.Consistent) (e : ε) :
    e ∈ s.tree.map Prod.snd ↔ (s.ev e).timerSet = true := by
  have hcount := h.count e
  rw [← Multiset.count_pos,hcount]
  split <;> simp_all

/-- What a deletion leaves: the event is out of the tree, and everything else is as before. -/
structure Removed (s : Timers w ε) (e : ε) (s' : Timers w ε) : Prop where
  consistent : s'.Consistent
  unset : (s'.ev e).timerSet = false
  other : ∀ f, f ≠ e → s'.ev f = s.ev f
  currentMsec : s'.currentMsec = s.currentMsec
  asked : s'.asked = s.asked
  loops : s'.loops = s.loops

/-- The entry of an event is taken out of the tree and its flag is cleared. -/
theorem Consistent.remove (h : s.Consistent) (hset : (s.ev e).timerSet = true) (timedout : Bool) :
    s.treeDelete e = .ok { s with tree := s.tree.erase ((s.ev e).key,e) } ∧
    Removed s e (setEvent { s with tree := s.tree.erase ((s.ev e).key,e) } e
      { s.ev e with timerSet := false, timedout := timedout }) := by
  have hmem := (h.mem_iff e).mpr hset
  refine ⟨by rw [treeDelete,if_pos hmem],⟨fun f => ?_,?_,fun f hf => ?_⟩,?_,fun f hf => ?_,rfl,rfl,rfl⟩
  · have hcons := congrArg (fun t => (t.map Prod.snd).count f) (Multiset.cons_erase hmem)
    simp only [Multiset.map_cons] at hcons
    have hcount := h.count f
    by_cases hf : f = e
    · subst hf
      simp only [Multiset.count_cons_self] at hcons
      simp only [setEvent,Function.update_self,Bool.false_eq_true,if_false]
      rw [if_pos hset] at hcount
      omega
    · rw [Multiset.count_cons_of_ne hf] at hcons
      simpa [setEvent,hf] using hcons.trans hcount
  · rintro ⟨key,f⟩ hentry
    have hne : f ≠ e := by
      rintro rfl
      have hcons := congrArg (fun t => (t.map Prod.snd).count f) (Multiset.cons_erase hmem)
      simp only [Multiset.map_cons,Multiset.count_cons_self] at hcons
      have hcount := h.count f
      rw [if_pos hset] at hcount
      have : 0 < ((s.tree.erase ((s.ev f).key,f)).map Prod.snd).count f :=
        Multiset.count_pos.mpr (Multiset.mem_map.mpr ⟨_,hentry,rfl⟩)
      omega
    simpa [setEvent,hne] using h.key _ (Multiset.mem_of_mem_erase hentry)
  · by_cases hfe : f = e
    · subst hfe; simp [setEvent] at hf
    · simp only [setEvent,Function.update_of_ne hfe] at hf ⊢
      exact h.asked f hf
  · simp [setEvent]
  · simp [setEvent,hf]

theorem Consistent.delTimer (h : s.Consistent) (hset : (s.ev e).timerSet = true) :
    ∃ s', s.delTimer e = .ok s' ∧ Removed s e s' := by
  obtain ⟨hdelete,hremoved⟩ := h.remove hset (s.ev e).timedout
  refine ⟨_,?_,hremoved⟩
  rw [Timers.delTimer,hdelete]
  rfl

/-- An event without a timer gets one. -/
theorem Consistent.armTimer (h : s.Consistent) (hset : (s.ev e).timerSet = false) (key : BitVec w) :
    ∃ s', s.armTimer e key = .ok s' ∧ s'.Consistent := by
  have hout : e ∉ s.tree.map Prod.snd := by rw [h.mem_snd_iff e,hset]; simp
  refine ⟨record (setEvent { s.setEvent e { s.ev e with key := key } with tree := (key,e) ::ₘ s.tree } e
    { s.ev e with key := key, timerSet := true }) e key,?_,⟨fun f => ?_,?_,fun f hf => ?_⟩⟩
  · simp [Timers.armTimer,setKey,treeInsert,hout,bind,Except.bind,pure,Except.pure,setEvent]
  · have hcount := h.count f
    by_cases hf : f = e
    · subst hf
      have hzero : (s.tree.map Prod.snd).count f = 0 := Multiset.count_eq_zero.mpr hout
      simp [setEvent,record,hzero]
    · simpa [setEvent,record,hf] using hcount
  · rintro ⟨key',f⟩ hentry
    rcases Multiset.mem_cons.mp hentry with heq | hold
    · cases heq
      simp [setEvent,record]
    · have hne : f ≠ e := by
        rintro rfl
        exact hout (Multiset.mem_map.mpr ⟨(key',f),hold,rfl⟩)
      simpa [setEvent,record,hne] using h.key _ hold
  · by_cases hfe : f = e
    · subst hfe
      simp [setEvent,record,lazyDelay]
    · simp only [setEvent,record,Function.update_of_ne hfe] at hf ⊢
      exact h.asked f hf

/-- The difference of two keys either way round, away from the half of the range. -/
theorem abs_toInt_sub_comm {x y : BitVec w} (h : |(x - y).toInt| < 2^(w - 1)) :
    |(y - x).toInt| = |(x - y).toInt| := by
  rcases Nat.eq_zero_or_pos w with rfl | hw
  · rw [Subsingleton.elim x y]
  have hmin : x - y ≠ BitVec.intMin w := by
    intro hmin
    rw [hmin,BitVec.toInt_intMin_of_pos hw,abs_neg,abs_of_nonneg (by positivity)] at h
    exact lt_irrefl _ h
  rw [← neg_sub x y,BitVec.toInt_neg_of_ne_intMin hmin,abs_neg]

/-- An add runs through, and leaves a key that is close to the deadline it was asked for. -/
theorem Consistent.addTimer (h : s.Consistent) {timer : BitVec w}
    (hallowed : ∀ entry ∈ s.tree, |(s.currentMsec + timer - entry.1).toInt| < 2^(w - 1)) :
    ∃ s', s.addTimer e timer = .ok s' ∧ s'.Consistent := by
  by_cases hset : (s.ev e).timerSet = true
  · have hhalf := hallowed ((s.ev e).key,e) ((h.mem_iff e).mpr hset)
    simp only at hhalf
    have habs := ngxAbs_of_lt hhalf
    by_cases hlazy : |(s.currentMsec + timer - (s.ev e).key).toInt| < lazyDelay
    · refine ⟨s.record e (s.currentMsec + timer),?_,h.count,h.key,fun f hf => ?_⟩
      · simp only [Timers.addTimer,if_pos hset,habs,bind,Except.bind,if_pos hlazy]
        rfl
      · by_cases hfe : f = e
        · subst hfe
          simp only [record,Function.update_self,abs_toInt_sub_comm hhalf]
          exact hlazy
        · simpa [record,hfe] using h.asked f hf
    · obtain ⟨t,hdel,hremoved⟩ := h.delTimer hset
      obtain ⟨u,harm,hu⟩ := hremoved.consistent.armTimer hremoved.unset (s.currentMsec + timer)
      refine ⟨u,?_,hu⟩
      simp only [Timers.addTimer,if_pos hset,habs,bind,Except.bind,if_neg hlazy,hdel,harm]
  · rw [Bool.not_eq_true] at hset
    obtain ⟨u,harm,hu⟩ := h.armTimer hset (s.currentMsec + timer)
    refine ⟨u,?_,hu⟩
    simp [Timers.addTimer,hset,harm]

/-- A round of the expiry loop. -/
theorem Consistent.expireTimer (h : s.Consistent) (hmem : ((s.ev e).key,e) ∈ s.tree) :
    ∃ s', s.expireTimer e = .ok s' ∧ s'.Consistent := by
  by_cases hdue : 0 < ((s.ev e).key - s.currentMsec).toInt
  · exact ⟨{ s with loops := s.loops - 1 },if_pos hdue,h.count,h.key,h.asked⟩
  · obtain ⟨hdelete,hremoved⟩ := h.remove ((h.mem_iff e).mp hmem) true
    refine ⟨_,?_,hremoved.consistent⟩
    rw [Timers.expireTimer,if_neg hdue,hdelete]
    rfl

/-- A step that may be made keeps to the contract of the tree, and keeps the invariant. -/
theorem Consistent.run (h : s.Consistent) {a : Action w ε} (hallowed : s.Allowed a) :
    ∃ s', s.run a = .ok s' ∧ s'.Consistent := by
  cases a with
  | add e timer => exact h.addTimer hallowed
  | del e =>
    obtain ⟨t,hdel,hremoved⟩ := h.delTimer hallowed
    exact ⟨t,hdel,hremoved.consistent⟩
  | advance d => exact ⟨_,rfl,h.count,h.key,h.asked⟩
  | enter => exact ⟨_,rfl,h.count,h.key,h.asked⟩
  | expire node =>
    cases node with
    | none => exact ⟨_,rfl,h.count,h.key,h.asked⟩
    | some e => exact h.expireTimer hallowed.2.1

/-! What the operations on one event leave of the others. -/

section
variable {t : Timers w ε} {f : ε}

theorem treeDelete_ev (h : s.treeDelete e = .ok t) : t.ev = s.ev := by
  unfold treeDelete at h
  split_ifs at h
  cases h
  rfl

theorem delTimer_other (h : s.delTimer e = .ok t) (hf : f ≠ e) : t.ev f = s.ev f := by
  unfold Timers.delTimer at h
  cases hdelete : s.treeDelete e with
  | error m => rw [hdelete] at h; cases h
  | ok u =>
    rw [hdelete] at h
    cases h
    rw [← treeDelete_ev hdelete]
    exact Function.update_of_ne hf _ _

theorem armTimer_other {key : BitVec w} (h : s.armTimer e key = .ok t) (hf : f ≠ e) : t.ev f = s.ev f := by
  unfold Timers.armTimer setKey treeInsert at h
  split_ifs at h with hin
  · cases h
  · simp only [bind,Except.bind] at h
    split_ifs at h
    cases h
    simp [setEvent,record,hf]

theorem addTimer_other {timer : BitVec w} (h : s.addTimer e timer = .ok t) (hf : f ≠ e) : t.ev f = s.ev f := by
  unfold Timers.addTimer at h
  dsimp only at h
  split_ifs at h
  · cases habs : ngxAbs (s.currentMsec + timer - (s.ev e).key) with
    | error m => rw [habs] at h; cases h
    | ok diff =>
      rw [habs] at h
      simp only [bind,Except.bind] at h
      split_ifs at h
      · cases h
        rfl
      · cases hdel : s.delTimer e with
        | error m => rw [hdel] at h; cases h
        | ok u =>
          rw [hdel] at h
          exact (armTimer_other h hf).trans (delTimer_other hdel hf)
  · exact armTimer_other h hf

theorem expireTimer_other (h : s.expireTimer e = .ok t) (hf : f ≠ e) : t.ev f = s.ev f := by
  unfold Timers.expireTimer at h
  split_ifs at h
  · cases h
    rfl
  · cases hdelete : s.treeDelete e with
    | error m => rw [hdelete] at h; cases h
    | ok u =>
      rw [hdelete] at h
      cases h
      rw [← treeDelete_ev hdelete]
      exact Function.update_of_ne hf _ _
end

end Timers

theorem consistent {s : Timers w ε} (h : (timing w ε).Reachable s) : s.Consistent := by
  refine h.invariant (fun s hinit => ?_) (fun s a s' _ hs hstep => ?_)
  · obtain ⟨htree,hset,-⟩ := hinit
    refine ⟨fun e => by simp [htree,hset e],fun entry hentry => ?_,fun e he => ?_⟩
    · simp [htree] at hentry
    · simp [hset e] at he
  · obtain ⟨hallowed,hrun⟩ := hstep
    obtain ⟨t,hok,ht⟩ := hs.run hallowed
    cases hok.symm.trans hrun
    exact ht

/-- In every reachable state an event is in the tree once if its flag is set and not at all
otherwise, with the key it has now, which is close to the deadline of its last add; and no step
from there stores the key of an event in the tree or breaks the contract of the tree. -/
theorem timers_inv {s : Timers w ε} (h : (timing w ε).Reachable s) :
    (∀ e, (s.tree.map Prod.snd).count e = if (s.ev e).timerSet then 1 else 0) ∧
    (∀ entry ∈ s.tree, entry.1 = (s.ev entry.2).key) ∧
    (∀ e ∈ s.tree.map Prod.snd, |((s.ev e).key - s.asked e).toInt| < lazyDelay) ∧
    ∀ a, s.Allowed a → ∃ s', s.run a = .ok s' := by
  have hs := consistent h
  refine ⟨hs.count,hs.key,fun e he => hs.asked e ((hs.mem_snd_iff e).mp he),fun a hallowed => ?_⟩
  obtain ⟨s',hrun,-⟩ := hs.run hallowed
  exact ⟨s',hrun⟩

/-- An event whose deadline moves from 1000 to 1200 keeps its key. -/
theorem timers_inv_lazy : ∃ s : Timers 64 Unit, (s.ev ()).key = 1000 ∧ s.asked () = 1200 ∧
    s.tree = {(1000,())} ∧ |((s.ev ()).key - s.asked ()).toInt| < lazyDelay := by
  have hinit : (timing 64 Unit).Reachable ⟨fun _ => ⟨0,false,false⟩,0,0,0,fun _ => 0⟩ :=
    .init ⟨rfl,fun _ => rfl,rfl⟩
  have hadd : (timing 64 Unit).Reachable ⟨fun _ => ⟨1000,true,false⟩,{(1000,())},0,0,fun _ => 1000⟩ :=
    hinit.step (a := .add () 1000) ⟨fun entry hentry => absurd hentry (Multiset.notMem_zero _),rfl⟩
  have hlazy : (timing 64 Unit).Reachable ⟨fun _ => ⟨1000,true,false⟩,{(1000,())},0,0,fun _ => 1200⟩ := by
    refine hadd.step (a := .add () 1200) ⟨fun entry hentry => ?_,rfl⟩
    rw [Multiset.mem_singleton.mp hentry]
    decide
  exact ⟨_,rfl,rfl,rfl,(timers_inv hlazy).2.2.1 () (Multiset.mem_singleton_self _)⟩

end InsideNginx.EventTimer
