import InsideNginx.EventTimer.Timers
import InsideNginx.General.WrappedClock

/-! One pass of `ngx_event_expire_timers`, with handlers that add timers, and the timeout that
`ngx_event_find_timer` computes. -/
namespace InsideNginx.EventTimer
open WrappedClock

variable {w : ℕ} {ε : Type} [DecidableEq ε]

/-- A call of a handler: what it finds in its event, and the calls of `ngx_event_add_timer` that it makes. -/
structure Call (w : ℕ) (ε : Type) where
  event : ε
  seen : Event w
  adds : List (ε × BitVec w)

namespace Timers

/-- The adds of a handler, one after another. -/
def addAll : List (ε × BitVec w) → Timers w ε → Except Misuse (Timers w ε)
  | [],s => .ok s
  | (e,timer)::adds,s => do addAll adds (← s.addTimer e timer)

/-- The part of a round before the call of the handler. -/
def takeTimer (s : Timers w ε) (e : ε) : Except Misuse (Timers w ε) := do
  let s ← s.treeDelete e
  return s.setEvent e { s.ev e with timerSet := false, timedout := true }

/-- `ngx_event_expire_timers`. In round `n`, `min n` is what `ngx_rbtree_min` returns, and `handler n` tells what
the handler of an event adds. Nothing is returned when the fuel runs out. -/
def expireTimers (min : ℕ → Timers w ε → ε) (handler : ℕ → ε → Timers w ε → List (ε × BitVec w)) :
    ℕ → ℕ → Timers w ε → Except Misuse (Option (List (Call w ε) × Timers w ε))
  | 0,_,_ => .ok none
  | fuel+1,n,s =>
    if s.tree = 0 then .ok (some ([],s))
    else
      let e := min n s
      if 0 < ((s.ev e).key - s.currentMsec).toInt then .ok (some ([],s))
      else do
        let s ← s.takeTimer e
        let adds := handler n e s
        let t ← s.addAll adds
        let rest ← expireTimers min handler fuel (n+1) t
        return rest.map fun r => (⟨e,s.ev e,adds⟩::r.1,r.2)

/-- NGX_TIMER_INFINITE. -/
def timerInfinite : BitVec w := BitVec.allOnes w

/-- `ngx_event_find_timer`; `ngx_rbtree_min` returns the node of `e`. -/
def findTimer (s : Timers w ε) (e : ε) : BitVec w :=
  if s.tree = 0 then timerInfinite
  else
    let timer := ((s.ev e).key - s.currentMsec).toInt
    BitVec.ofInt w (if 0 < timer then timer else 0)

/-! ### The range of the times -/

/-- The keys and the current time lie in the half of the range that begins at `b`. -/
def Window (s : Timers w ε) (b : BitVec w) : Prop := Within b s.currentMsec ∧ ∀ entry ∈ s.tree, Within b entry.1

/-- The adds are for events without a timer and due after the current time, and the keys stay less than
half of the range apart. -/
def AddsLater : List (ε × BitVec w) → Timers w ε → Prop
  | [],_ => True
  | (e,timer)::adds,s => (s.ev e).timerSet = false ∧ 0 < timer.toInt ∧
    (∃ b, s.Window b ∧ Within b (s.currentMsec + timer)) ∧ ∀ t, s.addTimer e timer = .ok t → AddsLater adds t

/-- A timer is due. -/
def due (now : BitVec w) (entry : BitVec w × ε) : Prop := (entry.1 - now).toInt ≤ 0

instance (now : BitVec w) : DecidablePred (@due w ε now) := fun _ => inferInstanceAs (Decidable (_ ≤ _))

/-- The entries that the adds of a handler make. -/
def entries (now : BitVec w) (adds : List (ε × BitVec w)) : Multiset (BitVec w × ε) :=
  Multiset.ofList (adds.map fun add => (now + add.2,add.1))

variable {s t : Timers w ε} {e : ε}

/-- An add for an event without a timer puts it into the tree. -/
theorem addTimer_unset (h : s.Consistent) (hset : (s.ev e).timerSet = false) (timer : BitVec w) :
    ∃ t, s.addTimer e timer = .ok t ∧ t.Consistent ∧ t.tree = (s.currentMsec + timer,e) ::ₘ s.tree ∧
      t.currentMsec = s.currentMsec := by
  obtain ⟨t,harm,ht⟩ := h.armTimer hset (s.currentMsec + timer)
  have hout : e ∉ s.tree.map Prod.snd := by rw [h.mem_snd_iff e,hset]; simp
  refine ⟨t,by simp [Timers.addTimer,hset,harm],ht,?_⟩
  simp [Timers.armTimer,setKey,treeInsert,hout,bind,Except.bind,pure,Except.pure,setEvent] at harm
  subst harm
  exact ⟨rfl,rfl⟩

/-- What the adds of a handler do. -/
theorem addAll_spec {adds : List (ε × BitVec w)} (h : s.Consistent) (hwindow : ∃ b, s.Window b) (hadds : AddsLater adds s) :
    ∃ t, s.addAll adds = .ok t ∧ t.Consistent ∧ (∃ b, t.Window b) ∧ t.currentMsec = s.currentMsec ∧
      t.tree = entries s.currentMsec adds + s.tree ∧ ∀ entry ∈ entries s.currentMsec adds, ¬due s.currentMsec entry := by
  induction adds generalizing s with
  | nil => exact ⟨s,rfl,h,hwindow,rfl,by simp [entries],by simp [entries]⟩
  | cons add adds ih =>
    obtain ⟨e,timer⟩ := add
    obtain ⟨hset,hlater,⟨b,hb,hkey⟩,hrest⟩ := hadds
    obtain ⟨t,hadd,ht,htree,hnow⟩ := addTimer_unset h hset timer
    have hwindow' : t.Window b := by
      refine ⟨hnow ▸ hb.1,fun entry hentry => ?_⟩
      rw [htree] at hentry
      rcases Multiset.mem_cons.mp hentry with rfl | hentry
      · exact hkey
      · exact hb.2 entry hentry
    obtain ⟨u,hall,hu,huwindow,hunow,hutree,hnotdue⟩ := ih ht ⟨b,hwindow'⟩ (hrest t hadd)
    rw [hnow] at hunow hutree hnotdue
    have hentries : entries s.currentMsec ((e,timer)::adds) = (s.currentMsec + timer,e) ::ₘ entries s.currentMsec adds := rfl
    refine ⟨u,?_,hu,huwindow,hunow,?_,fun entry hentry => ?_⟩
    · rw [addAll,hadd]
      exact hall
    · rw [hutree,htree,hentries,Multiset.add_cons,Multiset.cons_add]
    · rw [hentries] at hentry
      rcases Multiset.mem_cons.mp hentry with rfl | hentry
      · simp [due,hlater]
      · exact hnotdue entry hentry

/-! ### A pass -/

/-- What a pass does: it calls the handlers of the due timers in order, and leaves the other timers and
those that the handlers add. -/
structure Expired (s : Timers w ε) (calls : List (Call w ε)) (t : Timers w ε) : Prop where
  once : Multiset.ofList (calls.map fun c => (c.seen.key,c.event)) = s.tree.filter (due s.currentMsec)
  order : calls.Pairwise fun c d => 0 ≤ (d.seen.key - c.seen.key).toInt
  flags : ∀ c ∈ calls, c.seen.timerSet = false ∧ c.seen.timedout = true
  left : t.tree = s.tree.filter (¬due s.currentMsec ·) + (calls.map fun c => entries s.currentMsec c.adds).sum
  later : ∀ entry ∈ t.tree, ¬due s.currentMsec entry
  currentMsec : t.currentMsec = s.currentMsec

omit [DecidableEq ε] in
/-- In a window the entry that `ngx_rbtree_min` returns is the earliest. -/
theorem MayReturn.least (h : s.MayReturn e) {b : BitVec w} (hb : s.Window b) : s.Least (s.ev e).key := by
  refine h.2 ?_
  have hkeys : s.tree.map Prod.fst ≠ 0 := by
    intro hzero
    have hmem := h.1
    rw [Multiset.map_eq_zero.mp hzero] at hmem
    exact Multiset.notMem_zero _ hmem
  obtain ⟨key,hkey,hleast⟩ := exists_earliest hkeys fun key hkey => by
    obtain ⟨entry,hentry,rfl⟩ := Multiset.mem_map.mp hkey
    exact hb.2 entry hentry
  obtain ⟨entry,hentry,rfl⟩ := Multiset.mem_map.mp hkey
  exact ⟨entry,hentry,fun f hf => hleast f.1 (Multiset.mem_map_of_mem Prod.fst hf)⟩

omit [DecidableEq ε] in
/-- When the earliest timer is not due, none is. -/
theorem Least.later {b key : BitVec w} (hb : s.Window b) (h : s.Least key) (hkey : Within b key)
    (hdue : 0 < (key - s.currentMsec).toInt) : ∀ entry ∈ s.tree, ¬due s.currentMsec entry := by
  intro entry hentry
  have hle := h entry hentry
  rw [toInt_sub_nonneg_iff (hb.2 entry hentry) hkey] at hle
  unfold due
  rw [toInt_sub_eq hkey hb.1] at hdue
  rw [toInt_sub_eq (hb.2 entry hentry) hb.1]
  omega

/-- A round takes the earliest timer out of the tree. -/
theorem takeTimer_spec (h : s.Consistent) (hmem : ((s.ev e).key,e) ∈ s.tree) :
    ∃ t, s.takeTimer e = .ok t ∧ t.Consistent ∧ t.tree = s.tree.erase ((s.ev e).key,e) ∧
      t.currentMsec = s.currentMsec ∧ t.ev e = ⟨(s.ev e).key,false,true⟩ := by
  obtain ⟨hdelete,hremoved⟩ := h.remove ((h.mem_iff e).mp hmem) true
  refine ⟨_,?_,hremoved.consistent,rfl,rfl,Function.update_self ..⟩
  rw [takeTimer,hdelete]
  rfl

/-- The due timers of a round are the one that it takes and those of the rest of the pass. -/
theorem filter_due {key : BitVec w} {adds : List (ε × BitVec w)} (hmem : (key,e) ∈ s.tree)
    (hdue : due s.currentMsec (key,e)) (htree : t.tree = entries s.currentMsec adds + s.tree.erase (key,e))
    (hnotdue : ∀ entry ∈ entries s.currentMsec adds, ¬due s.currentMsec entry) :
    s.tree.filter (due s.currentMsec) = (key,e) ::ₘ t.tree.filter (due s.currentMsec) := by
  conv_lhs => rw [← Multiset.cons_erase hmem]
  rw [Multiset.filter_cons_of_pos _ hdue,htree,Multiset.filter_add,Multiset.filter_eq_nil.mpr hnotdue,zero_add]

/-- One round before a pass. -/
theorem Expired.cons {u : Timers w ε} {calls : List (Call w ε)} {key : BitVec w} {adds : List (ε × BitVec w)}
    (hpass : Expired t calls u) (hleast : s.Least key) (hmem : (key,e) ∈ s.tree) (hdue : due s.currentMsec (key,e))
    (hnow : t.currentMsec = s.currentMsec) (htree : t.tree = entries s.currentMsec adds + s.tree.erase (key,e))
    (hnotdue : ∀ entry ∈ entries s.currentMsec adds, ¬due s.currentMsec entry) :
    Expired s (⟨e,⟨key,false,true⟩,adds⟩::calls) u := by
  have hfiltered := filter_due hmem hdue htree hnotdue
  have honce := hpass.once
  have hleft := hpass.left
  have hlater := hpass.later
  rw [hnow] at honce hleft hlater
  refine ⟨?_,List.pairwise_cons.mpr ⟨fun c hc => ?_,hpass.order⟩,List.forall_mem_cons.mpr ⟨⟨rfl,rfl⟩,hpass.flags⟩,?_,
    hlater,hpass.currentMsec.trans hnow⟩
  · rw [hfiltered,← honce]
    rfl
  · have hafter : (c.seen.key,c.event) ∈ t.tree.filter (due s.currentMsec) := by
      rw [← honce]
      exact Multiset.mem_coe.mpr (List.mem_map.mpr ⟨c,hc,rfl⟩)
    have hbefore : (c.seen.key,c.event) ∈ s.tree.filter (due s.currentMsec) := by
      rw [hfiltered]
      exact Multiset.mem_cons_of_mem hafter
    have hle := hleast (c.seen.key,c.event) (Multiset.mem_filter.mp hbefore).1
    exact hle
  · have hothers : s.tree.filter (¬due s.currentMsec ·) = (s.tree.erase (key,e)).filter (¬due s.currentMsec ·) := by
      conv_lhs => rw [← Multiset.cons_erase hmem]
      exact Multiset.filter_cons_of_neg _ (not_not.mpr hdue)
    rw [hleft,htree,hothers,Multiset.filter_add,Multiset.filter_eq_self.mpr hnotdue,List.map_cons,List.sum_cons]
    abel

variable {min : ℕ → Timers w ε → ε} {handler : ℕ → ε → Timers w ε → List (ε × BitVec w)}

/-- With fuel for every due timer the pass ends. -/
theorem expireTimers_spec (hmin : ∀ n (s : Timers w ε), s.Consistent → s.tree ≠ 0 → s.MayReturn (min n s))
    (hhandler : ∀ n e s, s.Consistent → (∃ b, s.Window b) → AddsLater (handler n e s) s) {fuel : ℕ} (n : ℕ)
    {s : Timers w ε} (hs : s.Consistent) (hwindow : ∃ b, s.Window b)
    (hfuel : (s.tree.filter (due s.currentMsec)).card < fuel) :
    ∃ calls t, expireTimers min handler fuel n s = .ok (some (calls,t)) ∧ Expired s calls t ∧ t.Consistent ∧
      ∃ b, t.Window b := by
  induction fuel generalizing n s with
  | zero => exact absurd hfuel (Nat.not_lt_zero _)
  | succ fuel ih =>
    rw [expireTimers]
    have hstop : (∀ entry ∈ s.tree, ¬due s.currentMsec entry) → Expired s [] s := fun hnone =>
      ⟨(Multiset.filter_eq_nil.mpr hnone).symm,List.Pairwise.nil,by simp,
        by simp [Multiset.filter_eq_self.mpr hnone],hnone,rfl⟩
    by_cases hempty : s.tree = 0
    · rw [if_pos hempty]
      exact ⟨[],s,rfl,hstop (by simp [hempty]),hs,hwindow⟩
    rw [if_neg hempty]
    have hmay := hmin n s hs hempty
    obtain ⟨b,hb⟩ := hwindow
    have hleast := hmay.least hb
    generalize min n s = e at hmay hleast ⊢
    have hwithin : Within b (s.ev e).key := hb.2 _ hmay.1
    by_cases hlater : 0 < ((s.ev e).key - s.currentMsec).toInt
    · rw [if_pos hlater]
      exact ⟨[],s,rfl,hstop (hleast.later hb hwithin hlater),hs,b,hb⟩
    rw [if_neg hlater]
    -- a due timer: it is taken out, and its handler adds others
    obtain ⟨u,htake,hu,hutree,hunow,huev⟩ := takeTimer_spec hs hmay.1
    have hubase : u.Window b := by
      refine ⟨hunow ▸ hb.1,fun entry hentry => hb.2 entry ?_⟩
      rw [hutree] at hentry
      exact Multiset.mem_of_mem_erase hentry
    obtain ⟨v,hadds,hv,hvwindow,hvnow,hvtree,hnotdue⟩ := addAll_spec hu ⟨b,hubase⟩ (hhandler n e u hu ⟨b,hubase⟩)
    rw [hunow] at hvnow hvtree hnotdue
    rw [hutree] at hvtree
    have hdue : due s.currentMsec ((s.ev e).key,e) := not_lt.mp hlater
    have hfiltered := filter_due hmay.1 hdue hvtree hnotdue
    rw [← hvnow] at hfiltered
    rw [← hvnow,hfiltered,Multiset.card_cons] at hfuel
    obtain ⟨calls,t,hrun,hpass,ht,htwindow⟩ := ih (n+1) hv hvwindow (by omega)
    refine ⟨⟨e,⟨(s.ev e).key,false,true⟩,handler n e u⟩::calls,t,?_,
      hpass.cons hleast hmay.1 hdue hvnow hvtree hnotdue,ht,htwindow⟩
    simp only [htake,hadds,hrun,huev,bind,Except.bind,pure,Except.pure,Option.map_some]

/-! ### The timeout -/

/-- The timeout is infinite, or the time to the earliest deadline, or 0 when that has passed. -/
structure Timeout (s : Timers w ε) (timeout : BitVec w) : Prop where
  infinite : timeout = timerInfinite ↔ s.tree = 0
  earliest : s.tree ≠ 0 → ∃ entry ∈ s.tree, s.Least entry.1 ∧
    timeout.toInt = max 0 (entry.1 - s.currentMsec).toInt

theorem findTimer_spec (hw : 0 < w) {b : BitVec w} (hb : s.Window b) (hmay : s.tree ≠ 0 → s.MayReturn e) :
    Timeout s (s.findTimer e) := by
  unfold findTimer
  by_cases hempty : s.tree = 0
  · rw [if_pos hempty]
    exact ⟨by simp [hempty],fun h => absurd hempty h⟩
  rw [if_neg hempty]
  have hmay := hmay hempty
  have hround : (BitVec.ofInt w (if 0 < ((s.ev e).key - s.currentMsec).toInt then ((s.ev e).key - s.currentMsec).toInt
      else 0)).toInt = max 0 ((s.ev e).key - s.currentMsec).toInt := by
    split_ifs with hlater
    · rw [BitVec.ofInt_toInt,max_eq_right hlater.le]
    · rw [max_eq_left (not_lt.mp hlater)]
      simp
  refine ⟨⟨fun hinf => ?_,fun h => absurd h hempty⟩,fun _ => ⟨_,hmay.1,hmay.least hb,hround⟩⟩
  have hneg : (timerInfinite : BitVec w).toInt = -1 := by
    rw [timerInfinite,BitVec.toInt_allOnes,if_pos hw]
  simp only at hinf
  rw [hinf,hneg] at hround
  have := le_max_left 0 ((s.ev e).key - s.currentMsec).toInt
  omega

end Timers

/-- A pass ends, and calls the handlers of exactly the due timers, in order; and the poll timeout agrees with it. -/
theorem expires_due (hw : 0 < w) {s : Timers w ε} (hs : s.Consistent) (hwindow : ∃ b, s.Window b)
    {min : ℕ → Timers w ε → ε} (hmin : ∀ n (s : Timers w ε), s.Consistent → s.tree ≠ 0 → s.MayReturn (min n s))
    {handler : ℕ → ε → Timers w ε → List (ε × BitVec w)}
    (hhandler : ∀ n e s, s.Consistent → (∃ b, s.Window b) → Timers.AddsLater (handler n e s) s) (n : ℕ) :
      s.Timeout (s.findTimer (min n s)) ∧ ∃ fuel calls t, Timers.expireTimers min handler fuel n s = .ok (some (calls,t)) ∧
      Timers.Expired s calls t ∧ ∀ m, t.Timeout (t.findTimer (min m t)) ∧ t.findTimer (min m t) ≠ 0 := by
  obtain ⟨b,hb⟩ := hwindow
  refine ⟨Timers.findTimer_spec hw hb (hmin n s hs),(s.tree.filter (Timers.due s.currentMsec)).card + 1,?_⟩
  obtain ⟨calls,t,hrun,hpass,ht,c,hc⟩ := Timers.expireTimers_spec hmin hhandler n hs ⟨b,hb⟩ (Nat.lt_succ_self _)
  refine ⟨calls,t,hrun,hpass,fun m => ?_⟩
  have htimeout := Timers.findTimer_spec hw hc (hmin m t ht)
  refine ⟨htimeout,fun hzero => ?_⟩
  by_cases hempty : t.tree = 0
  · -- no timer is left, and the timeout is infinite
    have hinf := htimeout.infinite.mpr hempty
    rw [hzero,Timers.timerInfinite] at hinf
    have htoNat := congrArg BitVec.toNat hinf
    rw [BitVec.toNat_allOnes] at htoNat
    simp only [BitVec.ofNat_eq_ofNat,BitVec.toNat_ofNat,Nat.zero_mod] at htoNat
    have := Nat.one_lt_two_pow hw.ne'
    omega
  · obtain ⟨entry,hentry,-,hround⟩ := htimeout.earliest hempty
    have hlater := hpass.later entry hentry
    rw [hzero] at hround
    simp only [BitVec.ofNat_eq_ofNat,BitVec.toInt_zero] at hround
    unfold Timers.due at hlater
    rw [hpass.currentMsec] at hround
    have := le_max_right 0 (entry.1 - s.currentMsec).toInt
    omega

/-- A timer that is set for 1000, at 2000. -/
def oneTimer : Timers 64 Unit := ⟨fun _ => ⟨1000,true,false⟩,{(1000,())},2000,0,fun _ => 1000⟩

/-- One timer is due, and its handler adds it again. -/
theorem expires_due_again : ∃ fuel calls, ∃ t : Timers 64 Unit,
    Timers.expireTimers (fun _ _ => ()) (fun _ _ s => if (s.ev ()).timerSet then [] else [((),500)]) fuel 0 oneTimer =
      .ok (some (calls,t)) ∧
    Multiset.ofList (calls.map fun c => (c.seen.key,c.event)) = {(1000,())} ∧ t.findTimer () ≠ 0 := by
  have hs : oneTimer.Consistent := by
    refine ⟨fun e => by simp [oneTimer],fun entry hentry => ?_,fun e _ => by simp [oneTimer,lazyDelay]⟩
    rw [Multiset.mem_singleton.mp hentry]
    rfl
  have hmin : ∀ (n : ℕ) (s : Timers 64 Unit), s.Consistent → s.tree ≠ 0 → s.MayReturn ((fun _ _ => ()) n s) := by
    intro n s hs hne
    obtain ⟨⟨key,_⟩,hentry⟩ := Multiset.exists_mem_of_ne_zero hne
    have hkey := hs.key _ hentry
    refine ⟨hkey ▸ hentry,fun _ f hf => ?_⟩
    rw [hs.key f hf,sub_self]
    exact le_refl 0
  have hhandler : ∀ (n : ℕ) (e : Unit) (s : Timers 64 Unit), s.Consistent → (∃ b, s.Window b) →
      Timers.AddsLater ((fun _ _ s => if (s.ev ()).timerSet then [] else [((),500)]) n e s) s := by
    intro n e s hs _
    by_cases hset : (s.ev ()).timerSet = true
    · simp [hset,Timers.AddsLater]
    · have hempty : s.tree = 0 := by
        refine Multiset.eq_zero_of_forall_notMem fun entry hentry => hset ?_
        exact (hs.mem_snd_iff ()).mp (Multiset.mem_map.mpr ⟨entry,hentry,rfl⟩)
      simp only [hset,Bool.false_eq_true,if_false]
      refine ⟨Bool.eq_false_iff.mpr hset,by decide,⟨s.currentMsec,⟨by simp [Within,since],by simp [hempty]⟩,?_⟩,
        fun _ _ => trivial⟩
      simp [Within,since]
  have hwindow : ∃ b, oneTimer.Window b :=
    ⟨1000,by decide,fun entry hentry => by rw [Multiset.mem_singleton.mp hentry]; decide⟩
  obtain ⟨-,fuel,calls,t,hrun,hpass,hnext⟩ := expires_due (by decide) hs hwindow hmin hhandler 0
  refine ⟨fuel,calls,t,hrun,?_,(hnext 0).2⟩
  rw [hpass.once]
  decide

/-- Two timers that are set for 1000 and 1100, at 2000. -/
def twoTimers : Timers 64 Bool :=
  ⟨fun e => ⟨if e then 1100 else 1000,true,false⟩,{(1000,false),(1100,true)},2000,0,fun e => if e then 1100 else 1000⟩

/-- The handler of the first of two due timers adds the timer of the second one, for 2500. All keys stay in the
range, and the handler of the second one is not called. -/
theorem rearmed_not_called : ∃ calls, ∃ t : Timers 64 Bool,
    Timers.expireTimers (fun n _ => n == 1) (fun _ _ _ => [(true,500)]) 3 0 twoTimers = .ok (some (calls,t)) ∧
    (twoTimers.Consistent ∧ twoTimers.Window 1000 ∧ t.Window 1000) ∧ twoTimers.MayReturn false ∧ t.MayReturn true ∧
    (∀ c ∈ calls, ∀ add ∈ c.adds, 0 < add.2.toInt ∧ Within 1000 (twoTimers.currentMsec + add.2)) ∧
    (∃ entry ∈ twoTimers.tree, Timers.due twoTimers.currentMsec entry ∧ ∀ c ∈ calls, c.event ≠ entry.2) ∧
    ¬ Timers.Expired twoTimers calls t := by
  obtain ⟨t,hrun,htree,hnow,hkey⟩ : ∃ t, Timers.expireTimers (fun n _ => n == 1) (fun _ _ _ => [(true,500)]) 3 0 twoTimers =
      .ok (some ([⟨false,⟨1000,false,true⟩,[(true,500)]⟩],t)) ∧ t.tree = {(2500,true)} ∧ t.currentMsec = 2000 ∧
      (t.ev true).key = 2500 := ⟨_,rfl,rfl,rfl,rfl⟩
  have hset : ∀ entry ∈ twoTimers.tree, entry = (1000,false) ∨ entry = (1100,true) := by simp [twoTimers]
  have hleft : ∀ entry ∈ t.tree, entry = (2500,true) := by simp [htree]
  have hsecond : ((1100,true) : BitVec 64 × Bool) ∈ twoTimers.tree := by simp [twoTimers]
  have hdue : Timers.due twoTimers.currentMsec ((1100,true) : BitVec 64 × Bool) := by decide
  refine ⟨_,t,hrun,⟨⟨by decide,by simp [twoTimers],by simp [twoTimers,lazyDelay]⟩,⟨by decide,fun entry hentry => ?_⟩,
    ⟨by rw [hnow]; decide,fun entry hentry => ?_⟩⟩,⟨by simp [twoTimers],fun _ entry hentry => ?_⟩,
    ⟨by simp [htree,hkey],fun _ entry hentry => ?_⟩,?_,⟨_,hsecond,hdue,by simp⟩,fun h => ?_⟩
  · obtain rfl | rfl := hset entry hentry <;> decide
  · obtain rfl := hleft entry hentry
    decide
  · obtain rfl | rfl := hset entry hentry <;> decide
  · obtain rfl := hleft entry hentry
    rw [hkey]
    decide
  · simp only [List.mem_singleton,forall_eq]
    decide
  · have hcalled := h.once ▸ Multiset.mem_filter.mpr ⟨hsecond,hdue⟩
    simp at hcalled

end InsideNginx.EventTimer
