import InsideNginx.HttpUpstream.Probes

/-! Which success makes a failed peer live again. `fails` is cleared once `checked` has left `accessed` behind, and
`checked` is moved by the selections of all requests. -/
namespace InsideNginx.HttpUpstream
open TransitionSystem
variable {κ : Type} [DecidableEq κ]

/-! ### The failure record of a peer -/

/-- What a peer keeps about its failures. -/
def RrPeer.record (peer : RrPeer) : ℕ × ℤ × ℤ := (peer.fails,peer.accessed,peer.checked)

theorem RrPeer.record_eq_iff {peer peer' : RrPeer} : peer'.record = peer.record ↔
    peer'.fails = peer.fails ∧ peer'.accessed = peer.accessed ∧ peer'.checked = peer.checked := by
  simp [RrPeer.record]

theorem account_succeeded (peer : RrPeer) (now : ℤ) : peer.account now false =
    if peer.accessed < peer.checked then { peer with fails := 0 } else peer := rfl

/-- A selection may move the check time of the peer that it returns. -/
theorem Picked.record {now : ℤ} {u u' : Upstream} {rc : Rc} {current : Option PeerPtr}
    (h : Picked now u rc u' current) {ptr : PeerPtr} {g : RrPeers} {peer' : RrPeer} (hg : u.group ptr.1 = some g)
    (hseveral : g.single = false) (hpeer' : u'.peerAt ptr = some peer') : ∃ peer, u.peerAt ptr = some peer ∧
      (peer'.record = peer.record ∧ ¬ (rc = .ok ∧ current = some ptr) ∨
        rc = .ok ∧ current = some ptr ∧ peer'.record = (peer.touch now).record) := by
  cases h with
  | busy => exact ⟨peer',hpeer',.inl ⟨rfl,by simp⟩⟩
  | @ok other g' p peers group picks =>
    rw [Upstream.peerAt_store group] at hpeer'
    split at hpeer'
    · rename_i hother
      obtain ⟨peer,hpeer,hk⟩ := picks.kept _ _ hpeer'
      cases hg.symm.trans (hother ▸ group)
      refine ⟨peer,by simpa [Upstream.peerAt,hg] using hpeer,?_⟩
      by_cases hp : ptr.2 = p
      · refine .inr ⟨rfl,by rw [← hother,← hp],?_⟩
        simp [RrPeer.record,hk.fails,hk.accessed,hk.touched ⟨hseveral,hp⟩,RrPeer.touch]
      · refine .inl ⟨RrPeer.record_eq_iff.mpr ⟨hk.fails,hk.accessed,hk.untouched fun hc => hp hc.2⟩,?_⟩
        rintro ⟨-,hcur⟩
        exact hp (congrArg Prod.snd (Option.some.inj hcur)).symm
    · rename_i hother
      refine ⟨peer',hpeer',.inl ⟨rfl,?_⟩⟩
      rintro ⟨-,hcur⟩
      exact hother (congrArg Prod.fst (Option.some.inj hcur)).symm

/-- A release accounts for the peer that it frees. -/
theorem freeRoundRobinPeer_record {now : ℤ} {peerFailed : Bool} {u u' : Upstream} {r r' : Request} {ptr q : PeerPtr}
    {g : RrPeers} {peer' : RrPeer} (hcur : r.rrp.current = some ptr) (hpeers : r.rrp.peers = ptr.1)
    (h : freeRoundRobinPeer now peerFailed u r = .ok (u',r')) (hg : u.group q.1 = some g) (hseveral : g.single = false)
    (hpeer' : u'.peerAt q = some peer') : ∃ peer, u.peerAt q = some peer ∧
      (peer'.record = peer.record ∧ q ≠ ptr ∨ q = ptr ∧ peer'.record = (peer.account now peerFailed).record) := by
  obtain ⟨peers,hgroup,hat⟩ := freeRoundRobinPeer_peerAt hcur h
  obtain ⟨peer,hpeer,rfl⟩ := Option.map_eq_some_iff.mp ((hat q).symm.trans hpeer')
  refine ⟨peer,hpeer,?_⟩
  split
  · rename_i hq
    subst hq
    cases hg.symm.trans (hpeers ▸ hgroup)
    rw [hseveral]
    exact .inr ⟨rfl,rfl⟩
  · rename_i hq
    exact .inl ⟨rfl,hq⟩

/-- How one step changes the failure record of a peer. -/
inductive Rerecords (w : World κ) (us : κ) (ptr : PeerPtr) (peer peer' : RrPeer) : Action κ → Prop
  | kept {a} (record : peer'.record = peer.record) : Rerecords w us ptr peer peer' a
  | selected {i balancer now s u req} (session : w.sessions[i]? = some s) (upstream : s.us = us)
      (call : balancer.get now (w.ups s.us) s.req = .ok (.ok,u,req)) (current : req.rrp.current = some ptr)
      (record : peer'.record = (peer.touch now).record) :
      Rerecords w us ptr peer peer' (.select i balancer now)
  | freed {i now peerFailed s} (session : w.sessions[i]? = some s) (upstream : s.us = us)
      (holds : s.holds = some ptr) (record : peer'.record = (peer.account now peerFailed).record) :
      Rerecords w us ptr peer peer' (.free i now peerFailed)

theorem World.step_rerecords {w w' : World κ} {a : Action κ} (hacc : Accounted w) (hstep : w.step a = some w')
    {us : κ} {ptr : PeerPtr} {g : RrPeers} {peer' : RrPeer} (hg : (w.ups us).group ptr.1 = some g)
    (hseveral : g.single = false) (hpeer' : (w'.ups us).peerAt ptr = some peer') :
    ∃ peer, (w.ups us).peerAt ptr = some peer ∧ Rerecords w us ptr peer peer' a := by
  refine World.step_ups (P := fun us u u' => ∀ g peer', u.group ptr.1 = some g → g.single = false →
    u'.peerAt ptr = some peer' → ∃ peer, u.peerAt ptr = some peer ∧ Rerecords w us ptr peer peer' a) hstep
    (fun _ _ peer' _ _ hpeer' => ⟨peer',hpeer',.kept rfl⟩) ?_ ?_ us g peer' hg hseveral hpeer'
  · rintro i balancer now s rc u req rfl hi hcall g peer' hg hseveral hpeer'
    obtain ⟨peer,hpeer,⟨hrecord,-⟩ | ⟨rfl,hcur,hrecord⟩⟩ :=
      (balancer.picking now _ _ _ _ _ hcall).record hg hseveral hpeer'
    · exact ⟨peer,hpeer,.kept hrecord⟩
    · exact ⟨peer,hpeer,.selected hi rfl hcall hcur hrecord⟩
  · rintro i now peerFailed s cur u req rfl hi hholds hcall g peer' hg hseveral hpeer'
    obtain ⟨hcur,hpeers,-⟩ := hacc.held s (List.mem_of_getElem? hi) cur hholds
    obtain ⟨peer,hpeer,⟨hrecord,-⟩ | ⟨rfl,hrecord⟩⟩ :=
      freeRoundRobinPeer_record hcur hpeers hcall hg hseveral hpeer'
    · exact ⟨peer,hpeer,.kept hrecord⟩
    · exact ⟨peer,hpeer,.freed hi rfl hholds hrecord⟩

/-- A request holds a peer because it has just selected it, or because it did before. -/
theorem World.step_holds {w w' : World κ} {a : Action κ} (hstep : w.step a = some w') {j : ℕ} {s' : Session κ}
    {ptr : PeerPtr} (hj : w'.sessions[j]? = some s') (hholds : s'.holds = some ptr) :
    (∃ balancer now, a = .select j balancer now) ∨
      w.sessions[j]? = some s' ∧ ∀ balancer now, a ≠ .select j balancer now := by
  have hset : ∀ {i : ℕ} {s t : Session κ}, w.sessions[i]? = some s → (w.sessions.set i t)[j]? = some s' →
      i = j ∧ s' = t ∨ i ≠ j ∧ w.sessions[j]? = some s' := by
    intro i s t hi hj
    by_cases hij : i = j
    · subst hij
      rw [List.getElem?_set_self (List.getElem?_eq_some_iff.mp hi).1] at hj
      exact .inl ⟨rfl,(Option.some.inj hj).symm⟩
    · exact .inr ⟨hij,by rwa [List.getElem?_set_ne hij] at hj⟩
  obtain ⟨us,pcalloc,addr,req,rfl,hreq,rfl⟩ | ⟨i,balancer,now,s,rc,u,req,rfl,hi,hidle,hcall,rfl⟩ |
    ⟨i,now,peerFailed,s,cur,u,req,rfl,hi,-,hcall,rfl⟩ := World.step_cases hstep
  · refine .inr ⟨?_,by simp⟩
    rcases lt_or_ge j w.sessions.length with hlt | hge
    · rwa [List.getElem?_append_left hlt] at hj
    · have hlast := List.mem_of_getElem? ((List.getElem?_append_right hge).symm.trans hj)
      rw [List.mem_singleton.mp hlast] at hholds
      cases hholds
  · obtain ⟨rfl,-⟩ | ⟨hij,hold⟩ := hset hi hj
    · exact .inl ⟨balancer,now,rfl⟩
    · exact .inr ⟨hold,fun _ _ ha => hij (by cases ha; rfl)⟩
  · obtain ⟨-,rfl⟩ | ⟨hij,hold⟩ := hset hi hj
    · cases hholds
    · exact .inr ⟨hold,by simp⟩

/-! ### The times of the selections -/

/-- The world with what a run records about time: the latest call, and the latest selection of every request. -/
structure Timed (κ : Type) where
  world : World κ
  clock : ℤ
  since : ℕ → ℤ

/-- The times of the selections after a call. -/
def Timed.noted (t : Timed κ) : Action κ → ℕ → ℤ
  | .select i _ now => Function.update t.since i now
  | _ => t.since

/-- A step whose call is not before the latest one. -/
def Timed.step (t : Timed κ) (a : Action κ) : Option (Timed κ) :=
  if ∀ now ∈ a.now?, t.clock ≤ now then
    (t.world.step a).map fun w => ⟨w,a.now?.getD t.clock,t.noted a⟩
  else none

/-- The balancing system under a clock that does not go back. -/
def timed (pcalloc : κ → ℕ → Bool) (resolve : String → ℕ → Option (List UpstreamAddr))
    (conf : κ → UpstreamSrvConf) : TransitionSystem (Timed κ) (Action κ) :=
  .ofFunction (fun t => (balancing pcalloc resolve conf).init t.world) Timed.step

/-- Every request that holds the peer was selected after the given time. -/
def Timed.NewerThan (t : Timed κ) (us : κ) (ptr : PeerPtr) (time : ℤ) : Prop :=
  ∀ p ∈ t.world.sessions.zipIdx, p.1.us = us → p.1.holds = some ptr → time < t.since p.2

/-- The failed peer that a selection checks later than its last failure, with the time of the failure. -/
def World.recheck? (w : World κ) : Action κ → Option (κ × PeerPtr × ℤ)
  | .select i balancer now => do
    let s ← w.sessions[i]?
    match balancer.get now (w.ups s.us) s.req with
    | .ok (.ok,_,req) =>
      let ptr ← req.rrp.current
      let g ← (w.ups s.us).group ptr.1
      let peer ← (w.ups s.us).peerAt ptr
      if g.single = false ∧ peer.fails ≠ 0 ∧ peer.failTimeout < now - peer.checked ∧ peer.accessed < now then
        some (s.us,ptr,peer.accessed)
      else none
    | _ => none
  | _ => none

/-- When a selection checks a failed peer again, no request from before the failure holds it any more. -/
def Timed.Settled (t : Timed κ) (a : Action κ) : Prop :=
  ∀ failed ∈ t.world.recheck? a, t.NewerThan failed.1 failed.2.1 failed.2.2

instance (t : Timed κ) (us : κ) (ptr : PeerPtr) (time : ℤ) : Decidable (t.NewerThan us ptr time) :=
  inferInstanceAs (Decidable (∀ p ∈ t.world.sessions.zipIdx, _ → _ → _))

instance (t : Timed κ) (a : Action κ) : Decidable (t.Settled a) :=
  inferInstanceAs (Decidable (∀ failed ∈ t.world.recheck? a, t.NewerThan failed.1 failed.2.1 failed.2.2))

/-- Where the release of request `i` clears the failures of a peer, the request was selected on the peer after
the last of them. -/
def Timed.RevivesNewer (t : Timed κ) (i : ℕ) (t' : Timed κ) : Prop :=
  ∀ us ptr g peer peer', (t.world.ups us).group ptr.1 = some g → g.single = false →
    (t.world.ups us).peerAt ptr = some peer → (t'.world.ups us).peerAt ptr = some peer' →
    peer.fails ≠ 0 → peer'.fails = 0 →
    ∃ s, t.world.sessions[i]? = some s ∧ s.us = us ∧ s.holds = some ptr ∧ peer.accessed < t.since i

theorem Timed.step_inv {t t' : Timed κ} {a : Action κ} (h : t.step a = some t') :
    (∀ now, a.now? = some now → t.clock ≤ now) ∧ t.world.step a = some t'.world ∧
      t'.clock = a.now?.getD t.clock ∧ t'.since = t.noted a := by
  unfold Timed.step at h
  split at h
  · rename_i hclock
    obtain ⟨w,hw,rfl⟩ := Option.map_eq_some_iff.mp h
    exact ⟨hclock,hw,rfl,rfl⟩
  · cases h

theorem Timed.clock_le {t t' : Timed κ} {a : Action κ} (h : t.step a = some t') : t.clock ≤ t'.clock := by
  obtain ⟨hclock,-,hafter,-⟩ := Timed.step_inv h
  cases hnow : a.now? with
  | none => simp [hafter,hnow]
  | some now => simpa [hafter,hnow] using hclock now hnow

omit [DecidableEq κ] in
theorem Timed.newerThan_iff {t : Timed κ} {us : κ} {ptr : PeerPtr} {time : ℤ} : t.NewerThan us ptr time ↔
    ∀ j s, t.world.sessions[j]? = some s → s.us = us → s.holds = some ptr → time < t.since j := by
  constructor
  · intro h j s hj
    exact h (s,j) (List.mk_mem_zipIdx_iff_getElem?.mpr hj)
  · rintro h ⟨s,j⟩ hp
    exact h j s (List.mk_mem_zipIdx_iff_getElem?.mp hp)

/-- A call after the given time leaves all holders newer than it. -/
theorem Timed.NewerThan.step {t t' : Timed κ} {a : Action κ} {us : κ} {ptr : PeerPtr} {time : ℤ}
    (h : t.NewerThan us ptr time) (hstep : t.step a = some t')
    (hlater : ∀ j balancer now, a = .select j balancer now → time < now) : t'.NewerThan us ptr time := by
  obtain ⟨-,hworld,-,hsince⟩ := Timed.step_inv hstep
  refine Timed.newerThan_iff.mpr fun j s hj hus hholds => ?_
  rw [hsince]
  obtain ⟨balancer,now,rfl⟩ | ⟨hold,hother⟩ := World.step_holds hworld hj hholds
  · simpa [Timed.noted] using hlater j balancer now rfl
  · have hkept : t.noted a j = t.since j := by
      cases a with
      | select i balancer now =>
        refine Function.update_of_ne (fun hji => ?_) _ _
        exact hother balancer now (by rw [hji])
      | init | free => rfl
    rw [hkept]
    exact Timed.newerThan_iff.mp h j s hold hus hholds

/-! ### Runs -/

/-- A failed peer that has been checked after its last failure is held by newer requests only. -/
structure Timed.Dated (t : Timed κ) (us : κ) (ptr : PeerPtr) (peer : RrPeer) : Prop where
  checked_le : peer.checked ≤ t.clock
  newer : peer.accessed < peer.checked → t.NewerThan us ptr peer.accessed

theorem Timed.Dated.kept {t t' : Timed κ} {a : Action κ} {us : κ} {ptr : PeerPtr} {peer peer' : RrPeer}
    (h : t.Dated us ptr peer) (hstep : t.step a = some t') (hrecord : peer'.record = peer.record) :
    t'.Dated us ptr peer' := by
  obtain ⟨-,haccessed,hchecked⟩ := RrPeer.record_eq_iff.mp hrecord
  refine ⟨hchecked ▸ h.checked_le.trans (Timed.clock_le hstep),fun hlt => ?_⟩
  rw [haccessed,hchecked] at hlt
  rw [haccessed]
  refine (h.newer hlt).step hstep fun j balancer now ha => ?_
  exact hlt.trans_le (h.checked_le.trans ((Timed.step_inv hstep).1 now (by rw [ha]; rfl)))

omit [DecidableEq κ] in
theorem World.recheck?_eq_some {w : World κ} {a : Action κ} {us : κ} {ptr : PeerPtr} {time : ℤ} :
    w.recheck? a = some (us,ptr,time) ↔ ∃ i balancer now s u req g peer, a = .select i balancer now ∧
      w.sessions[i]? = some s ∧ s.us = us ∧ balancer.get now (w.ups s.us) s.req = .ok (.ok,u,req) ∧
      req.rrp.current = some ptr ∧ (w.ups s.us).group ptr.1 = some g ∧ g.single = false ∧
      (w.ups s.us).peerAt ptr = some peer ∧ peer.fails ≠ 0 ∧ peer.failTimeout < now - peer.checked ∧
      peer.accessed < now ∧ peer.accessed = time := by
  constructor
  · intro h
    cases a with
    | init | free => cases h
    | select i balancer now =>
      obtain ⟨s,hi,h⟩ := Option.bind_eq_some_iff.mp h
      cases hcall : balancer.get now (w.ups s.us) s.req with
      | error _ => simp [hcall] at h
      | ok out =>
        obtain ⟨rc,u,req⟩ := out
        cases rc with
        | busy => simp [hcall] at h
        | ok =>
          simp only [hcall] at h
          obtain ⟨cur,hcur,h⟩ := Option.bind_eq_some_iff.mp h
          obtain ⟨g,hg,h⟩ := Option.bind_eq_some_iff.mp h
          obtain ⟨peer,hpeer,h⟩ := Option.bind_eq_some_iff.mp h
          obtain ⟨⟨hseveral,hfails,hcheck,hlater⟩,heq⟩ := Option.ite_none_right_eq_some.mp h
          cases heq
          exact ⟨i,balancer,now,s,u,req,g,peer,rfl,hi,rfl,hcall,hcur,hg,hseveral,hpeer,hfails,hcheck,hlater,rfl⟩
  · rintro ⟨i,balancer,now,s,u,req,g,peer,rfl,hi,rfl,hcall,hcur,hg,hseveral,hpeer,hfails,hcheck,hlater,rfl⟩
    simp [World.recheck?,hi,hcall,hcur,hg,hpeer,hseveral,hfails,hcheck,hlater]

/-- The step lemma. -/
theorem Timed.Dated.step {t t' : Timed κ} {a : Action κ} (hacc : Accounted t.world) (hstep : t.step a = some t')
    (hsettled : t.Settled a) {us : κ} {ptr : PeerPtr} {g : RrPeers} {peer' : RrPeer}
    (hg : (t.world.ups us).group ptr.1 = some g) (hseveral : g.single = false)
    (h : ∀ peer, (t.world.ups us).peerAt ptr = some peer → peer.fails ≠ 0 → t.Dated us ptr peer)
    (hpeer' : (t'.world.ups us).peerAt ptr = some peer') (hfails : peer'.fails ≠ 0) : t'.Dated us ptr peer' := by
  obtain ⟨hclock,hworld,hafter,-⟩ := Timed.step_inv hstep
  obtain ⟨peer,hpeer,hrecords⟩ := World.step_rerecords hacc hworld hg hseveral hpeer'
  cases hrecords with
  | kept hrecord =>
    have hsame := (RrPeer.record_eq_iff.mp hrecord).1
    exact (h peer hpeer (hsame ▸ hfails)).kept hstep hrecord
  | @selected i balancer now s u req session upstream call current hrecord =>
    subst upstream
    have hsame : peer'.fails = peer.fails := (RrPeer.record_eq_iff.mp hrecord).1
    have hdated := h peer hpeer (hsame ▸ hfails)
    by_cases hcheck : peer.failTimeout < now - peer.checked
    · obtain ⟨-,haccessed,hchecked⟩ := RrPeer.record_eq_iff.mp hrecord
      have haccessed : peer'.accessed = peer.accessed := haccessed
      have hchecked : peer'.checked = now := by simpa [RrPeer.touch,hcheck] using hchecked
      refine ⟨by rw [hchecked,hafter]; rfl,fun hlt => ?_⟩
      rw [haccessed,hchecked] at hlt
      have hnewer := hsettled _ (World.recheck?_eq_some.mpr ⟨i,balancer,now,s,u,req,g,peer,rfl,session,rfl,call,
        current,hg,hseveral,hpeer,hsame ▸ hfails,hcheck,hlt,rfl⟩)
      rw [haccessed]
      exact hnewer.step hstep fun j other time ha => by cases ha; exact hlt
    · exact hdated.kept hstep (by simpa [RrPeer.record,RrPeer.touch,hcheck] using hrecord)
  | @freed i now peerFailed s session upstream holds hrecord =>
    cases peerFailed with
    | true =>
      -- the failure stores one time in both fields
      obtain ⟨-,haccessed,hchecked⟩ := RrPeer.record_eq_iff.mp hrecord
      have haccessed : peer'.accessed = now := haccessed
      have hchecked : peer'.checked = now := hchecked
      refine ⟨by rw [hchecked,hafter]; rfl,fun hlt => ?_⟩
      rw [haccessed,hchecked] at hlt
      exact absurd hlt (lt_irrefl now)
    | false =>
      rw [account_succeeded] at hrecord
      split_ifs at hrecord with hlt
      · exact absurd (RrPeer.record_eq_iff.mp hrecord).1 hfails
      · exact (h peer hpeer ((RrPeer.record_eq_iff.mp hrecord).1 ▸ hfails)).kept hstep hrecord

omit [DecidableEq κ] in
/-- The release of a request clears the failures of the peer it holds, after a check newer than the last one. -/
theorem Rerecords.revived {w : World κ} {us : κ} {ptr : PeerPtr} {peer peer' : RrPeer} {i : ℕ} {now : ℤ}
    {peerFailed : Bool} (h : Rerecords w us ptr peer peer' (.free i now peerFailed)) (hfails : peer.fails ≠ 0)
    (hrevived : peer'.fails = 0) : ∃ s, w.sessions[i]? = some s ∧ s.us = us ∧ s.holds = some ptr ∧
      peer.accessed < peer.checked := by
  cases h with
  | kept hrecord => exact absurd hrevived ((RrPeer.record_eq_iff.mp hrecord).1 ▸ hfails)
  | @freed _ _ _ s session upstream holds hrecord =>
    refine ⟨s,session,upstream,holds,?_⟩
    have hcleared := (RrPeer.record_eq_iff.mp hrecord).1.symm.trans hrevived
    cases peerFailed with
    | true => exact absurd hcleared (Nat.succ_ne_zero peer.fails)
    | false =>
      rw [account_succeeded] at hcleared
      split_ifs at hcleared with hlt
      · exact hlt
      · exact absurd hcleared hfails

variable {pcalloc : κ → ℕ → Bool} {resolve : String → ℕ → Option (List UpstreamAddr)}
  {conf : κ → UpstreamSrvConf}

/-- The clock only restricts the runs. -/
theorem Timed.reachable_world {t : Timed κ} (h : (timed pcalloc resolve conf).Reachable t) :
    (balancing pcalloc resolve conf).Reachable t.world := by
  refine h.invariant (I := fun t => (balancing pcalloc resolve conf).Reachable t.world) (fun _ hinit => .init hinit)
    fun t a t' _ ih hstep => ?_
  have hworld : (balancing pcalloc resolve conf).step t.world a t'.world := (Timed.step_inv hstep).2.1
  exact ih.step hworld

/-- The run lemma. -/
theorem Timed.reachable_dated {t : Timed κ} (h : ((timed pcalloc resolve conf).restrict Timed.Settled).Reachable t)
    (us : κ) (ptr : PeerPtr) : ∀ g peer, (t.world.ups us).group ptr.1 = some g → g.single = false →
      (t.world.ups us).peerAt ptr = some peer → peer.fails ≠ 0 → t.Dated us ptr peer := by
  refine h.invariant (I := fun t => ∀ g peer, (t.world.ups us).group ptr.1 = some g → g.single = false →
    (t.world.ups us).peerAt ptr = some peer → peer.fails ≠ 0 → t.Dated us ptr peer) ?_ ?_
  · intro t hinit g peer hg _ hpeer hfails
    have hbuilt := initRoundRobin_wellBuilt (hinit.2 us)
    have hmem : peer ∈ g.peer := List.mem_of_getElem? (by simpa [Upstream.peerAt,hg] using hpeer : g.peer[ptr.2]? = _)
    exact absurd ((hbuilt.group hg).fresh peer hmem).2.2.2.1 hfails
  · rintro t a t' hreach ih ⟨hsettled,hstep⟩ g' peer' hg' hseveral hpeer' hfails
    have hacc := reachable_accounted (Timed.reachable_world hreach.of_restrict)
    obtain ⟨g,hg,hshape⟩ := (World.step_sameShape hacc (Timed.step_inv hstep).2.1 us).group hg'
    have hsingle := (RrPeers.shape_eq_iff.mp hshape).2.2.1.symm.trans hseveral
    exact .step hacc hstep hsettled hg hsingle (fun peer => ih g peer hg hsingle) hpeer' hfails

/-- In every run in which a failed peer is checked again only after the requests from before the failure have
been freed, a release revives a peer only when its request was selected after the failure. -/
theorem revived_by_newer {t t' : Timed κ} {i : ℕ} {now : ℤ} {peerFailed : Bool}
    (h : ((timed pcalloc resolve conf).restrict Timed.Settled).Reachable t)
    (hstep : t.step (.free i now peerFailed) = some t') : t.RevivesNewer i t' := by
  intro us ptr g peer peer' hg hseveral hpeer hpeer' hfails hrevived
  have hacc := reachable_accounted (Timed.reachable_world h.of_restrict)
  obtain ⟨other,hother,hrecords⟩ := World.step_rerecords hacc (Timed.step_inv hstep).2.1 hg hseveral hpeer'
  cases hpeer.symm.trans hother
  obtain ⟨s,hs,hus,hholds,hlt⟩ := hrecords.revived hfails hrevived
  have hnewer := (Timed.reachable_dated h us ptr g peer hg hseveral hpeer hfails).newer hlt
  exact ⟨s,hs,hus,hholds,Timed.newerThan_iff.mp hnewer i s hs hus hholds⟩

/-! ### The condition is exact -/

/-- A successful release of a failed peer that has been checked after its last failure revives it. -/
theorem Timed.free_revives {t : Timed κ} (hacc : Accounted t.world) {j : ℕ} {s : Session κ} {ptr : PeerPtr}
    {g : RrPeers} {peer : RrPeer} (hj : t.world.sessions[j]? = some s) (hholds : s.holds = some ptr)
    (hg : (t.world.ups s.us).group ptr.1 = some g) (hseveral : g.single = false)
    (hpeer : (t.world.ups s.us).peerAt ptr = some peer) (hlt : peer.accessed < peer.checked) :
    ∃ t' peer', t.step (.free j t.clock false) = some t' ∧ (t'.world.ups s.us).peerAt ptr = some peer' ∧
      peer'.fails = 0 := by
  have hmem := List.mem_of_getElem? hj
  obtain ⟨⟨u,req⟩,hcall⟩ := freeRoundRobinPeer_returns hacc hmem hholds t.clock false
  obtain ⟨hcur,hpeers,-⟩ := hacc.held s hmem ptr hholds
  obtain ⟨-,hshape,-⟩ := freeRoundRobinPeer_effect hcur hcall
  obtain ⟨peer',hpeer'⟩ := hshape.peerAt hpeer
  have hstep : t.world.step (.free j t.clock false) = some (t.world.update s.us u j (s.released req)) := by
    simp [World.step,hj,hholds,hcall]
  refine ⟨⟨t.world.update s.us u j (s.released req),t.clock,t.since⟩,peer',
    by simp [Timed.step,Action.now?,hstep,Timed.noted],by simpa [World.update] using hpeer',?_⟩
  obtain ⟨other,hother,⟨-,hne⟩ | ⟨-,hrecord⟩⟩ := freeRoundRobinPeer_record hcur hpeers hcall hg hseveral hpeer'
  · exact absurd rfl hne
  · cases hpeer.symm.trans hother
    rw [account_succeeded,if_pos hlt] at hrecord
    exact (RrPeer.record_eq_iff.mp hrecord).1

/-- After a step that breaks the condition, some request from before the failure can revive the peer at once. -/
theorem unsettled_revives_older {t t₁ : Timed κ} {a : Action κ} (h : (timed pcalloc resolve conf).Reachable t)
    (hstep : t.step a = some t₁) (hunsettled : ¬ t.Settled a) :
    ∃ j t₂, t₁.step (.free j t₁.clock false) = some t₂ ∧ ¬ t₁.RevivesNewer j t₂ := by
  have hacc := reachable_accounted (Timed.reachable_world h)
  obtain ⟨-,hworld,-,hsince⟩ := Timed.step_inv hstep
  have hacc₁ := hacc.step hworld
  simp only [Timed.Settled,not_forall] at hunsettled
  obtain ⟨⟨us,ptr,time⟩,hrecheck,hold⟩ := hunsettled
  obtain ⟨i,balancer,now,s,u,req,g,peer,rfl,hi,rfl,hcall,hcur,hg,hseveral,hpeer,hfails,hcheck,hlater,rfl⟩ :=
    World.recheck?_eq_some.mp hrecheck
  have hold : ¬ t.NewerThan s.us ptr peer.accessed := hold
  rw [Timed.newerThan_iff] at hold
  push Not at hold
  obtain ⟨j,holder,hj,hus,hholds,hsince'⟩ := hold
  obtain ⟨_,_,_,_,ha,-⟩ | ⟨_,_,_,s',rc,u',req',ha,hi',hidle,hcall',hafter⟩ | ⟨_,_,_,_,_,_,_,ha,-⟩ :=
    World.step_cases hworld
  · cases ha
  · cases ha
    cases hi.symm.trans hi'
    cases hcall.symm.trans hcall'
    have hij : i ≠ j := by
      rintro rfl
      cases hi.symm.trans hj
      exact absurd (hidle.symm.trans hholds) (by simp)
    have hj₁ : t₁.world.sessions[j]? = some holder := by
      rw [hafter]
      simpa [World.update,List.getElem?_set_ne hij] using hj
    -- the check leaves the failure in place and stores a newer check time
    have hshape := World.step_sameShape hacc hworld s.us
    obtain ⟨peer₁,hpeer₁⟩ := hshape.peerAt hpeer
    obtain ⟨g₁,hg₁,hsame⟩ := hshape.symm.group hg
    have hpicked := (balancer.picking now _ _ _ _ _ hcall).record hg hseveral
      (by simpa [hafter,World.update] using hpeer₁)
    obtain ⟨other,hother,⟨-,hnot⟩ | ⟨-,-,hrecord⟩⟩ := hpicked
    · exact absurd ⟨rfl,hcur⟩ hnot
    cases hpeer.symm.trans hother
    obtain ⟨hfails₁,haccessed₁,hchecked₁⟩ := RrPeer.record_eq_iff.mp hrecord
    have hfails₁ : peer₁.fails = peer.fails := hfails₁
    have haccessed₁ : peer₁.accessed = peer.accessed := haccessed₁
    have hchecked₁ : peer₁.checked = now := by simpa [RrPeer.touch,hcheck] using hchecked₁
    have hseveral₁ := (RrPeers.shape_eq_iff.mp hsame).2.2.1.symm.trans hseveral
    rw [← hus] at hpeer₁ hg₁
    obtain ⟨t₂,peer₂,hfree,hpeer₂,hcleared⟩ :=
      Timed.free_revives hacc₁ hj₁ hholds hg₁ hseveral₁ hpeer₁ (by rw [haccessed₁,hchecked₁]; exact hlater)
    refine ⟨j,t₂,hfree,fun hnewer => ?_⟩
    obtain ⟨-,-,-,-,hlt⟩ :=
      hnewer _ ptr g₁ peer₁ peer₂ hg₁ hseveral₁ hpeer₁ hpeer₂ (hfails₁ ▸ hfails) hcleared
    have hkept : t₁.since j = t.since j := by
      rw [hsince]
      exact Function.update_of_ne (Ne.symm hij) _ _
    omega
  · cases ha

/-! ### Runs on one server with a backup -/

def pairConf : UpstreamSrvConf := ⟨some [noteServer 1 false,noteServer 1 true],"backend",0⟩

def pairUpstream : Upstream where
  primary := ⟨1,1,false,false,"backend",fillPeers false [noteServer 1 false]⟩
  backup := some ⟨1,1,false,false,"backend",fillPeers true [noteServer 1 true]⟩

lemma initRoundRobin_pair : initRoundRobin (fun _ => true) (fun _ _ => none) pairConf = .ok pairUpstream := by decide

/-- The server fails, and is checked by a second request. -/
def renewedActions : List (Action Unit) :=
  [.init () true [],.select 0 .roundRobin 0,.free 0 1 true,.init () true [],.select 1 .roundRobin 12]

theorem revived_by_newer_pair : ∃ t t' : Timed Unit,
    ((timed (fun _ _ => true) (fun _ _ => none) fun _ => pairConf).restrict Timed.Settled).Reachable t ∧
      t.step (.free 1 12 false) = some t' ∧ ((t.world.ups ()).peerAt (.primary,0)).map (·.record) = some (1,1,12) ∧
      ((t'.world.ups ()).peerAt (.primary,0)).map (·.record) = some (0,1,12) ∧ t.RevivesNewer 1 t' := by
  obtain ⟨t,ht⟩ : ∃ t, replay (fun t a => if t.Settled a then Timed.step t a else none)
    ⟨⟨fun _ => pairUpstream,[]⟩,0,fun _ => 0⟩ renewedActions = some t := ⟨_,rfl⟩
  have hreach : ((timed (fun _ _ => true) (fun _ _ => none) fun _ => pairConf).restrict Timed.Settled).Reachable t :=
    .of_guarded_replay (.init ⟨rfl,fun _ => initRoundRobin_pair⟩) ht
  obtain ⟨t',ht'⟩ : ∃ t', t.step (.free 1 12 false) = some t' := by cases ht; exact ⟨_,rfl⟩
  have hrevives := revived_by_newer hreach ht'
  cases ht
  cases ht'
  exact ⟨_,_,hreach,rfl,rfl,rfl,hrevives⟩

/-- Two requests hold the server when one of them fails; a third one checks the server again. -/
def staleActions : List (Action Unit) :=
  [.init () true [],.select 0 .roundRobin 0,.init () true [],.select 1 .roundRobin 0,.free 1 1 true,
    .init () true [],.select 2 .roundRobin 12]

/-- The request that was selected before the failure revives the server. -/
theorem older_success_revives : ∃ t t' : Timed Unit,
    (timed (fun _ _ => true) (fun _ _ => none) fun _ => pairConf).Reachable t ∧
      t.step (.free 0 12 false) = some t' ∧ ((t.world.ups ()).peerAt (.primary,0)).map (·.record) = some (1,1,12) ∧
      ((t'.world.ups ()).peerAt (.primary,0)).map (·.record) = some (0,1,12) ∧ t.since 0 = 0 ∧
      ¬ t.RevivesNewer 0 t' := by
  obtain ⟨t,ht⟩ : ∃ t, replay Timed.step ⟨⟨fun _ => pairUpstream,[]⟩,0,fun _ => 0⟩ staleActions = some t := ⟨_,rfl⟩
  have hreach : (timed (fun _ _ => true) (fun _ _ => none) fun _ => pairConf).Reachable t :=
    .of_replay (.init ⟨rfl,fun _ => initRoundRobin_pair⟩) ht
  cases ht
  refine ⟨_,_,hreach,rfl,rfl,rfl,rfl,fun h => ?_⟩
  obtain ⟨s,-,-,-,hlt⟩ := h () (.primary,0) _ _ _ rfl rfl rfl rfl (by decide) rfl
  exact absurd hlt (by decide)

end InsideNginx.HttpUpstream
