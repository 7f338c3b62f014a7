import InsideNginx.HttpUpstream.Eligibility
import InsideNginx.HttpUpstream.Picked

/-! How often a disabled peer is probed: a peer with `max_fails` failures is selected at most
once per `fail_timeout`, whatever the requests do in the meantime. -/
namespace InsideNginx.HttpUpstream
open TransitionSystem
variable {κ : Type} [DecidableEq κ]

/-- The time of a call. -/
def Action.now? : Action κ → Option ℤ
  | .init _ _ _ => none
  | .select _ _ now => some now
  | .free _ now _ => some now

/-- The clock does not go back along a run. -/
def ClockMonotone (moves : List (Move (World κ) (Action κ))) : Prop :=
  (moves.filterMap (·.label.now?)).Pairwise (· ≤ ·)

/-- A move in which some request gets the peer at the given time. -/
def Gets (us : κ) (ptr : PeerPtr) (now : ℤ) (m : Move (World κ) (Action κ)) : Prop :=
  ∃ (i : ℕ) (balancer : Balancer) (s s' : Session κ), m.label = .select i balancer now ∧
    m.before.sessions[i]? = some s ∧ m.after.sessions[i]? = some s' ∧ s.us = us ∧ s'.got = s.got ++ [ptr]

/-! ### One step -/

/-- A call at time `now` leaves a check time alone or stores the time. -/
def Rechecks (now : ℤ) (u u' : Upstream) : Prop :=
  ∀ ptr peer', u'.peerAt ptr = some peer' → ∃ peer, u.peerAt ptr = some peer ∧
    peer'.config = peer.config ∧ (peer'.checked = peer.checked ∨ peer'.checked = now)

theorem Rechecks.refl (now : ℤ) (u : Upstream) : Rechecks now u u :=
  fun _ peer' h => ⟨peer',h,rfl,.inl rfl⟩

theorem Rechecks.store {now : ℤ} {u : Upstream} {ptr : PeersPtr} {g : RrPeers} {peers : List RrPeer}
    (hg : u.group ptr = some g)
    (h : ∀ (i : ℕ) (peer' : RrPeer), peers[i]? = some peer' → ∃ peer : RrPeer, g.peer[i]? = some peer ∧
      peer'.config = peer.config ∧ (peer'.checked = peer.checked ∨ peer'.checked = now)) :
    Rechecks now u (u.store ptr peers) := by
  intro q peer' hp
  rw [Upstream.peerAt_store hg] at hp
  split at hp
  · rename_i hq
    obtain ⟨peer,hpeer,hc⟩ := h q.2 peer' hp
    exact ⟨peer,by simpa [Upstream.peerAt,hq,hg] using hpeer,hc⟩
  · exact ⟨peer',hp,rfl,.inl rfl⟩

theorem checked_touch (peer : RrPeer) (now : ℤ) :
    (peer.touch now).checked = peer.checked ∨ (peer.touch now).checked = now := by
  simp only [RrPeer.touch]
  split
  · exact .inr rfl
  · exact .inl rfl

theorem checked_account (peer : RrPeer) (now : ℤ) (peerFailed : Bool) :
    (peer.account now peerFailed).checked = peer.checked ∨
      (peer.account now peerFailed).checked = now := by
  unfold RrPeer.account
  split_ifs <;> simp

theorem Picked.rechecks {now : ℤ} {u u' : Upstream} {rc : Rc} {current : Option PeerPtr}
    (h : Picked now u rc u' current) : Rechecks now u u' := by
  cases h with
  | busy => exact .refl now u
  | @ok ptr g p peers group picks =>
    refine .store group fun i peer' hi => ?_
    obtain ⟨peer,hpeer,hk⟩ := picks.kept i peer' hi
    refine ⟨peer,hpeer,hk.config,?_⟩
    by_cases hc : g.single = false ∧ i = p
    · rw [hk.touched hc]; exact checked_touch peer now
    · exact .inl (hk.untouched hc)

theorem freeRoundRobinPeer_rechecks {now : ℤ} {peerFailed : Bool} {u u' : Upstream} {r r' : Request} {ptr : PeerPtr}
    (hcur : r.rrp.current = some ptr) (h : freeRoundRobinPeer now peerFailed u r = .ok (u',r')) : Rechecks now u u' := by
  obtain ⟨peers,-,hat⟩ := freeRoundRobinPeer_peerAt hcur h
  intro q peer' hp
  obtain ⟨peer,hpeer,rfl⟩ := Option.map_eq_some_iff.mp ((hat q).symm.trans hp)
  refine ⟨peer,hpeer,?_⟩
  split
  · refine ⟨config_freed peers.single now peerFailed peer,?_⟩
    cases peers.single
    · exact checked_account peer now peerFailed
    · exact .inl rfl
  · exact ⟨rfl,.inl rfl⟩

/-- One step of the system keeps every check time or stores its own time. -/
theorem World.step_rechecks {w w' : World κ} {a : Action κ} (hstep : w.step a = some w') (us : κ)
    {ptr : PeerPtr} {peer' : RrPeer} (hpeer' : (w'.ups us).peerAt ptr = some peer') :
    ∃ peer, (w.ups us).peerAt ptr = some peer ∧ peer'.config = peer.config ∧
      (peer'.checked = peer.checked ∨ a.now? = some peer'.checked) := by
  refine World.step_ups (P := fun _ u u' => ∀ ptr peer', u'.peerAt ptr = some peer' → ∃ peer, u.peerAt ptr = some peer ∧
    peer'.config = peer.config ∧ (peer'.checked = peer.checked ∨ a.now? = some peer'.checked)) hstep
    (fun _ _ peer' hpeer' => ⟨peer',hpeer',rfl,.inl rfl⟩) ?_ ?_ us ptr peer' hpeer'
  · rintro i balancer now s rc u req rfl hi hcall ptr peer' hpeer'
    obtain ⟨peer,hpeer,hc,hchecked⟩ := (balancer.picking now _ _ _ _ _ hcall).rechecks ptr peer' hpeer'
    exact ⟨peer,hpeer,hc,hchecked.imp_right fun h => congrArg some h.symm⟩
  · rintro i now peerFailed s cur u req rfl hi hholds hcall ptr peer' hpeer'
    obtain ⟨cur,-,-,hcur,-⟩ := freeRoundRobinPeer_ok hcall
    obtain ⟨peer,hpeer,hc,hchecked⟩ := freeRoundRobinPeer_rechecks hcur hcall ptr peer' hpeer'
    exact ⟨peer,hpeer,hc,hchecked.imp_right fun h => congrArg some h.symm⟩

/-- The peer that a selection returns could serve. -/
theorem Served.canServe {now : ℤ} {u u' : Upstream} {rrp rrp' : RrPeerData} {ptr : PeerPtr}
    (h : Served now u rrp .ok u' rrp') (hcur : rrp'.current = some ptr) :
    ∃ g tried peer, u.group ptr.1 = some g ∧ g.peer[ptr.2]? = some peer ∧
      g.canServe now tried ptr.2 peer = true := by
  cases h with
  | here group chosen took =>
    obtain ⟨peer,hp,hs⟩ := chosen.canServe
    cases hcur.symm.trans took.current
    exact ⟨_,_,peer,group,hp,hs⟩
  | next group exhausted hnext switched chosen took =>
    obtain ⟨peer,hp,hs⟩ := chosen.canServe
    cases hcur.symm.trans took.current
    exact ⟨_,_,peer,switched.peers ▸ (Upstream.next_eq_some hnext).2,hp,hs⟩

/-- What a selection tells about the peer it returns, in a group of several peers. -/
structure Probed (now : ℤ) (peer peer' : RrPeer) : Prop where
  available : peer.unavailable now = false
  config : peer'.config = peer.config
  fails : peer'.fails = peer.fails
  checked : peer'.checked = (peer.touch now).checked

theorem Gets.probed {m : Move (World κ) (Action κ)} {us : κ} {ptr : PeerPtr} {now : ℤ} {g : RrPeers}
    (h : Gets us ptr now m) (hacc : Accounted m.before) (hstep : m.before.step m.label = some m.after)
    (hg : (m.before.ups us).group ptr.1 = some g) (hs : g.single = false) :
    ∃ peer peer', (m.before.ups us).peerAt ptr = some peer ∧ (m.after.ups us).peerAt ptr = some peer' ∧
      Probed now peer peer' := by
  obtain ⟨i,balancer,s,s',hlabel,hi,hi',rfl,hgot⟩ := h
  rw [hlabel] at hstep
  obtain ⟨us,pcalloc,addr,req,ha,-⟩ | ⟨j,other,time,t,rc,u,req,ha,hj,hidle,hcall,hafter⟩ |
    ⟨j,time,peerFailed,t,q,u,req,ha,-⟩ := World.step_cases hstep
  · cases ha
  · cases ha
    cases hi.symm.trans hj
    have hlt : i < m.before.sessions.length := (List.getElem?_eq_some_iff.mp hi).1
    rw [hafter] at hi' ⊢
    obtain rfl : s.selected rc req = s' := by simpa [World.update,hlt] using hi'
    cases rc with
    | busy => simp [Session.selected] at hgot
    | ok =>
      have hcur : req.rrp.current = some ptr := by
        cases hc : req.rrp.current with
        | none => simp [Session.selected,hc] at hgot
        | some q => simpa [Session.selected,hc] using hgot
      have hmem := List.mem_of_getElem? hi
      obtain ⟨gs,hgs⟩ := hacc.group s hmem
      obtain ⟨g₁,tried,peer,hg₁,hp,hserve⟩ :=
        (Balancer.served (hacc.sound s.us) (hacc.covers s hmem) hgs hcall).canServe hcur
      cases hg.symm.trans hg₁
      have hpicked := balancer.picking now _ _ _ _ _ hcall
      rw [hcur] at hpicked
      cases hpicked with
      | @ok _ g₂ p peers group picks =>
        cases hg.symm.trans group
        have hlen : p < peers.length := picks.length ▸ (List.getElem?_eq_some_iff.mp hp).1
        obtain ⟨peer₂,hpeer₂,hk⟩ := picks.kept p peers[p] (List.getElem?_eq_getElem hlen)
        cases hp.symm.trans hpeer₂
        refine ⟨peer,peers[p],by simpa [Upstream.peerAt,hg] using hp,?_,?_⟩
        · simp [World.update,Upstream.peerAt,Upstream.group_store hg,hlen]
        · rw [eligible_of_several hs] at hserve
          obtain ⟨-,-,havailable,-⟩ := eligible_eq_true.mp hserve
          exact ⟨havailable,hk.config,hk.fails,hk.touched ⟨hs,rfl⟩⟩
  · cases ha

/-! ### Runs -/

variable {pcalloc : κ → ℕ → Bool} {resolve : String → ℕ → Option (List UpstreamAddr)}
  {conf : κ → UpstreamSrvConf}

/-- Every state of a run has the shape of the upstream it started from. -/
theorem run_sameShape {w w' : World κ} {moves : List (Move (World κ) (Action κ))}
    (hw : (balancing pcalloc resolve conf).Reachable w)
    (hrun : (balancing pcalloc resolve conf).Run w moves w') (us : κ) :
    (w.ups us).SameShape (w'.ups us) := by
  induction hrun with
  | nil => exact .refl _
  | cons hstep _ ih =>
    exact (World.step_sameShape (reachable_accounted hw) hstep us).trans (ih (hw.step hstep))

/-- From a time `t` on, a check time that is not older than `t` stays so. -/
theorem run_checked {w w' : World κ} {moves : List (Move (World κ) (Action κ))}
    (hrun : (balancing pcalloc resolve conf).Run w moves w') {t : ℤ}
    (hclock : ∀ m ∈ moves, ∀ now, m.label.now? = some now → t ≤ now) (us : κ) (ptr : PeerPtr)
    (hw : ∀ peer, (w.ups us).peerAt ptr = some peer → t ≤ peer.checked) :
    ∀ peer, (w'.ups us).peerAt ptr = some peer → t ≤ peer.checked := by
  refine hrun.invariant (I := fun w => ∀ peer, (w.ups us).peerAt ptr = some peer → t ≤ peer.checked)
    (P := fun m => ∀ now, m.label.now? = some now → t ≤ now) (fun m hm hstep ih peer' hpeer' => ?_) hclock hw
  obtain ⟨peer,hpeer,-,hchecked | hnow⟩ := World.step_rechecks hstep us hpeer'
  · exact hchecked ▸ ih peer hpeer
  · exact hm _ hnow

/-- The configuration of a peer is the same all along. -/
theorem Upstream.SameShape.config {u u' : Upstream} (h : u.SameShape u') {ptr : PeerPtr}
    {peer peer' : RrPeer} (hpeer : u.peerAt ptr = some peer) (hpeer' : u'.peerAt ptr = some peer') :
    peer'.config = peer.config := by
  obtain ⟨g',hg',hi'⟩ := Option.bind_eq_some_iff.mp hpeer'
  obtain ⟨g,hg,hshape⟩ := h.group hg'
  have hi : g.peer[ptr.2]? = some peer := by simpa [Upstream.peerAt,hg] using hpeer
  obtain ⟨other,hother,hc⟩ := config_getElem? (RrPeers.shape_eq_iff.mp hshape).2.2.2.2.2 hi'
  cases hi.symm.trans hother
  exact hc

/-- An available peer with `max_fails` failures was checked more than `fail_timeout` ago. -/
theorem checked_of_available {peer : RrPeer} {now : ℤ} (h : peer.unavailable now = false)
    (hmax : 0 < peer.maxFails) (hfails : peer.maxFails ≤ peer.fails) :
    peer.failTimeout < now - peer.checked := by
  simp only [RrPeer.unavailable,Bool.and_eq_false_iff,bne_eq_false_iff_eq,decide_eq_false_iff_not] at h
  omega

omit [DecidableEq κ] in
lemma clock_after {before between : List (Move (World κ) (Action κ))} {first : Move (World κ) (Action κ)}
    {t : ℤ} (hfirst : first.label.now? = some t) (hclock : ClockMonotone (before ++ first::between)) :
    ∀ m ∈ between, ∀ now, m.label.now? = some now → t ≤ now := by
  intro m hm now hnow
  unfold ClockMonotone at hclock
  simp only [List.filterMap_append,List.filterMap_cons,hfirst] at hclock
  have htail := (List.pairwise_append.mp hclock).2.1
  exact (List.pairwise_cons.mp htail).1 now (List.mem_filterMap.mpr ⟨m,hm,hnow⟩)

/-- A disabled peer is probed at most once per `fail_timeout`: between two selections of a peer
that has `max_fails` failures all the time there is more than `fail_timeout`. -/
theorem probed_once_per_timeout {w₀ w : World κ} {before between : List (Move (World κ) (Action κ))}
    {first second : Move (World κ) (Action κ)} (hinit : (balancing pcalloc resolve conf).init w₀)
    (hrun : (balancing pcalloc resolve conf).Run w₀ (before ++ first::(between ++ [second])) w)
    (hclock : ClockMonotone (before ++ first::(between ++ [second]))) {us : κ} {ptr : PeerPtr}
    {g : RrPeers} {peer : RrPeer} (hgroup : (w₀.ups us).group ptr.1 = some g) (hseveral : g.single = false)
    (hpeer : (w₀.ups us).peerAt ptr = some peer) (hmax : 0 < peer.maxFails) {t₁ t₂ : ℤ}
    (hfirst : Gets us ptr t₁ first) (hsecond : Gets us ptr t₂ second)
    (hfails : ∀ m ∈ first::between, ∀ q, (m.after.ups us).peerAt ptr = some q → peer.maxFails ≤ q.fails) :
    peer.failTimeout < t₂ - t₁ := by
  have htime : first.label.now? = some t₁ := by
    obtain ⟨i,balancer,s,s',hlabel,-⟩ := hfirst
    rw [hlabel]; rfl
  have hafter := clock_after htime hclock
  obtain ⟨w₁,hbefore,hrest⟩ := hrun.append_inv
  have hreach₁ := hbefore.reachable (.init hinit)
  cases hrest with
  | @cons _ a t _ _ hstep₁ hrest =>
  obtain ⟨w₂,hbetween,hlast⟩ := hrest.append_inv
  have hreach₂ := hbetween.reachable (hreach₁.step hstep₁)
  cases hlast with
  | @cons _ b v _ _ hstep₂ hnil =>
  have hshape₁ := run_sameShape (.init hinit) hbefore us
  have hshape₂ := (hshape₁.trans (World.step_sameShape (reachable_accounted hreach₁) hstep₁ us)).trans
    (run_sameShape (hreach₁.step hstep₁) hbetween us)
  -- the first selection stores its time
  obtain ⟨g₁,hg₁,hsame₁⟩ := hshape₁.symm.group hgroup
  obtain ⟨q,q',hq,hq',hprobed⟩ := hfirst.probed (reachable_accounted hreach₁) hstep₁ hg₁
    ((RrPeers.shape_eq_iff.mp hsame₁).2.2.1 ▸ hseveral)
  have hconfig₁ := hshape₁.config hpeer hq
  simp only [RrPeer.config,Prod.mk.injEq] at hconfig₁
  obtain ⟨-,-,hmax₁,htimeout₁,-⟩ := hconfig₁
  have hfails₁ : q.maxFails ≤ q.fails := by
    rw [hmax₁,← hprobed.fails]
    exact hfails _ List.mem_cons_self q' hq'
  have hchecked : q'.checked = t₁ := by
    rw [hprobed.checked]
    simp only [RrPeer.touch,checked_of_available hprobed.available (hmax₁ ▸ hmax) hfails₁,if_true]
  -- until the second selection the check time does not get older
  have hkept := run_checked hbetween (fun m hm => hafter m (List.mem_append_left _ hm)) us ptr fun p hp => by
    cases hq'.symm.trans hp
    exact hchecked.ge
  obtain ⟨g₂,hg₂,hsame₂⟩ := hshape₂.symm.group hgroup
  obtain ⟨r,r',hr,hr',hprobed'⟩ := hsecond.probed (reachable_accounted hreach₂) hstep₂ hg₂
    ((RrPeers.shape_eq_iff.mp hsame₂).2.2.1 ▸ hseveral)
  have hconfig₂ := hshape₂.config hpeer hr
  simp only [RrPeer.config,Prod.mk.injEq] at hconfig₂
  obtain ⟨-,-,hmax₂,htimeout₂,-⟩ := hconfig₂
  have hfails₂ : r.maxFails ≤ r.fails := by
    rw [hmax₂]
    rcases hbetween.end_mem with rfl | ⟨m,hm,rfl⟩
    · exact hfails _ List.mem_cons_self r hr
    · exact hfails m (List.mem_cons_of_mem _ hm) r hr
  have hlate := checked_of_available hprobed'.available (hmax₂ ▸ hmax) hfails₂
  have := hkept r hr
  omega

/-- The first server of the load balancing note fails, and is probed by two requests that have
tried the second server before. -/
def probeActions : List (Action Unit) :=
  [.init () true [],.select 0 .roundRobin 0,.free 0 0 true,
    .init () true [],.select 1 .roundRobin 11,.free 1 11 false,.select 1 .roundRobin 11,
    .init () true [],.select 2 .leastConn 22,.free 2 22 false,.select 2 .leastConn 22]

def probeMoves : List (Move (World Unit) (Action Unit)) :=
  moves World.step ⟨fun _ => noteUpstream,[]⟩ probeActions

theorem probed_once_per_timeout_note : ∃ (w₀ w : World Unit) (first second : Move (World Unit) (Action Unit))
    (before between : List (Move (World Unit) (Action Unit))),
    (balancing (fun _ _ => true) (fun _ _ => none) fun _ => noteConf).Run w₀
      (before ++ first::(between ++ [second])) w ∧
      Gets () (.primary,0) 11 first ∧ Gets () (.primary,0) 22 second ∧ (10 : ℤ) < 22 - 11 := by
  obtain ⟨w,hw⟩ : ∃ w, replay World.step ⟨fun _ => noteUpstream,[]⟩ probeActions = some w := ⟨_,rfl⟩
  have hrun := Run.of_replay (balancing (fun _ _ => true) (fun _ _ => none) fun _ => noteConf).init hw
  have hsplit : moves World.step ⟨fun _ => noteUpstream,[]⟩ probeActions = probeMoves.take 6 ++
      probeMoves.get ⟨6,by decide⟩::((probeMoves.drop 7).take 3 ++ [probeMoves.get ⟨10,by decide⟩]) := rfl
  rw [hsplit] at hrun
  have hfirst : Gets () (.primary,0) 11 (probeMoves.get ⟨6,by decide⟩) :=
    ⟨1,.roundRobin,_,_,rfl,rfl,rfl,rfl,rfl⟩
  have hsecond : Gets () (.primary,0) 22 (probeMoves.get ⟨10,by decide⟩) :=
    ⟨2,.leastConn,_,_,rfl,rfl,rfl,rfl,rfl⟩
  have hclock : ClockMonotone (probeMoves.take 6 ++
      probeMoves.get ⟨6,by decide⟩::((probeMoves.drop 7).take 3 ++ [probeMoves.get ⟨10,by decide⟩])) := by
    unfold ClockMonotone; decide
  have hfailed : (probeMoves.get ⟨6,by decide⟩::(probeMoves.drop 7).take 3).all (fun m =>
      ((m.after.ups ()).peerAt (.primary,0)).all fun q => decide (1 ≤ q.fails)) = true := by decide
  have htimeout := probed_once_per_timeout (g := noteUpstream.primary) ⟨rfl,fun _ => initRoundRobin_note⟩ hrun
    hclock rfl rfl (rfl : noteUpstream.peerAt (.primary,0) = some _) (by decide) hfirst hsecond
    fun m hm q hq => (by simpa [hq] using List.all_eq_true.mp hfailed m hm : 1 ≤ q.fails)
  exact ⟨_,_,_,_,_,_,hrun,hfirst,hsecond,htimeout⟩

end InsideNginx.HttpUpstream
