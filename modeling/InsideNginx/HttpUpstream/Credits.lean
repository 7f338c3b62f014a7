import InsideNginx.HttpUpstream.Connections
import InsideNginx.HttpUpstream.Picked

/-! The balancing credits over whole runs, in which peers also go down and come back at any
time: what the current weights gain in a selection is paid back in it, and an effective weight
stays between zero and the weight. -/
namespace InsideNginx.HttpUpstream

/-- One group is in balance. -/
structure RrPeers.Credited (g : RrPeers) : Prop where
  sum : creditSum g.peer = 0
  bounded : ∀ peer ∈ g.peer, 0 ≤ peer.effectiveWeight ∧ peer.effectiveWeight ≤ peer.weight

def Upstream.Credited (u : Upstream) : Prop := ∀ ptr g, u.group ptr = some g → g.Credited

/-- Store the peers of a group whose credits and bounds are kept. -/
theorem Upstream.Credited.store {u : Upstream} {ptr : PeersPtr} {g : RrPeers} {peers : List RrPeer}
    (h : u.Credited) (hg : u.group ptr = some g) (hsum : creditSum peers = creditSum g.peer)
    (hbounded : ∀ peer ∈ peers, 0 ≤ peer.effectiveWeight ∧ peer.effectiveWeight ≤ peer.weight) :
    (u.store ptr peers).Credited := by
  intro other g' hg'
  by_cases ho : other = ptr
  · subst ho
    rw [Upstream.group_store hg] at hg'
    cases hg'
    exact ⟨hsum.trans (h _ g hg).sum,hbounded⟩
  · rw [Upstream.group_store_ne ho] at hg'
    exact h other g' hg'

/-- A change of one peer that leaves its credit and its bounds. -/
theorem Upstream.Credited.modify {u : Upstream} {ptr : PeersPtr} {g : RrPeers} {f : RrPeer → RrPeer}
    (h : u.Credited) (hg : u.group ptr = some g) (p : ℕ)
    (hcredit : ∀ peer, (f peer).currentWeight = peer.currentWeight)
    (hbounded : ∀ peer : RrPeer, 0 ≤ peer.effectiveWeight ∧ peer.effectiveWeight ≤ peer.weight →
      0 ≤ (f peer).effectiveWeight ∧ (f peer).effectiveWeight ≤ (f peer).weight) :
    (u.store ptr (g.peer.modify p f)).Credited := by
  refine h.store hg (by simp only [creditSum,map_modify_eq _ f hcredit]) fun peer' hp => ?_
  obtain ⟨i,hi⟩ := List.mem_iff_getElem?.mp hp
  rw [List.getElem?_modify] at hi
  obtain ⟨peer,hpeer,rfl⟩ := Option.map_eq_some_iff.mp hi
  have hb := (h ptr g hg).bounded peer (List.mem_of_getElem? hpeer)
  by_cases hip : p = i
  · simpa [hip] using hbounded peer hb
  · simpa [hip] using hb

theorem Picked.credited {now : ℤ} {u u' : Upstream} {rc : Rc} {current : Option PeerPtr}
    (h : Picked now u rc u' current) (hu : u.Credited) : u'.Credited := by
  cases h with
  | busy => exact hu
  | @ok ptr g p peers group picks =>
    refine hu.store group picks.credits fun peer' hp => ?_
    obtain ⟨i,hi⟩ := List.mem_iff_getElem?.mp hp
    obtain ⟨peer,hpeer,hk⟩ := picks.kept i peer' hi
    have hb := (hu _ g group).bounded peer (List.mem_of_getElem? hpeer)
    have hweight : peer'.weight = peer.weight := congrArg Prod.fst hk.config
    have hle := hk.bounded hb.2
    have hge := hk.recovers
    omega

/-- A failure takes a share of the weight away, down to zero. -/
theorem account_bounded {peer : RrPeer} (now : ℤ) (peerFailed : Bool)
    (h : 0 ≤ peer.effectiveWeight ∧ peer.effectiveWeight ≤ peer.weight) :
    0 ≤ (peer.account now peerFailed).effectiveWeight ∧
      (peer.account now peerFailed).effectiveWeight ≤ (peer.account now peerFailed).weight := by
  have hshare : 0 ≤ peer.weight/(peer.maxFails : ℤ) :=
    Int.ediv_nonneg (h.1.trans h.2) (Int.natCast_nonneg _)
  unfold RrPeer.account
  split_ifs <;> (try dsimp only) <;> omega

theorem credit_account (peer : RrPeer) (now : ℤ) (peerFailed : Bool) :
    (peer.account now peerFailed).currentWeight = peer.currentWeight := by
  unfold RrPeer.account; split_ifs <;> rfl

theorem freeRoundRobinPeer_credited {now : ℤ} {peerFailed : Bool} {u u' : Upstream} {r r' : Request}
    (h : freeRoundRobinPeer now peerFailed u r = .ok (u',r')) (hu : u.Credited) : u'.Credited := by
  obtain ⟨ptr,g,peers,-,hg,-,-,-,rfl⟩ := freeRoundRobinPeer_ok h
  refine hu.modify hg ptr.2 (fun peer => ?_) fun peer hb => ?_
  · cases peers.single
    · exact credit_account peer now peerFailed
    · rfl
  · cases peers.single
    · exact account_bounded now peerFailed hb
    · exact hb

/-! ### Runs -/

/-- Set `down` of a peer. -/
def Upstream.setDown (u : Upstream) (ptr : PeerPtr) (down : Bool) : Upstream :=
  match u.group ptr.1 with
  | none => u
  | some g => u.store ptr.1 (g.peer.modify ptr.2 fun peer => { peer with down := down })

theorem Upstream.Credited.setDown {u : Upstream} (h : u.Credited) (ptr : PeerPtr) (down : Bool) :
    (u.setDown ptr down).Credited := by
  unfold Upstream.setDown
  cases hg : u.group ptr.1 with
  | none => exact h
  | some g => exact h.modify hg ptr.2 (fun _ => rfl) fun _ hb => hb

/-- A request acts, or a peer goes down or comes back. -/
inductive Event (κ : Type)
  | request (a : Action κ)
  | setDown (us : κ) (ptr : PeerPtr) (down : Bool)
  deriving DecidableEq, Repr

variable {κ : Type} [DecidableEq κ]

def World.event (w : World κ) : Event κ → Option (World κ)
  | .request a => w.step a
  | .setDown us ptr down => some { w with ups := Function.update w.ups us ((w.ups us).setDown ptr down) }

/-- The balancing system with peers that go down and come back. -/
def faltering (pcalloc : κ → ℕ → Bool) (resolve : String → ℕ → Option (List UpstreamAddr))
    (conf : κ → UpstreamSrvConf) : TransitionSystem (World κ) (Event κ) :=
  .ofFunction (balancing pcalloc resolve conf).init World.event

theorem World.step_credited {w w' : World κ} {a : Action κ} (hstep : w.step a = some w')
    (h : ∀ us, (w.ups us).Credited) (us : κ) : (w'.ups us).Credited := by
  refine World.step_ups (P := fun _ u u' => u.Credited → u'.Credited) hstep (fun _ hu => hu) ?_ ?_ us (h us)
  · exact fun i balancer now s rc u req _ _ hcall hu => (balancer.picking now _ _ _ _ _ hcall).credited hu
  · exact fun i now peerFailed s ptr u req _ _ _ hcall hu => freeRoundRobinPeer_credited hcall hu

theorem World.event_credited {w w' : World κ} {e : Event κ} (hstep : w.event e = some w')
    (h : ∀ us, (w.ups us).Credited) (us : κ) : (w'.ups us).Credited := by
  cases e with
  | request a => exact World.step_credited hstep h us
  | setDown other ptr down =>
    cases hstep
    by_cases hus : us = other
    · subst hus; simpa using (h us).setDown ptr down
    · simpa [hus] using h us

variable {pcalloc : κ → ℕ → Bool} {resolve : String → ℕ → Option (List UpstreamAddr)}
  {conf : κ → UpstreamSrvConf}

theorem RrPeers.WellBuilt.credited {g : RrPeers} (h : g.WellBuilt) : g.Credited where
  sum := List.sum_eq_zero fun c hc => by
    obtain ⟨peer,hp,rfl⟩ := List.mem_map.mp hc
    exact (h.fresh peer hp).1
  bounded peer hp := by
    obtain ⟨-,heffective,-⟩ := h.fresh peer hp
    have := h.weight_nonneg peer hp
    omega

theorem Upstream.WellBuilt.credited {u : Upstream} (h : u.WellBuilt) : u.Credited :=
  fun _ _ hg => (h.group hg).credited

/-- Balancing credits are conserved: in every reachable state the current weights of a group sum
to zero, and no effective weight leaves its range. -/
theorem credits_conserved {w : World κ} (h : (faltering pcalloc resolve conf).Reachable w) (us : κ)
    {ptr : PeersPtr} {g : RrPeers} (hg : (w.ups us).group ptr = some g) :
    (g.peer.map (·.currentWeight)).sum = 0 ∧
      ∀ peer ∈ g.peer, 0 ≤ peer.effectiveWeight ∧ peer.effectiveWeight ≤ peer.weight := by
  have hall : ∀ us, (w.ups us).Credited := by
    refine h.invariant (I := fun w => ∀ us, (w.ups us).Credited) (fun w hinit us => ?_) fun w e w' _ ih hstep => ?_
    · exact (initRoundRobin_wellBuilt (hinit.2 us)).credited
    · exact World.event_credited hstep ih
  exact ⟨(hall us ptr g hg).sum,(hall us ptr g hg).bounded⟩

/-- Two requests on the upstream of the load balancing note, one of which finds its first peer
down. -/
theorem credits_conserved_note : ∃ w : World Unit,
    (faltering (fun _ _ => true) (fun _ _ => none) fun _ => noteConf).Reachable w ∧
      ((w.ups ()).primary.peer.map (·.currentWeight)).sum = 0 ∧
      ((w.ups ()).primary.peer.map (·.currentWeight)) ≠ (noteUpstream.primary.peer.map (·.currentWeight)) := by
  obtain ⟨w,hw⟩ : ∃ w, TransitionSystem.replay World.event ⟨fun _ => noteUpstream,[]⟩
    [.request (.init () true []),.request (.select 0 .roundRobin 0),.setDown () (.primary,0) true,
      .request (.init () true []),.request (.select 1 .leastConn 1)] = some w := ⟨_,rfl⟩
  have hreach : (faltering (fun _ _ => true) (fun _ _ => none) fun _ => noteConf).Reachable w :=
    TransitionSystem.Reachable.of_replay (.init ⟨rfl,fun _ => initRoundRobin_note⟩) hw
  have hsum := (credits_conserved hreach () (rfl : (w.ups ()).group .primary = some (w.ups ()).primary)).1
  refine ⟨w,hreach,hsum,?_⟩
  cases hw
  decide

end InsideNginx.HttpUpstream
