import InsideNginx.HttpUpstream.Busy

/-! The weighted walk of ip_hash: every hash value belongs to one peer of the list, and a peer gets
as many residues as its weight says. -/
namespace InsideNginx.HttpUpstream

theorem weights_nonneg {peers : List RrPeer} (h : ∀ peer ∈ peers, 0 ≤ peer.weight) : ∀ x ∈ weights peers, 0 ≤ x :=
  List.forall_mem_map.mpr h

@[simp] theorem sum_take_weights (peers : List RrPeer) (p : ℕ) :
    ((weights peers).take p).sum = weightSum (peers.take p) := by
  rw [weights,← List.map_take,weightSum]

/-- The interval of the peer at position `p`. -/
theorem owns_weights_iff {peers : List RrPeer} {w : ℤ} {p : ℕ} {peer : RrPeer} (hp : peers[p]? = some peer) :
    WeightedPick.Owns (weights peers) w p ↔
      weightSum (peers.take p) ≤ w ∧ w < weightSum (peers.take p) + peer.weight := by
  have hlt : p < (weights peers).length := by simpa [weights] using (List.getElem?_eq_some_iff.mp hp).1
  have hstep : weightSum (peers.take (p+1)) = weightSum (peers.take p) + peer.weight := by
    rw [List.take_add_one,hp]
    simp
  constructor
  · intro h
    have hle := h.le
    have hless := h.lt
    rw [sum_take_weights] at hle hless
    exact ⟨hle,hstep ▸ hless⟩
  · rintro ⟨hle,hless⟩
    exact ⟨hlt,by rwa [sum_take_weights],by rwa [sum_take_weights,hstep]⟩

/-- The probe reaches a peer exactly when the pick of the residue does. -/
theorem ipHashProbe_eq_iff {g : RrPeers} (hg : g.Sound) (hw : g.totalWeight ≠ 0) {hash p : ℕ} {peer : RrPeer}
    (hp : g.peer[p]? = some peer) :
    ipHashProbe hash g = .ok (p,peer) ↔ WeightedPick.pick ((hash%g.totalWeight : ℕ) : ℤ) (weights g.peer) = some p := by
  obtain ⟨q,other,hpick,hq,hprobe⟩ := ipHashProbe_pick hg hw hash
  rw [hpick,hprobe,Option.some.injEq,Except.ok.injEq,Prod.mk.injEq]
  refine ⟨And.left,fun he => ⟨he,?_⟩⟩
  subst he
  exact Option.some.inj (hq.symm.trans hp)

/-- Weights of at least 1 and at least one address make the divisor of the hash positive. An
upstream with explicit servers does not ask the resolver. -/
theorem initRoundRobin_positive {pcalloc : ℕ → Bool} {resolve : String → ℕ → Option (List UpstreamAddr)}
    {us : UpstreamSrvConf} {u : Upstream} (h : initRoundRobin pcalloc resolve us = .ok u)
    (hservers : ∀ servers, us.servers = some servers → ∀ server ∈ servers, 1 ≤ server.weight)
    (himplicit : us.servers = none → ∀ addrs, resolve us.host us.port = some addrs → addrs ≠ [])
    {ptr : PeersPtr} {g : RrPeers} (hg : u.group ptr = some g) : g.totalWeight ≠ 0 := by
  cases hs : us.servers with
  | some servers =>
    have h' : initRoundRobin pcalloc (fun _ _ => none) us = .ok u := by
      simpa only [initRoundRobin,hs] using h
    exact initRoundRobin_totalWeight h' ⟨hservers,by simp⟩ hg
  | none => exact initRoundRobin_totalWeight h ⟨hservers,himplicit hs⟩ hg

/-! ### The intervals of the peers -/

/-- The residue falls into the interval of the peer at position `p`. -/
def RrPeers.Owns (g : RrPeers) (residue p : ℕ) : Prop :=
  ∃ peer ∈ g.peer[p]?, weightSum (g.peer.take p) ≤ residue ∧ residue < weightSum (g.peer.take p) + peer.weight

instance (g : RrPeers) (residue p : ℕ) : Decidable (g.Owns residue p) :=
  inferInstanceAs (Decidable (∃ peer ∈ g.peer[p]?, _))

/-- The walk stays in the list and partitions the hash values: it ends at the only peer whose interval contains
the residue, every residue has one owner, and a peer owns as many of them as its weight says. `w` holds
the residue as an `ngx_int_t`. -/
structure RrPeers.Partitioned (g : RrPeers) : Prop where
  walk : ∀ hash < 2^63, ∃ p peer, ipHashProbe hash g = .ok (p,peer) ∧ g.peer[p]? = some peer ∧
    ∀ q, g.Owns (hash%g.totalWeight) q ↔ q = p
  owned : ∀ residue < g.totalWeight, ∃! p, g.Owns residue p
  share : ∀ p peer, g.peer[p]? = some peer →
    (((Finset.range g.totalWeight).filter fun residue => g.Owns residue p).card : ℤ) = peer.weight

theorem RrPeers.owns_iff {g : RrPeers} {residue p : ℕ} :
    g.Owns residue p ↔ WeightedPick.Owns (weights g.peer) (residue : ℤ) p := by
  constructor
  · rintro ⟨peer,hp,h⟩
    exact (owns_weights_iff hp).mpr h
  · intro h
    have hp : p < g.peer.length := by simpa [weights] using h.lt_length
    exact ⟨_,List.getElem?_eq_getElem hp,(owns_weights_iff (List.getElem?_eq_getElem hp)).mp h⟩

theorem RrPeers.filter_owns_eq (g : RrPeers) (p : ℕ) :
    ((Finset.range g.totalWeight).filter fun residue => g.Owns residue p) =
      (Finset.range g.totalWeight).filter fun residue : ℕ => WeightedPick.Owns (weights g.peer) (residue : ℤ) p :=
  Finset.filter_congr fun _ _ => RrPeers.owns_iff

theorem RrPeers.Partitioned.card_owned {g : RrPeers} (h : g.Partitioned) {p : ℕ} {x : ℤ} (hx : (weights g.peer)[p]? = some x) :
    (((Finset.range g.totalWeight).filter fun residue : ℕ =>
      WeightedPick.Owns (weights g.peer) (residue : ℤ) p).card : ℤ) = x := by
  rw [weights,List.getElem?_map] at hx
  obtain ⟨peer,hp,rfl⟩ := Option.map_eq_some_iff.mp hx
  rw [← RrPeers.filter_owns_eq]
  exact h.share p peer hp

/-- In a sound group whose total weight is not 0 every hash value belongs to one peer. -/
theorem RrPeers.Sound.partitioned {g : RrPeers} (hg : g.Sound) (hw : g.totalWeight ≠ 0) : g.Partitioned := by
  have hnonneg := weights_nonneg hg.weight_nonneg
  have hwalk : ∀ hash : ℕ, ∃ p peer, ipHashProbe hash g = .ok (p,peer) ∧ g.peer[p]? = some peer ∧
      ∀ q, g.Owns (hash%g.totalWeight) q ↔ q = p := by
    intro hash
    obtain ⟨p,peer,hpick,hp,hprobe⟩ := ipHashProbe_pick hg hw hash
    have howns := WeightedPick.pick_owns (by positivity) hpick
    refine ⟨p,peer,hprobe,hp,fun q => ?_⟩
    rw [RrPeers.owns_iff]
    exact ⟨fun hother => hother.unique hnonneg howns,fun he => he ▸ howns⟩
  refine ⟨fun hash _ => hwalk hash,fun residue hlt => ?_,fun p peer hp => ?_⟩
  · obtain ⟨p,-,-,-,howns⟩ := hwalk residue
    simp only [Nat.mod_eq_of_lt hlt] at howns
    exact ⟨p,(howns p).mpr rfl,fun q => (howns q).mp⟩
  · have hweight : (weights g.peer)[p]? = some peer.weight := by simp [weights,hp]
    rw [RrPeers.filter_owns_eq]
    exact WeightedPick.card_owned hnonneg hg.totalWeight.symm.le hweight

end InsideNginx.HttpUpstream
