import InsideNginx.HttpUpstream.Requests

/-! What a selection that returns has done to the weights, the failure counts and the check
times of the peers, whatever state it started from. -/
namespace InsideNginx.HttpUpstream

/-- The sum of the current weights. -/
def creditSum (peers : List RrPeer) : ℤ := (peers.map (·.currentWeight)).sum

@[simp] theorem creditSum_cons (peer : RrPeer) (peers : List RrPeer) :
    creditSum (peer::peers) = peer.currentWeight + creditSum peers := by simp [creditSum]

@[simp] theorem creditSum_append (xs ys : List RrPeer) :
    creditSum (xs ++ ys) = creditSum xs + creditSum ys := by simp [creditSum]

theorem creditSum_modify {f : RrPeer → RrPeer} {d : ℤ}
    (hf : ∀ peer, (f peer).currentWeight = peer.currentWeight + d) {peers : List RrPeer} {p : ℕ}
    (hp : p < peers.length) : creditSum (peers.modify p f) = creditSum peers + d := by
  induction peers generalizing p with
  | nil => simp at hp
  | cons peer peers ih =>
    cases p with
    | zero => simp only [List.modify_zero_cons,creditSum_cons,hf]; ring
    | succ p =>
      have hrest := ih (p := p) (by simpa using hp)
      simp only [List.modify_succ_cons,creditSum_cons,hrest]
      ring

/-- A loop charges some of the peers and leaves the others alone. -/
def Charged : List RrPeer → List RrPeer → Prop :=
  List.Forall₂ fun peer peer' => peer' = peer ∨ peer' = peer.charge

theorem Charged.refl (peers : List RrPeer) : Charged peers peers := by
  induction peers with
  | nil => exact .nil
  | cons peer peers ih => exact .cons (.inl rfl) ih

theorem Charged.append {xs xs' ys ys' : List RrPeer} (hx : Charged xs xs') (hy : Charged ys ys') :
    Charged (xs ++ ys) (xs' ++ ys') := by
  induction hx with
  | nil => exact hy
  | cons h _ ih => exact .cons h ih

theorem Charged.getElem? {xs xs' : List RrPeer} (h : Charged xs xs') {i : ℕ} {peer' : RrPeer}
    (hi : xs'[i]? = some peer') : ∃ peer, xs[i]? = some peer ∧ (peer' = peer ∨ peer' = peer.charge) := by
  induction h generalizing i with
  | nil => simp at hi
  | @cons peer other xs xs' hhead htail ih =>
    cases i with
    | zero =>
      obtain rfl : other = peer' := by simpa using hi
      exact ⟨peer,rfl,hhead⟩
    | succ i => exact ih (by simpa using hi)

/-- What the round robin loop adds to the current weights is the total it returns. -/
theorem getPeerLoop_charged {now : ℤ} {tried : Tried} {i : ℕ} {peers peers' : List RrPeer}
    {total total' : ℤ} {best best' : Option (ℕ × RrPeer)}
    (h : getPeerLoop now tried i peers total best = .ok (peers',total',best')) :
    Charged peers peers' ∧ creditSum peers' - total' = creditSum peers - total := by
  induction peers generalizing i peers' total total' best best' with
  | nil => cases h; exact ⟨.nil,rfl⟩
  | cons peer rest ih =>
    obtain ⟨t,-,h⟩ := bind_ok h
    split at h
    · obtain ⟨⟨rest',total₁,best₁⟩,hrest,hend⟩ := bind_ok h
      cases hend
      obtain ⟨hcharged,hsum⟩ := ih hrest
      refine ⟨.cons (.inl rfl) hcharged,?_⟩
      simp only [creditSum_cons]
      linarith
    · obtain ⟨⟨rest',total₁,best₁⟩,hrest,hend⟩ := bind_ok h
      cases hend
      obtain ⟨hcharged,hsum⟩ := ih hrest
      refine ⟨.cons (.inr rfl) hcharged,?_⟩
      simp only [creditSum_cons,RrPeer.charge]
      linarith

theorem leastConnTieLoop_charged {now : ℤ} {tried : Tried} {i : ℕ} {peers peers' : List RrPeer}
    {total total' : ℤ} {best best' : ℕ × RrPeer}
    (h : leastConnTieLoop now tried i peers total best = .ok (peers',total',best')) :
    Charged peers peers' ∧ creditSum peers' - total' = creditSum peers - total := by
  induction peers generalizing i peers' total total' best best' with
  | nil => cases h; exact ⟨.nil,rfl⟩
  | cons peer rest ih =>
    obtain ⟨t,-,h⟩ := bind_ok h
    split at h
    · obtain ⟨⟨rest',total₁,best₁⟩,hrest,hend⟩ := bind_ok h
      cases hend
      obtain ⟨hcharged,hsum⟩ := ih hrest
      refine ⟨.cons (.inl rfl) hcharged,?_⟩
      simp only [creditSum_cons]
      linarith
    · obtain ⟨⟨rest',total₁,best₁⟩,hrest,hend⟩ := bind_ok h
      cases hend
      obtain ⟨hcharged,hsum⟩ := ih hrest
      refine ⟨.cons (.inr rfl) hcharged,?_⟩
      simp only [creditSum_cons,RrPeer.charge]
      linarith

/-- How a selection changes one peer. A chosen peer of a group of several peers is checked. -/
structure RrPeer.Kept (now : ℤ) (checks : Prop) (peer peer' : RrPeer) : Prop where
  config : peer'.config = peer.config
  fails : peer'.fails = peer.fails
  accessed : peer'.accessed = peer.accessed
  touched : checks → peer'.checked = (peer.touch now).checked
  untouched : ¬checks → peer'.checked = peer.checked
  recovers : peer.effectiveWeight ≤ peer'.effectiveWeight
  bounded : peer.effectiveWeight ≤ peer.weight → peer'.effectiveWeight ≤ peer.weight

/-- The peers of a group after a selection of position `p`. -/
structure Picks (now : ℤ) (g : RrPeers) (p : ℕ) (peers : List RrPeer) : Prop where
  length : peers.length = g.peer.length
  credits : creditSum peers = creditSum g.peer
  kept : ∀ (i : ℕ) (peer' : RrPeer), peers[i]? = some peer' →
    ∃ peer : RrPeer, g.peer[i]? = some peer ∧ peer.Kept now (g.single = false ∧ i = p) peer'

theorem RrPeer.Kept.of_charged {now : ℤ} {peer peer' : RrPeer} (h : peer' = peer ∨ peer' = peer.charge) :
    peer.Kept now False peer' := by
  rcases h with rfl | rfl
  · exact ⟨rfl,rfl,rfl,False.elim,fun _ => rfl,le_rfl,id⟩
  · refine ⟨rfl,rfl,rfl,False.elim,fun _ => rfl,?_,fun hle => ?_⟩
    · simp only [RrPeer.charge]; split <;> omega
    · simp only [RrPeer.charge]; split <;> omega

/-- The best peer of the charged list pays the total. -/
theorem picks_of_charged {now total : ℤ} {g : RrPeers} {p : ℕ} {list : List RrPeer}
    (hs : g.single = false) (hcharged : Charged g.peer list)
    (hsum : creditSum list - total = creditSum g.peer) (hp : p < list.length) :
    Picks now g p (list.modify p fun best => (best.settle now total).hold) where
  length := by rw [List.length_modify]; exact hcharged.length_eq.symm
  credits := by
    rw [creditSum_modify (d := -total) (fun peer => rfl) hp]
    linarith
  kept i peer' hi := by
    by_cases hip : i = p
    · subst hip
      rw [List.getElem?_modify_eq] at hi
      obtain ⟨charged,hlist,rfl⟩ := Option.map_eq_some_iff.mp hi
      obtain ⟨peer,hpeer,hstep⟩ := hcharged.getElem? hlist
      have hk : peer.Kept now False charged := .of_charged hstep
      refine ⟨peer,hpeer,hk.config,hk.fails,hk.accessed,fun _ => ?_,fun hn => absurd ⟨hs,rfl⟩ hn,hk.recovers,
        hk.bounded⟩
      rcases hstep with rfl | rfl <;> rfl
    · rw [List.getElem?_modify_ne _ _ (Ne.symm hip)] at hi
      obtain ⟨peer,hpeer,hstep⟩ := hcharged.getElem? hi
      have hk : peer.Kept now False peer' := .of_charged hstep
      exact ⟨peer,hpeer,hk.config,hk.fails,hk.accessed,fun h => absurd h.2 hip,fun _ => hk.untouched id,hk.recovers,
        hk.bounded⟩

/-- A selection that neither charges nor settles. -/
theorem picks_of_modify {now : ℤ} {g : RrPeers} {p : ℕ} {f : RrPeer → RrPeer}
    (hcredit : ∀ peer, (f peer).currentWeight = peer.currentWeight)
    (hkept : ∀ peer : RrPeer, peer.Kept now (g.single = false) (f peer)) :
    Picks now g p (g.peer.modify p f) where
  length := List.length_modify ..
  credits := by simp only [creditSum,map_modify_eq _ f hcredit]
  kept i peer' hi := by
    by_cases hip : i = p
    · subst hip
      rw [List.getElem?_modify_eq] at hi
      obtain ⟨peer,hpeer,rfl⟩ := Option.map_eq_some_iff.mp hi
      exact ⟨peer,hpeer,by simpa using hkept peer⟩
    · rw [List.getElem?_modify_ne _ _ (Ne.symm hip)] at hi
      have hk : peer'.Kept now False peer' := .of_charged (.inl rfl)
      exact ⟨peer',hi,by simpa [hip] using hk⟩

/-! ### The calls -/

/-- What a call that returns has done: it chose a peer, or changed no peer. -/
inductive Picked (now : ℤ) (u : Upstream) : Rc → Upstream → Option PeerPtr → Prop
  | ok {ptr g p peers} (group : u.group ptr = some g) (picks : Picks now g p peers) :
      Picked now u .ok (u.store ptr peers) (some (ptr,p))
  | busy (current : Option PeerPtr) : Picked now u .busy u current

/-- Every call that returns meets `Picked`. -/
def Picking (now : ℤ) (call : Upstream → Request → Outcome) : Prop :=
  ∀ u r rc u' r', call u r = .ok (rc,u',r') → Picked now u rc u' r'.rrp.current

theorem getRoundRobinInGroup_picks {now : ℤ} {u u' : Upstream} {r r' : Request}
    (h : getRoundRobinInGroup now u r = .ok (some (u',r'))) : Picked now u .ok u' r'.rrp.current := by
  obtain ⟨g,hg,h⟩ := bind_ok h
  have hgroup := orFault_ok hg
  split at h
  · rename_i hs
    obtain ⟨peer,hpeer,h⟩ := bind_ok h
    split at h
    · cases h
    split at h
    · cases h
    cases h
    refine .ok hgroup (picks_of_modify (fun _ => rfl) fun peer => ?_)
    exact ⟨rfl,rfl,rfl,by simp [hs],fun _ => rfl,le_rfl,id⟩
  · rename_i hs
    obtain ⟨got,hgot,h⟩ := bind_ok h
    cases got with
    | none => cases h
    | some found =>
      obtain ⟨p,list,rrp⟩ := found
      obtain ⟨⟨peers,total,best⟩,hloop,hgot⟩ := bind_ok hgot
      obtain ⟨hcharged,hsum⟩ := getPeerLoop_charged hloop
      cases best with
      | none => cases hgot
      | some best =>
        obtain ⟨tried,-,hgot⟩ := bind_ok hgot
        cases hgot
        obtain ⟨peer,hpeer,h⟩ := bind_ok h
        cases h
        have hp : best.1 < (peers.modify best.1 (·.settle now total)).length :=
          (List.getElem?_eq_some_iff.mp (orFault_ok hpeer)).1
        rw [List.length_modify] at hp
        have hcredits : creditSum peers - total = creditSum g.peer := by linarith
        have hpicks : Picks now g best.1 _ := picks_of_charged (by simpa using hs) hcharged hcredits hp
        rw [List.modify_modify_eq]
        exact .ok hgroup hpicks

theorem getLeastConnInGroup_picks {now : ℤ} {u u' : Upstream} {g : RrPeers} {r r' : Request}
    (hgroup : u.group r.rrp.peers = some g) (hs : g.single = false)
    (h : getLeastConnInGroup now g u r = .ok (some (u',r'))) : Picked now u .ok u' r'.rrp.current := by
  obtain ⟨⟨found,many⟩,-,h⟩ := bind_ok h
  cases found with
  | none => cases h
  | some found =>
    -- both ways into the code after the loops charge a list of peers
    have hdone : ∀ list total p, Charged g.peer list → creditSum list - total = creditSum g.peer →
        (do
          let best ← orFault .nullDeref list[p]?
          let tried ← triedSet r.rrp.tried p
          return some (u.store r.rrp.peers (list.modify p fun best => (best.settle now total).hold),
            { r with
              pc := r.pc.fill best
              rrp := { r.rrp with current := some (r.rrp.peers,p), tried := tried } })) =
          Except.ok (some (u',r')) → Picked now u .ok u' r'.rrp.current := by
      intro list total p hcharged hcredits h
      obtain ⟨best,hbest,h⟩ := bind_ok h
      obtain ⟨tried,-,h⟩ := bind_ok h
      cases h
      have hp := (List.getElem?_eq_some_iff.mp (orFault_ok hbest)).1
      exact .ok hgroup (picks_of_charged hs hcharged hcredits hp)
    cases many with
    | false => exact hdone g.peer 0 found.1 (.refl _) (by simp) h
    | true =>
      obtain ⟨⟨rest,total,best⟩,htie,h⟩ := bind_ok h
      obtain ⟨hcharged,hsum⟩ := leastConnTieLoop_charged htie
      have happend := (Charged.refl (g.peer.take found.1)).append hcharged
      have hsplit := creditSum_append (g.peer.take found.1) (g.peer.drop found.1)
      rw [List.take_append_drop] at happend hsplit
      refine hdone _ total best.1 happend ?_ h
      rw [creditSum_append]
      linarith

theorem failed_picking {now : ℤ} {again : Upstream → Request → Outcome} (hagain : Picking now again) :
    Picking now (failed again) := by
  intro u r rc u' r' h
  obtain ⟨g,-,h⟩ := bind_ok h
  split at h
  · obtain ⟨tried,-,h⟩ := bind_ok h
    obtain ⟨⟨rc₁,u₁,r₁⟩,hcall,h⟩ := bind_ok h
    have hpicked := hagain _ _ _ _ _ hcall
    cases rc₁ <;> cases h <;> exact hpicked
  · cases h; exact .busy _

theorem getRoundRobinPeerDepth_picking (now : ℤ) (depth : ℕ) :
    Picking now (getRoundRobinPeerDepth now depth) := by
  induction depth with
  | zero => intro u r rc u' r' h; cases h
  | succ depth ih =>
    intro u r rc u' r' h
    obtain ⟨got,hgot,h⟩ := bind_ok h
    cases got with
    | none => exact failed_picking ih _ _ _ _ _ h
    | some found => cases h; exact getRoundRobinInGroup_picks hgot

theorem getLeastConnPeerDepth_picking (now : ℤ) (depth : ℕ) :
    Picking now (getLeastConnPeerDepth now depth) := by
  induction depth with
  | zero => intro u r rc u' r' h; cases h
  | succ depth ih =>
    intro u r rc u' r' h
    obtain ⟨g,hg,h⟩ := bind_ok h
    split at h
    · exact getRoundRobinPeerDepth_picking now 2 _ _ _ _ _ h
    · rename_i hs
      obtain ⟨got,hgot,h⟩ := bind_ok h
      cases got with
      | none => exact failed_picking ih _ _ _ _ _ h
      | some found =>
        have hpicked := getLeastConnInGroup_picks (by exact orFault_ok hg) (by simpa using hs) hgot
        cases h
        exact hpicked

theorem getIpHashPeer_picking (now : ℤ) : Picking now (getIpHashPeer now) := by
  intro u r rc u' r' h
  obtain ⟨g,hg,h⟩ := bind_ok h
  split at h
  · exact getRoundRobinPeerDepth_picking now 2 _ _ _ _ _ h
  · rename_i hprobe
    obtain ⟨⟨found,tries⟩,-,h⟩ := bind_ok h
    cases found with
    | none => exact getRoundRobinPeerDepth_picking now 2 _ _ _ _ _ h
    | some found =>
      obtain ⟨tried,-,h⟩ := bind_ok h
      cases h
      refine .ok (orFault_ok hg) (picks_of_modify (fun _ => rfl) fun peer => ?_)
      exact ⟨rfl,rfl,rfl,fun _ => rfl,fun hs => absurd hs (by simp_all),le_rfl,id⟩

/-- All the `get` functions account for what they do in the same way. -/
theorem Balancer.picking (balancer : Balancer) (now : ℤ) : Picking now (balancer.get now) := by
  cases balancer with
  | roundRobin => exact getRoundRobinPeerDepth_picking now 2
  | leastConn => exact getLeastConnPeerDepth_picking now 2
  | ipHash => exact getIpHashPeer_picking now

end InsideNginx.HttpUpstream
