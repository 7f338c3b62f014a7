import InsideNginx.General.SmoothCredits
import InsideNginx.HttpUpstream.Served

/-! Round robin selection refines fair sharing by credits: while no peer fails, the current
weight of a peer is its credit, so the selections are exactly proportional to the weights. -/
namespace InsideNginx.HttpUpstream
open SmoothCredits

/-- A selection by a fresh request, or the successful release of a peer by some request. -/
inductive GroupEvent
  | select (now : ℤ)
  | free (now : ℤ) (p : ℕ)
  deriving DecidableEq, Repr

/-- One event on a group. A selection is `getPeer` and the `conns++` of its caller; it is
made with the bitmap of a request that has just been initialised. -/
def groupStep (ptr : PeersPtr) (u : Upstream) : GroupEvent → Except Fault (Upstream × List ℕ)
  | .select now => do
    let g ← orFault .nullDeref (u.group ptr)
    let rrp ← orFault .nullDeref (initRoundRobinPeer true u)
    match ← getPeer now g.peer { rrp with peers := ptr } with
    | none => return (u,[])
    | some (p,peers,_) => return (u.store ptr (peers.modify p (·.hold)),[p])
  | .free now p => do
    let r ← orFault .nullDeref (initIpHashPeer true u [])
    let (u,_) ← freeRoundRobinPeer now false u
      { r with rrp := { r.rrp with peers := ptr, current := some (ptr,p) } }
    return (u,[])

/-- A sequence of events: the groups afterwards and the positions chosen, in order. -/
def groupRun (ptr : PeersPtr) : Upstream → List GroupEvent → Except Fault (Upstream × List ℕ)
  | u,[] => .ok (u,[])
  | u,event::events => do
    let (u,first) ← groupStep ptr u event
    let (u,rest) ← groupRun ptr u events
    return (u,first ++ rest)

/-- The number of selections among the events. -/
def selections : List GroupEvent → ℕ
  | [] => 0
  | .select _::events => selections events + 1
  | .free _ _::events => selections events

/-- The weight at a position, zero outside the list. -/
def weightAt (peers : List RrPeer) (i : ℕ) : ℤ := (peers.map (·.weight)).getD i 0

/-- No peer of the group is down or limited, and every weight is positive. -/
def RrPeers.Plain (g : RrPeers) : Prop :=
  ∀ peer ∈ g.peer, 1 ≤ peer.weight ∧ peer.down = false ∧ peer.maxConns = 0

/-- The peers carry the credits of a fair run, and none has failed. -/
structure Balanced (g : RrPeers) (chosen : List ℕ) : Prop where
  number : g.number = g.peer.length
  totalWeight : (g.totalWeight : ℤ) = weightSum g.peer
  plain : g.Plain
  healthy : ∀ peer ∈ g.peer, peer.fails = 0 ∧ peer.effectiveWeight = peer.weight
  credits : ∀ i peer, g.peer[i]? = some peer →
    peer.currentWeight = credit (Finset.range g.peer.length) (weightAt g.peer) chosen i
  run : FairRun (Finset.range g.peer.length) (weightAt g.peer) chosen

lemma weightAt_of_getElem? {peers : List RrPeer} {i : ℕ} {peer : RrPeer} (h : peers[i]? = some peer) :
    weightAt peers i = peer.weight := by simp [weightAt,h]

lemma total_weightAt (peers : List RrPeer) :
    total (Finset.range peers.length) (weightAt peers) = weightSum peers := by
  unfold total
  induction peers with
  | nil => simp
  | cons peer peers ih =>
    rw [List.length_cons,Finset.sum_range_succ',weightSum_cons,← ih,add_comm]
    simp [weightAt]

theorem Balanced.init {g : RrPeers} (hg : g.WellBuilt) (hplain : g.Plain) : Balanced g [] where
  number := hg.number_eq
  totalWeight := hg.totalWeight_eq
  plain := hplain
  healthy peer hp := by obtain ⟨-,he,-,hf,-⟩ := hg.fresh peer hp; exact ⟨hf,he⟩
  credits i peer hp := by
    simpa using (hg.fresh peer (List.mem_of_getElem? hp)).1
  run := .nil

/-- The bitmap of a freshly initialised request is empty and covers both groups. -/
theorem initRoundRobinPeer_fresh {pcalloc : Bool} {u : Upstream} {rrp : RrPeerData}
    (h : initRoundRobinPeer pcalloc u = some rrp) :
    rrp.peers = .primary ∧ rrp.current = none ∧ Covers u rrp.tried ∧
      ∀ i, WordBitset.bit rrp.tried i = false := by
  have hwide : ∀ ptr g, u.group ptr = some g → g.number ≤ u.widest := by
    intro ptr g hg
    cases ptr with
    | primary =>
      obtain rfl : u.primary = g := by simpa [Upstream.group] using hg
      unfold Upstream.widest
      split
      · split <;> omega
      · exact le_rfl
    | backup =>
      have hb : u.backup = some g := hg
      simp only [Upstream.widest,hb]
      split <;> omega
  unfold initRoundRobinPeer at h
  split at h
  · cases h
    exact ⟨rfl,rfl,fun ptr g hg => by have := hwide ptr g hg; simp only [Fits,List.length_singleton]; omega,
      WordBitset.bit_replicate_zero 1⟩
  · split at h
    · cases h
      refine ⟨rfl,rfl,fun ptr g hg => ?_,WordBitset.bit_replicate_zero _⟩
      have := hwide ptr g hg
      simp only [Fits,triedWords,List.length_replicate]
      omega
    · cases h

/-- With the memory for its bitmap a request can always be initialised. -/
theorem initRoundRobinPeer_isSome (u : Upstream) : ∃ rrp, initRoundRobinPeer true u = some rrp := by
  unfold initRoundRobinPeer
  split
  · exact ⟨_,rfl⟩
  · exact ⟨_,rfl⟩

theorem Upstream.group_store {u : Upstream} {ptr : PeersPtr} {g : RrPeers} (h : u.group ptr = some g)
    (peers : List RrPeer) : (u.store ptr peers).group ptr = some { g with peer := peers } := by
  cases ptr with
  | primary => cases h; rfl
  | backup =>
    have hb : u.backup = some g := h
    simp [Upstream.store,Upstream.group,hb]

section select
variable {g : RrPeers} {chosen : List ℕ} {tried : Tried}

/-- In a balanced group an empty bitmap leaves every peer eligible. -/
theorem Balanced.all_eligible (h : Balanced g chosen) (now : ℤ)
    (hempty : ∀ i, WordBitset.bit tried i = false) {i j : ℕ} {peer : RrPeer} (hj : g.peer[j]? = some peer) :
    eligible now tried i peer = true := by
  have hm := List.mem_of_getElem? hj
  obtain ⟨-,hdown,hmax⟩ := h.plain peer hm
  have hfails := (h.healthy peer hm).1
  have hun : peer.unavailable now = false := by
    simp only [RrPeer.unavailable,hfails]
    by_cases hf : peer.maxFails = 0 <;> simp [hf]
  simp [eligible,hempty,RrPeer.skip,hdown,hun,RrPeer.atLimit,hmax]

lemma chargeAll_of_eligible {now : ℤ} (i : ℕ) {peers : List RrPeer}
    (h : ∀ i, ∀ peer ∈ peers, eligible now tried i peer = true) :
    chargeAll now tried i peers = peers.map (·.charge) := by
  induction peers generalizing i with
  | nil => rfl
  | cons peer rest ih =>
    simp only [chargeAll,h i peer List.mem_cons_self,if_true,List.map_cons]
    rw [ih (i+1) fun i other ho => h i other (List.mem_cons_of_mem _ ho)]

lemma chargeTotal_of_eligible {now : ℤ} (i : ℕ) {peers : List RrPeer}
    (h : ∀ i, ∀ peer ∈ peers, eligible now tried i peer = true)
    (hew : ∀ peer ∈ peers, peer.effectiveWeight = peer.weight) :
    chargeTotal now tried i peers = weightSum peers := by
  induction peers generalizing i with
  | nil => rfl
  | cons peer rest ih =>
    simp only [chargeTotal,h i peer List.mem_cons_self,if_true,weightSum_cons,hew peer List.mem_cons_self]
    rw [ih (i+1) (fun i other ho => h i other (List.mem_cons_of_mem _ ho))
      (fun other ho => hew other (List.mem_cons_of_mem _ ho))]

/-- The charge of a healthy peer: its credit after the payment of its weight. -/
lemma charge_of_healthy {peer : RrPeer} (h : peer.effectiveWeight = peer.weight) :
    peer.charge = { peer with currentWeight := peer.currentWeight + peer.weight } := by
  simp [RrPeer.charge,h]

/-- The peers after a selection in a balanced group. -/
def selectPeers (now : ℤ) (peers : List RrPeer) (p : ℕ) : List RrPeer :=
  ((peers.map (·.charge)).modify p (·.settle now (weightSum peers))).modify p (·.hold)

@[simp] lemma selectPeers_length (now : ℤ) (peers : List RrPeer) (p : ℕ) :
    (selectPeers now peers p).length = peers.length := by simp [selectPeers]

lemma selectPeers_getElem? (now : ℤ) (peers : List RrPeer) (p i : ℕ) :
    (selectPeers now peers p)[i]? = peers[i]?.map fun peer =>
      if i = p then (peer.charge.settle now (weightSum peers)).hold else peer.charge := by
  cases hi : peers[i]? with
  | none => simpa [selectPeers] using hi
  | some peer =>
    by_cases hp : p = i
    · subst hp; simp [selectPeers,hi]
    · simp [selectPeers,hi,hp,Ne.symm hp]

/-- What a selection leaves of a healthy peer, whether it was chosen or not. -/
lemma selectPeers_healthy {now : ℤ} {p i : ℕ} {peers : List RrPeer} {peer' : RrPeer}
    (hew : ∀ peer ∈ peers, peer.effectiveWeight = peer.weight)
    (h : (selectPeers now peers p)[i]? = some peer') :
    ∃ peer, peers[i]? = some peer ∧ peer'.config = peer.config ∧ peer'.fails = peer.fails ∧
      peer'.effectiveWeight = peer.effectiveWeight ∧
      peer'.currentWeight = peer.currentWeight + peer.weight - if i = p then weightSum peers else 0 := by
  rw [selectPeers_getElem?] at h
  obtain ⟨peer,hi,rfl⟩ := Option.map_eq_some_iff.mp h
  have hc := charge_of_healthy (hew peer (List.mem_of_getElem? hi))
  refine ⟨peer,hi,?_⟩
  split <;> simp [hc,RrPeer.settle,RrPeer.touch,RrPeer.hold,RrPeer.config]

/-- A selection in a balanced group chooses a peer with the greatest credit. -/
theorem Balanced.getPeer (h : Balanced g chosen) (hne : g.peer ≠ []) (now : ℤ) (rrp : RrPeerData)
    (hfit : Fits rrp.tried g.number) (hempty : ∀ i, WordBitset.bit rrp.tried i = false) :
    ∃ p rrp' peers, HttpUpstream.getPeer now g.peer rrp = .ok (some (p,peers,rrp')) ∧
      peers.modify p (·.hold) = selectPeers now g.peer p ∧ p < g.peer.length ∧
      ∀ i ∈ Finset.range g.peer.length,
        credit (Finset.range g.peer.length) (weightAt g.peer) chosen i + weightAt g.peer i ≤
        credit (Finset.range g.peer.length) (weightAt g.peer) chosen p + weightAt g.peer p := by
  have hall : ∀ i, ∀ peer ∈ g.peer, eligible now rrp.tried i peer = true := by
    intro i peer hp
    obtain ⟨j,hj⟩ := List.mem_iff_getElem?.mp hp
    exact h.all_eligible now hempty hj
  have hew := fun peer hp => (h.healthy peer hp).2
  rw [h.number] at hfit
  rcases getPeer_spec now g.peer rrp hfit with ⟨-,hnone⟩ | ⟨p,peer,b,tried,hp,-,hbest,-,-,hcall⟩
  · obtain ⟨peer,hp⟩ := List.exists_mem_of_ne_nil _ hne
    obtain ⟨j,hj⟩ := List.mem_iff_getElem?.mp hp
    have := hnone j peer hj
    rw [hall j peer hp] at this
    cases this
  · rw [chargeAll_of_eligible 0 hall,chargeTotal_of_eligible 0 hall hew] at hcall
    have hlt : p < g.peer.length := by rw [List.getElem?_eq_some_iff] at hp; exact hp.1
    refine ⟨p,_,_,hcall,rfl,hlt,fun i hi => ?_⟩
    rw [Finset.mem_range] at hi
    have hpeer := List.getElem?_eq_getElem hi
    have hge := (chargeBest_ge hbest).2 i g.peer[i] hpeer (hall _ _ (List.getElem_mem hi))
    obtain hb : b = peer.charge := by
      rcases chargeBest_mem hbest with hn | ⟨j,other,hj,ho,-,hb⟩
      · cases hn
      · obtain rfl : j = p := by omega
        rw [hp] at ho
        cases ho
        exact hb
    rw [hb,charge_of_healthy (hew _ (List.mem_of_getElem? hp)),
      charge_of_healthy (hew _ (List.getElem_mem hi))] at hge
    rw [← h.credits i _ hpeer,← h.credits p _ hp,weightAt_of_getElem? hpeer,weightAt_of_getElem? hp]
    exact hge

end select

/-- The weights are part of the configuration of the peers. -/
lemma weights_of_config {peers peers' : List RrPeer}
    (h : peers'.map (·.config) = peers.map (·.config)) :
    peers'.map (·.weight) = peers.map (·.weight) := by
  have hw := congrArg (List.map Prod.fst) h
  simpa [List.map_map,Function.comp_def,RrPeer.config] using hw

lemma config_getElem? {peers peers' : List RrPeer} (h : peers'.map (·.config) = peers.map (·.config))
    {i : ℕ} {peer' : RrPeer} (hi : peers'[i]? = some peer') :
    ∃ peer, peers[i]? = some peer ∧ peer'.config = peer.config := by
  have hc := congrArg (·[i]?) h
  simp only [List.getElem?_map,hi,Option.map_some] at hc
  obtain ⟨peer,hp,he⟩ := Option.map_eq_some_iff.mp hc.symm
  exact ⟨peer,hp,he.symm⟩

/-- Nothing that a selection or a release changes is part of what these clauses look at. -/
lemma RrPeers.Plain.of_config {g : RrPeers} (h : g.Plain) {peers : List RrPeer}
    (hc : peers.map (·.config) = g.peer.map (·.config)) : RrPeers.Plain { g with peer := peers } := by
  intro peer' hp
  obtain ⟨i,hi⟩ := List.mem_iff_getElem?.mp hp
  obtain ⟨peer,hpeer,he⟩ := config_getElem? hc hi
  obtain ⟨hw,hd,hm⟩ := h peer (List.mem_of_getElem? hpeer)
  simp only [RrPeer.config,Prod.mk.injEq] at he
  exact ⟨he.1 ▸ hw,he.2.2.2.2 ▸ hd,he.2.1 ▸ hm⟩

/-- The step lemma for a selection: the credits pay the round. -/
theorem Balanced.select {g : RrPeers} {chosen : List ℕ} (h : Balanced g chosen) (now : ℤ) {p : ℕ}
    (hp : p < g.peer.length)
    (hbest : ∀ i ∈ Finset.range g.peer.length,
      credit (Finset.range g.peer.length) (weightAt g.peer) chosen i + weightAt g.peer i ≤
      credit (Finset.range g.peer.length) (weightAt g.peer) chosen p + weightAt g.peer p) :
    Balanced { g with peer := selectPeers now g.peer p } (chosen ++ [p]) := by
  have hew := fun peer hp => (h.healthy peer hp).2
  have hconfig : (selectPeers now g.peer p).map (·.config) = g.peer.map (·.config) := by
    simp only [selectPeers]
    rw [map_modify_eq _ _ config_hold,map_modify_eq _ _ (fun peer => config_settle peer _ _),List.map_map]
    rfl
  have hweights := weights_of_config hconfig
  have hat : weightAt (selectPeers now g.peer p) = weightAt g.peer := by
    funext i; simp only [weightAt,hweights]
  constructor
  · simpa using h.number
  · simpa only [weightSum,hweights] using h.totalWeight
  · exact h.plain.of_config hconfig
  · intro peer' hm
    obtain ⟨i,hi⟩ := List.mem_iff_getElem?.mp hm
    obtain ⟨peer,hpeer,hc,hf,he,-⟩ := selectPeers_healthy hew hi
    obtain ⟨hfails,heff⟩ := h.healthy peer (List.mem_of_getElem? hpeer)
    exact ⟨hf.trans hfails,by rw [he,heff]; exact (congrArg Prod.fst hc).symm⟩
  · intro i peer' hi
    obtain ⟨peer,hpeer,-,-,-,hcw⟩ := selectPeers_healthy hew hi
    simp only [selectPeers_length,hat]
    rw [credit_append,total_weightAt,weightAt_of_getElem? hpeer,hcw,h.credits i peer hpeer]
  · simp only [selectPeers_length,hat]
    exact h.run.next (Finset.mem_range.mpr hp) hbest

/-- The step lemma for a successful release: the credits stay. -/
theorem Balanced.free {g : RrPeers} {chosen : List ℕ} (h : Balanced g chosen) (p : ℕ)
    (step : RrPeer → RrPeer)
    (hstep : ∀ peer : RrPeer, peer.fails = 0 → step peer = { peer with conns := (step peer).conns }) :
    Balanced { g with peer := g.peer.modify p step } chosen := by
  have hmem : ∀ (i : ℕ) (peer' : RrPeer), (g.peer.modify p step)[i]? = some peer' →
      ∃ (peer : RrPeer) (conns : ℕ), g.peer[i]? = some peer ∧ peer' = { peer with conns := conns } := by
    intro i peer' hi
    by_cases hp : p = i
    · subst hp
      simp only [List.getElem?_modify_eq] at hi
      obtain ⟨peer,hpeer,rfl⟩ := Option.map_eq_some_iff.mp hi
      exact ⟨peer,_,hpeer,hstep peer (h.healthy peer (List.mem_of_getElem? hpeer)).1⟩
    · simp only [List.getElem?_modify_ne _ _ hp] at hi
      exact ⟨peer',peer'.conns,hi,rfl⟩
  have hconfig : (g.peer.modify p step).map (·.config) = g.peer.map (·.config) := by
    apply List.ext_getElem?
    intro i
    cases hi : (g.peer.modify p step)[i]? with
    | none =>
      have hn : g.peer[i]? = none := by simpa using hi
      simp [hi,hn]
    | some peer' =>
      obtain ⟨peer,conns,hpeer,rfl⟩ := hmem i peer' hi
      simp [hi,hpeer,RrPeer.config]
  have hweights := weights_of_config hconfig
  have hat : weightAt (g.peer.modify p step) = weightAt g.peer := by
    funext i; simp only [weightAt,hweights]
  constructor
  · simpa using h.number
  · simpa only [weightSum,hweights] using h.totalWeight
  · exact h.plain.of_config hconfig
  · intro peer' hm
    obtain ⟨i,hi⟩ := List.mem_iff_getElem?.mp hm
    obtain ⟨peer,conns,hpeer,rfl⟩ := hmem i peer' hi
    exact h.healthy peer (List.mem_of_getElem? hpeer)
  · intro i peer' hi
    obtain ⟨peer,conns,hpeer,rfl⟩ := hmem i peer' hi
    simpa only [List.length_modify,hat] using h.credits i peer hpeer
  · simpa only [List.length_modify,hat] using h.run

lemma release_of_healthy (now : ℤ) (peer : RrPeer) (h : peer.fails = 0) :
    (peer.account now false).release = { peer with conns := ((peer.account now false).release).conns } := by
  by_cases hc : peer.accessed < peer.checked
  · simp [RrPeer.account,RrPeer.release,hc,← h]
  · simp [RrPeer.account,RrPeer.release,hc]

/-- One event on a balanced group of at least one peer. -/
theorem groupStep_balanced {ptr : PeersPtr} {u : Upstream} {g : RrPeers} {chosen : List ℕ}
    (hg : u.group ptr = some g) (h : Balanced g chosen) (hne : g.peer ≠ []) (event : GroupEvent) :
    ∃ u' g' more, groupStep ptr u event = .ok (u',more) ∧ u'.group ptr = some g' ∧
      Balanced g' (chosen ++ more) ∧ more.length = selections [event] ∧
      g'.peer.map (·.config) = g.peer.map (·.config) ∧ g'.totalWeight = g.totalWeight := by
  obtain ⟨rrp,hrrp⟩ := initRoundRobinPeer_isSome u
  obtain ⟨-,-,hcov,hempty⟩ := initRoundRobinPeer_fresh hrrp
  cases event with
  | select now =>
    obtain ⟨p,rrp',peers,hcall,hpeers,hp,hbest⟩ :=
      h.getPeer hne now { rrp with peers := ptr } (hcov ptr g hg) hempty
    refine ⟨_,_,[p],?_,Upstream.group_store hg (selectPeers now g.peer p),h.select now hp hbest,rfl,?_,rfl⟩
    · simp [groupStep,hg,hrrp,hcall,hpeers,orFault,bind,Except.bind,pure,Except.pure]
    · simp only [selectPeers]
      rw [map_modify_eq _ _ config_hold,map_modify_eq _ _ (fun peer => config_settle peer _ _),List.map_map]
      rfl
  | free now p =>
    have hstep : ∀ step : RrPeer → RrPeer,
        (∀ peer : RrPeer, peer.fails = 0 → step peer = { peer with conns := (step peer).conns }) →
        (∀ peer : RrPeer, (step peer).config = peer.config) →
        groupStep ptr u (.free now p) = .ok (u.store ptr (g.peer.modify p step),[]) →
        ∃ u' g' more, groupStep ptr u (.free now p) = .ok (u',more) ∧ u'.group ptr = some g' ∧
          Balanced g' (chosen ++ more) ∧ more.length = selections [.free now p] ∧
          g'.peer.map (·.config) = g.peer.map (·.config) ∧ g'.totalWeight = g.totalWeight := by
      intro step hs hc hrun
      refine ⟨_,_,[],hrun,Upstream.group_store hg _,?_,rfl,map_modify_eq _ _ hc _ _,rfl⟩
      simpa using h.free p step hs
    cases hs : g.single with
    | true =>
      refine hstep (·.release) (fun peer _ => rfl) config_release ?_
      simp [groupStep,initIpHashPeer,freeRoundRobinPeer,hg,hs,hrrp,orFault,bind,Except.bind,pure,Except.pure]
    | false =>
      refine hstep (fun peer => (peer.account now false).release) (release_of_healthy now)
        (fun peer => by simp) ?_
      simp [groupStep,initIpHashPeer,freeRoundRobinPeer,hg,hs,hrrp,orFault,bind,Except.bind,pure,Except.pure]

/-- A run keeps the balance, chooses once for every selection and never faults. -/
theorem groupRun_balanced {ptr : PeersPtr} {u : Upstream} {g : RrPeers} {chosen : List ℕ}
    (hg : u.group ptr = some g) (h : Balanced g chosen) (hne : g.peer ≠ []) (events : List GroupEvent) :
    ∃ u' g' more, groupRun ptr u events = .ok (u',more) ∧ u'.group ptr = some g' ∧
      Balanced g' (chosen ++ more) ∧ more.length = selections events ∧
      g'.peer.map (·.config) = g.peer.map (·.config) ∧ g'.totalWeight = g.totalWeight := by
  induction events generalizing u g chosen with
  | nil => exact ⟨u,g,[],rfl,hg,by simpa using h,rfl,rfl,rfl⟩
  | cons event events ih =>
    obtain ⟨u₁,g₁,first,hstep,hg₁,hb₁,hn₁,hc₁,hw₁⟩ := groupStep_balanced hg h hne event
    have hne₁ : g₁.peer ≠ [] := by
      intro he
      simp only [he,List.map_nil] at hc₁
      exact hne (List.map_eq_nil_iff.mp hc₁.symm)
    obtain ⟨u₂,g₂,rest,hrun,hg₂,hb₂,hn₂,hc₂,hw₂⟩ := ih hg₁ hb₁ hne₁
    refine ⟨u₂,g₂,first ++ rest,?_,hg₂,by rwa [← List.append_assoc],?_,hc₂.trans hc₁,hw₂.trans hw₁⟩
    · simp [groupRun,hstep,hrun,bind,Except.bind,pure,Except.pure]
    · rw [List.length_append,hn₁,hn₂]
      cases event <;> simp [selections,Nat.add_comm]

/-- Smooth weighted round robin is exactly proportional, after every sequence of selections
by fresh requests and successful releases. -/
theorem groupRun_proportional {pcalloc : ℕ → Bool} {resolve : String → ℕ → Option (List UpstreamAddr)}
    {us : UpstreamSrvConf} {u : Upstream} {ptr : PeersPtr} {g : RrPeers}
    (hinit : initRoundRobin pcalloc resolve us = .ok u) (hg : u.group ptr = some g)
    (hnumber : 2 ≤ g.number) (hplain : g.Plain) (events : List GroupEvent) :
    ∃ u' g' chosen, groupRun ptr u events = .ok (u',chosen) ∧ u'.group ptr = some g' ∧
      chosen.length = selections events ∧
      ∀ i peer, g.peer[i]? = some peer →
        (chosen.count i*g.totalWeight : ℤ) < chosen.length*peer.weight + g.totalWeight ∧
        (g.totalWeight ∣ chosen.length →
          (chosen.count i : ℤ) = (chosen.length/g.totalWeight : ℕ)*peer.weight ∧
          ∃ peer', g'.peer[i]? = some peer' ∧ peer'.currentWeight = 0) := by
  have hbuilt := initRoundRobin_wellBuilt hinit
  have hgroup : g.WellBuilt := by
    cases ptr with
    | primary => cases hg; exact hbuilt.primary
    | backup => exact (hbuilt.backup g hg).1
  have hne : g.peer ≠ [] := by
    intro he
    have := hgroup.number_eq
    simp only [he,List.length_nil] at this
    omega
  obtain ⟨u',g',chosen,hrun,hg',hb,hlen,hconfig,htotal⟩ :=
    groupRun_balanced hg (Balanced.init hgroup hplain) hne events
  rw [List.nil_append] at hb
  refine ⟨u',g',chosen,hrun,hg',hlen,fun i peer hi => ?_⟩
  have hlength : g'.peer.length = g.peer.length := by simpa using congrArg List.length hconfig
  have hlt : i < g'.peer.length := by
    rw [hlength]
    rw [List.getElem?_eq_some_iff] at hi
    exact hi.1
  obtain ⟨peer₀,hpeer₀,hc⟩ := config_getElem? hconfig (List.getElem?_eq_getElem hlt)
  rw [hi] at hpeer₀
  cases hpeer₀
  have hw : weightAt g'.peer i = peer.weight := by
    rw [weightAt_of_getElem? (List.getElem?_eq_getElem hlt)]
    exact congrArg Prod.fst hc
  have hsum : total (Finset.range g'.peer.length) (weightAt g'.peer) = g.totalWeight := by
    rw [total_weightAt,← hb.totalWeight,htotal]
  have hnonneg : ∀ j ∈ Finset.range g'.peer.length, 0 ≤ weightAt g'.peer j := by
    intro j hj
    have hj' := List.getElem?_eq_getElem (Finset.mem_range.mp hj)
    rw [weightAt_of_getElem? hj']
    have := (hb.plain _ (List.mem_of_getElem? hj')).1
    omega
  have hpos : 0 < total (Finset.range g'.peer.length) (weightAt g'.peer) := by
    have h0 := List.getElem?_eq_getElem hlt
    have hwi := (hb.plain _ (List.mem_of_getElem? h0)).1
    rw [← weightAt_of_getElem? h0] at hwi
    have := Finset.single_le_sum hnonneg (Finset.mem_range.mpr hlt)
    unfold total
    omega
  have hmem := Finset.mem_range.mpr hlt
  refine ⟨?_,fun hdvd => ⟨?_,g'.peer[i],List.getElem?_eq_getElem hlt,?_⟩⟩
  · have := hb.run.count_mul_lt hpos hnonneg hmem
    rwa [hsum,hw] at this
  · have := hb.run.count_eq hpos hnonneg (by rw [hsum]; exact_mod_cast hdvd) hmem
    rw [hsum,hw] at this
    exact_mod_cast this
  · rw [hb.credits i _ (List.getElem?_eq_getElem hlt)]
    exact hb.run.credit_eq_zero hpos hnonneg (by rw [hsum]; exact_mod_cast hdvd) hmem

/-- A server of the load balancing note, with one address. -/
def noteServer (weight : ℕ) (backup : Bool) : UpstreamServer :=
  ⟨"backend",[⟨0,16,"backend"⟩],weight,0,1,10,false,backup⟩

/-- The upstream of the load balancing note. -/
def noteConf : UpstreamSrvConf :=
  ⟨some [noteServer 5 false,noteServer 1 false,noteServer 1 true],"backend",0⟩

def noteUpstream : Upstream where
  primary := ⟨2,6,false,true,"backend",fillPeers false [noteServer 5 false,noteServer 1 false]⟩
  backup := some ⟨1,1,false,false,"backend",fillPeers true [noteServer 1 true]⟩

lemma initRoundRobin_note :
    initRoundRobin (fun _ => true) (fun _ _ => none) noteConf = .ok noteUpstream := by decide

/-- Out of every 6 requests, 5 are sent to the first server and 1 to the second. -/
theorem groupRun_proportional_note : ∃ u' chosen,
    groupRun .primary noteUpstream (List.replicate 6 (.select 0)) = .ok (u',chosen) ∧
      chosen.length = 6 ∧ chosen.count 0 = 5 ∧ chosen.count 1 = 1 := by
  obtain ⟨u',g',chosen,hrun,-,hlength,hcount⟩ :=
    groupRun_proportional initRoundRobin_note (rfl : noteUpstream.group .primary = some noteUpstream.primary)
      (by decide) (by unfold RrPeers.Plain; decide) (List.replicate 6 (.select 0))
  have hlength : chosen.length = 6 := hlength
  obtain ⟨first,-⟩ := (hcount 0 _ rfl).2 (by rw [hlength]; decide)
  obtain ⟨second,-⟩ := (hcount 1 _ rfl).2 (by rw [hlength]; decide)
  rw [hlength] at first second
  exact ⟨u',chosen,hrun,hlength,Int.ofNat.inj first,Int.ofNat.inj second⟩

end InsideNginx.HttpUpstream
