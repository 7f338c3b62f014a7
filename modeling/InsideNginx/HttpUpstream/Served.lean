import InsideNginx.HttpUpstream.Selection

/-! One specification of the three selection calls: the peer comes from the current group, or
from the backup group when the current group is exhausted, and NGX_BUSY leaves the peers alone. -/
namespace InsideNginx.HttpUpstream

/-- The effect of choosing position `p` on the peers of a group. -/
structure Chosen (now : ℤ) (g : RrPeers) (tried : Tried) (p : ℕ) (peers : List RrPeer) : Prop where
  canServe : ∃ peer, g.peer[p]? = some peer ∧ g.canServe now tried p peer = true
  config : peers.map (·.config) = g.peer.map (·.config)
  conns : peers.map (·.conns) = (g.peer.map (·.conns)).modify p (· + 1)

/-- The request data after position `p` of its current group has been chosen. -/
structure Took (g : RrPeers) (rrp : RrPeerData) (p : ℕ) (rrp' : RrPeerData) : Prop where
  peers : rrp'.peers = rrp.peers
  current : rrp'.current = some (rrp.peers,p)
  length : rrp'.tried.length = rrp.tried.length
  single : g.single = true → rrp'.tried = rrp.tried
  bit : g.single = false → ∀ j, WordBitset.bit rrp'.tried j = (WordBitset.bit rrp.tried j || decide (j = p))

/-- The request data after the switch to a backup group. -/
structure Switched (next : RrPeers) (rrp rrp' : RrPeerData) : Prop where
  peers : rrp'.peers = .backup
  current : rrp'.current = rrp.current
  length : rrp'.tried.length = rrp.tried.length
  bit : ∀ j, WordBitset.bit rrp'.tried j =
    (decide (triedWords next.number ≤ j/64) && WordBitset.bit rrp.tried j)

/-- The specification of a selection call. -/
inductive Served (now : ℤ) (u : Upstream) (rrp : RrPeerData) : Rc → Upstream → RrPeerData → Prop
  | here {g p peers rrp'} (group : u.group rrp.peers = some g) (chosen : Chosen now g rrp.tried p peers)
      (took : Took g rrp p rrp') : Served now u rrp .ok (u.store rrp.peers peers) rrp'
  | next {g next p peers rrp₁ rrp'} (group : u.group rrp.peers = some g)
      (exhausted : g.Exhausted now rrp.tried) (hnext : u.next rrp.peers = some next)
      (switched : Switched next rrp rrp₁) (chosen : Chosen now next rrp₁.tried p peers)
      (took : Took next rrp₁ p rrp') : Served now u rrp .ok (u.store .backup peers) rrp'
  | busyNext {g next rrp'} (group : u.group rrp.peers = some g)
      (exhausted : g.Exhausted now rrp.tried) (hnext : u.next rrp.peers = some next)
      (switched : Switched next rrp rrp') (exhaustedNext : next.Exhausted now rrp'.tried) :
      Served now u rrp .busy u rrp'
  | busy {g} (group : u.group rrp.peers = some g) (exhausted : g.Exhausted now rrp.tried)
      (hnext : u.next rrp.peers = none) : Served now u rrp .busy u rrp

/-- What every selection relies on in a group, and what all of them keep. -/
structure RrPeers.Sound (g : RrPeers) : Prop where
  number : g.number = g.peer.length
  totalWeight : (g.totalWeight : ℤ) = weightSum g.peer
  weight_nonneg : ∀ peer ∈ g.peer, 0 ≤ peer.weight

theorem RrPeers.Sound.lt_number {g : RrPeers} (h : g.Sound) {p : ℕ} {peer : RrPeer} (hp : g.peer[p]? = some peer) :
    p < g.number :=
  h.number ▸ (List.getElem?_eq_some_iff.mp hp).1

structure Upstream.Sound (u : Upstream) : Prop where
  group : ∀ ptr g, u.group ptr = some g → g.Sound
  primary_single : u.primary.single = true → u.backup = none ∧ u.primary.number = 1
  backup_single : ∀ g, u.backup = some g → g.single = false

/-- The bitmap of a request has a bit for every peer of both groups of its upstream. -/
def Covers (u : Upstream) (tried : Tried) : Prop :=
  ∀ ptr g, u.group ptr = some g → Fits tried g.number

theorem Covers.of_length {u : Upstream} {tried tried' : Tried} (h : Covers u tried)
    (hl : tried'.length = tried.length) : Covers u tried' :=
  fun ptr g hg => by simpa only [Fits,hl] using h ptr g hg

theorem Upstream.WellBuilt.group {u : Upstream} (h : u.WellBuilt) {ptr : PeersPtr} {g : RrPeers}
    (hg : u.group ptr = some g) : g.WellBuilt := by
  cases ptr with
  | primary => cases hg; exact h.primary
  | backup => exact (h.backup g hg).1

theorem Upstream.WellBuilt.sound {u : Upstream} (h : u.WellBuilt) : u.Sound where
  group _ _ hg := ⟨(h.group hg).number_eq,(h.group hg).totalWeight_eq,(h.group hg).weight_nonneg⟩
  primary_single := h.single
  backup_single g hg := (h.backup g hg).2.1

/-- A single group has one peer, and nothing after it. -/
theorem Upstream.Sound.single {u : Upstream} (h : u.Sound) {ptr : PeersPtr} {g : RrPeers}
    (hg : u.group ptr = some g) (hs : g.single = true) :
    (∃ peer, g.peer = [peer]) ∧ u.next ptr = none := by
  cases ptr with
  | primary =>
    obtain rfl : u.primary = g := by simpa [Upstream.group] using hg
    obtain ⟨hb,hn⟩ := h.primary_single hs
    have hl := (h.group .primary u.primary rfl).number
    exact ⟨List.length_eq_one_iff.mp (by omega),hb⟩
  | backup => exact absurd hs (by simp [h.backup_single g hg])

theorem Upstream.next_eq_some {u : Upstream} {ptr : PeersPtr} {next : RrPeers}
    (h : u.next ptr = some next) : ptr = .primary ∧ u.group .backup = some next := by
  cases ptr with
  | primary => exact ⟨rfl,h⟩
  | backup => cases h

/-! ### Selection in one group -/

/-- What the part of a call that looks at one group produces. -/
inductive InGroup (now : ℤ) (u : Upstream) (g : RrPeers) (rrp : RrPeerData) :
    Option (Upstream × Request) → Prop
  | failed (exhausted : g.Exhausted now rrp.tried) : InGroup now u g rrp none
  | chosen {p peers r'} (chosen : Chosen now g rrp.tried p peers) (took : Took g rrp p r'.rrp) :
      InGroup now u g rrp (some (u.store rrp.peers peers,r'))

lemma eligible_of_several {g : RrPeers} (hs : g.single = false) (now : ℤ) (tried : Tried) (i : ℕ)
    (peer : RrPeer) : g.canServe now tried i peer = eligible now tried i peer := by
  simp [RrPeers.canServe,hs]

lemma map_modify_eq {α : Type} (f : RrPeer → α) (step : RrPeer → RrPeer)
    (h : ∀ peer, f (step peer) = f peer) (peers : List RrPeer) (p : ℕ) :
    (peers.modify p step).map f = peers.map f := by
  apply List.ext_getElem?
  intro j
  by_cases hp : p = j
  · cases hj : peers[j]? <;> simp [hp,hj,h]
  · simp [hp]

lemma map_conns_modify (step : RrPeer → RrPeer) (f : ℕ → ℕ)
    (h : ∀ peer : RrPeer, (step peer).conns = f peer.conns) (peers : List RrPeer) (p : ℕ) :
    (peers.modify p step).map (·.conns) = (peers.map (·.conns)).modify p f := by
  apply List.ext_getElem?
  intro j
  by_cases hp : p = j
  · cases hj : peers[j]? <;> simp [hp,hj,h]
  · simp [hp]

theorem getPeer_spec (now : ℤ) (peers : List RrPeer) (rrp : RrPeerData)
    (hfit : Fits rrp.tried peers.length) :
    (getPeer now peers rrp = .ok none ∧
      ∀ i peer, peers[i]? = some peer → eligible now rrp.tried i peer = false) ∨
    ∃ p peer b tried, peers[p]? = some peer ∧ eligible now rrp.tried p peer = true ∧
      chargeBest now rrp.tried 0 peers none = some (p,b) ∧
      tried.length = rrp.tried.length ∧
      (∀ j, WordBitset.bit tried j = (WordBitset.bit rrp.tried j || decide (j = p))) ∧
      getPeer now peers rrp = .ok (some (p,
        (chargeAll now rrp.tried 0 peers).modify p
          (·.settle now (chargeTotal now rrp.tried 0 peers)),
        { rrp with current := some (rrp.peers,p), tried := tried })) := by
  have hloop := getPeerLoop_eq now rrp.tried 0 peers 0 none (by simpa using hfit)
  cases hb : chargeBest now rrp.tried 0 peers none with
  | none =>
    left
    rw [hb] at hloop
    refine ⟨by simp [getPeer,hloop,bind,Except.bind,pure,Except.pure],fun i peer hi => ?_⟩
    simpa using (chargeBest_none hb).2 i peer hi
  | some best =>
    obtain ⟨p,b⟩ := best
    right
    rcases chargeBest_mem hb with h | ⟨j,peer,hp,hj,he,hc⟩
    · cases h
    obtain rfl : p = j := by omega
    have hlt : p < peers.length := by
      rw [List.getElem?_eq_some_iff] at hj; exact hj.1
    obtain ⟨tried,hset,hlength,hbit⟩ := triedSet_eq hfit hlt
    rw [hb] at hloop
    refine ⟨p,peer,b,tried,hj,he,rfl,hlength,hbit,?_⟩
    simp [getPeer,hloop,hset,bind,Except.bind,pure,Except.pure]

theorem getRoundRobinInGroup_spec (now : ℤ) {u : Upstream} {g : RrPeers} (r : Request)
    (hu : u.Sound) (hcov : Covers u r.rrp.tried) (hg : u.group r.rrp.peers = some g) :
    ∃ result, getRoundRobinInGroup now u r = .ok result ∧ InGroup now u g r.rrp result := by
  have hfit := hcov _ _ hg
  have hnumber := (hu.group _ _ hg).number
  by_cases hs : g.single = true
  · obtain ⟨⟨peer,hpeer⟩,-⟩ := hu.single hg hs
    by_cases hd : (!peer.down && !peer.atLimit) = true
    · refine ⟨some (u.store r.rrp.peers (g.peer.modify 0 (·.hold)),
        { r with pc := r.pc.fill peer, rrp := { r.rrp with current := some (r.rrp.peers,0) } }),?_,?_⟩
      · simp only [Bool.and_eq_true,Bool.not_eq_true'] at hd
        simp [getRoundRobinInGroup,hg,hs,hpeer,hd,orFault,bind,Except.bind,pure,Except.pure]
      · refine .chosen ⟨⟨peer,by simp [hpeer],by simpa [RrPeers.canServe,hs] using hd⟩,?_,?_⟩
          ⟨rfl,rfl,rfl,fun _ => rfl,by simp [hs]⟩
        · exact map_modify_eq _ _ config_hold _ _
        · exact map_conns_modify _ _ conns_hold _ _
    · refine ⟨none,?_,.failed ?_⟩
      · cases hdown : peer.down <;>
          simp_all [getRoundRobinInGroup,orFault,bind,Except.bind,pure,Except.pure]
      · intro i other hi
        cases i with
        | zero =>
          obtain rfl : peer = other := by simpa [hpeer] using hi
          simpa only [RrPeers.canServe,hs,if_true,Bool.not_eq_true] using hd
        | succ i => simp [hpeer] at hi
  · have hs' : g.single = false := by simpa using hs
    rcases getPeer_spec now g.peer r.rrp (hnumber ▸ hfit) with
      ⟨hnone,hex⟩ | ⟨p,peer,b,tried,hp,he,-,hlength,hbit,hsome⟩
    · refine ⟨none,?_,.failed fun i other hi => ?_⟩
      · simp [getRoundRobinInGroup,hg,hs',hnone,orFault,bind,Except.bind,pure,Except.pure]
      · rw [eligible_of_several hs']; exact hex i other hi
    · set list := (chargeAll now r.rrp.tried 0 g.peer).modify p
        (·.settle now (chargeTotal now r.rrp.tried 0 g.peer)) with hlist
      have hconfig : list.map (·.config) = g.peer.map (·.config) := by
        rw [hlist,map_modify_eq _ _ (fun peer => config_settle peer _ _),
          chargeAll_map _ config_charge]
      have hconns : list.map (·.conns) = g.peer.map (·.conns) := by
        rw [hlist,map_modify_eq _ _ (fun peer => conns_settle peer _ _),
          chargeAll_map _ conns_charge]
      have hlt : p < list.length := by
        have hl := congrArg List.length hconfig
        simp only [List.length_map] at hl
        rw [List.getElem?_eq_some_iff] at hp
        exact hl ▸ hp.1
      refine ⟨some (u.store r.rrp.peers (list.modify p (·.hold)),
        { r with pc := r.pc.fill list[p], rrp := { r.rrp with current := some (r.rrp.peers,p), tried := tried } }),?_,?_⟩
      · simp [getRoundRobinInGroup,hg,hs',hsome,hlt,orFault,bind,Except.bind,pure,Except.pure]
      · refine .chosen ⟨⟨peer,hp,by rw [eligible_of_several hs']; exact he⟩,?_,?_⟩
          ⟨rfl,rfl,hlength,by simp [hs'],fun _ => hbit⟩
        · rw [map_modify_eq _ _ config_hold,hconfig]
        · rw [map_conns_modify _ _ conns_hold,hconns]

/-! ### The calls -/

/-- A call that meets the specification. -/
def Serves (now : ℤ) (call : Upstream → Request → Outcome) (u : Upstream) (r : Request) : Prop :=
  ∃ rc u' r', call u r = .ok (rc,u',r') ∧ Served now u r.rrp rc u' r'.rrp

/-- The recursive call of a selection is made in the next group, with its words cleared. -/
def ServesNext (now : ℤ) (again : Upstream → Request → Outcome) (u : Upstream) (rrp : RrPeerData) : Prop :=
  ∀ next r, u.next rrp.peers = some next → Switched next rrp r.rrp → Serves now again u r

/-- The code after `failed` turns an exhausted group into a call in the next one. -/
theorem failed_serves {now : ℤ} {u : Upstream} {g : RrPeers} {r : Request}
    {again : Upstream → Request → Outcome} (hcov : Covers u r.rrp.tried)
    (hg : u.group r.rrp.peers = some g) (hex : g.Exhausted now r.rrp.tried)
    (hagain : ServesNext now again u r.rrp) : Serves now (failed again) u r := by
  cases hn : u.next r.rrp.peers with
  | none =>
    refine ⟨.busy,u,{ r with pc := { r.pc with name := some g.name } },?_,.busy hg hex hn⟩
    simp [failed,hg,hn,orFault,bind,Except.bind,pure,Except.pure]
  | some next =>
    have hnext := (Upstream.next_eq_some hn).2
    obtain ⟨tried,hclear,hlength,hbit⟩ := triedClear_eq (hcov _ _ hnext)
    let r₁ : Request := { r with rrp := { r.rrp with peers := .backup, tried := tried } }
    have hsw : Switched next r.rrp r₁.rrp := ⟨rfl,rfl,hlength,hbit⟩
    have hgroup : u.group r₁.rrp.peers = some next := hnext
    obtain ⟨rc,u',r',hcall,hserved⟩ := hagain next r₁ hn hsw
    have hrun : ∃ r'', failed again u r = .ok (rc,u',r'') ∧ r''.rrp = r'.rrp := by
      have hcall : again u { r with rrp := { r.rrp with peers := .backup, tried := tried } } =
        .ok (rc,u',r') := hcall
      cases rc <;> simp [failed,hg,hn,hclear,hcall,orFault,bind,Except.bind,pure,Except.pure]
    obtain ⟨r'',hrun,hsame⟩ := hrun
    rw [← hsame] at hserved
    generalize hrrp : r''.rrp = rrp' at hserved
    cases hserved with
    | here group chosen took =>
      obtain rfl := Option.some.inj (hgroup.symm.trans group)
      exact ⟨.ok,_,r'',hrun,hrrp ▸ .next hg hex hn hsw chosen took⟩
    | next _ _ hnext' => cases hnext'
    | busyNext _ _ hnext' => cases hnext'
    | busy group exhausted _ =>
      obtain rfl := Option.some.inj (hgroup.symm.trans group)
      refine ⟨.busy,u,r'',hrun,.busyNext hg hex hn ?_ ?_⟩
      · exact hrrp ▸ hsw
      · exact hrrp ▸ exhausted

/-- A selection returns the chosen peer of its group, or jumps to `failed`. -/
theorem serves_of_inGroup {now : ℤ} {u : Upstream} {g : RrPeers} {r : Request}
    {call again : Upstream → Request → Outcome} {result : Option (Upstream × Request)}
    (hcov : Covers u r.rrp.tried) (hg : u.group r.rrp.peers = some g)
    (hin : InGroup now u g r.rrp result) (hagain : ServesNext now again u r.rrp) (pc : PeerConnection)
    (hcall : call u r = match result with
      | some (u,r) => .ok (.ok,u,r)
      | none => failed again u { r with pc := pc }) : Serves now call u r := by
  cases hin with
  | failed exhausted =>
    obtain ⟨rc,u',r',hrun,hserved⟩ :=
      failed_serves (r := { r with pc := pc }) hcov hg exhausted hagain
    exact ⟨rc,u',r',hcall.trans hrun,hserved⟩
  | chosen chosen took => exact ⟨.ok,_,_,hcall,.here hg chosen took⟩

theorem getRoundRobinPeerDepth_serves {now : ℤ} {u : Upstream} {depth : ℕ} {g : RrPeers} {r : Request}
    (hu : u.Sound) (hcov : Covers u r.rrp.tried) (hg : u.group r.rrp.peers = some g)
    (hagain : ServesNext now (getRoundRobinPeerDepth now depth) u r.rrp) :
    Serves now (getRoundRobinPeerDepth now (depth+1)) u r := by
  obtain ⟨result,hcall,hin⟩ := getRoundRobinInGroup_spec now
    { r with pc := { r.pc with cached := false, connection := none } } hu hcov hg
  refine serves_of_inGroup hcov hg hin hagain { r.pc with cached := false, connection := none } ?_
  simp only [getRoundRobinPeerDepth,hcall,bind,Except.bind,pure,Except.pure]
  cases result <;> rfl

/-- In the backup group there is no next group to call. -/
theorem servesNext_backup {now : ℤ} {again : Upstream → Request → Outcome} {u : Upstream}
    {rrp : RrPeerData} (h : rrp.peers = .backup) : ServesNext now again u rrp := by
  intro next r hn
  rw [h] at hn
  cases hn

theorem getRoundRobinPeer_serves (now : ℤ) {u : Upstream} {g : RrPeers} (r : Request) (hu : u.Sound)
    (hcov : Covers u r.rrp.tried) (hg : u.group r.rrp.peers = some g) :
    Serves now (getRoundRobinPeer now) u r :=
  getRoundRobinPeerDepth_serves hu hcov hg fun _ _ hn hsw =>
    getRoundRobinPeerDepth_serves hu (hcov.of_length hsw.length)
      (hsw.peers ▸ (Upstream.next_eq_some hn).2) (servesNext_backup hsw.peers)

end InsideNginx.HttpUpstream
