import InsideNginx.General.TransitionSystem
import InsideNginx.HttpUpstream.Balancers
import InsideNginx.HttpUpstream.Proportional

/-! Any number of requests on any number of upstreams, in any interleaving. A request
selects with any of the balancers, and releases the peer it got before it selects again. -/
namespace InsideNginx.HttpUpstream

/-- The `peer.get` functions. -/
inductive Balancer
  | roundRobin
  | leastConn
  | ipHash
  deriving DecidableEq, Repr

def Balancer.get : Balancer → ℤ → Upstream → Request → Outcome
  | .roundRobin => getRoundRobinPeer
  | .leastConn => getLeastConnPeer
  | .ipHash => getIpHashPeer

/-- A request with the upstream it was initialised for and what a run records about it:
the peer it holds, and every peer it got, in order. -/
structure Session (κ : Type) where
  us : κ
  req : Request
  holds : Option PeerPtr
  got : List PeerPtr
  deriving DecidableEq, Repr

structure World (κ : Type) where
  ups : κ → Upstream
  sessions : List (Session κ)

inductive Action (κ : Type)
  | init (us : κ) (pcalloc : Bool) (addr : List ℕ)
  | select (i : ℕ) (balancer : Balancer) (now : ℤ)
  | free (i : ℕ) (now : ℤ) (peerFailed : Bool)
  deriving DecidableEq, Repr

/-- The session after a `get` call. -/
def Session.selected {κ : Type} (s : Session κ) (rc : Rc) (req : Request) : Session κ :=
  match rc with
  | .ok => { s with req := req, holds := req.rrp.current, got := s.got ++ req.rrp.current.toList }
  | .busy => { s with req := req }

def Session.released {κ : Type} (s : Session κ) (req : Request) : Session κ :=
  { s with req := req, holds := none }

variable {κ : Type} [DecidableEq κ]

/-- Store an upstream and a session after a call. -/
def World.update (w : World κ) (us : κ) (u : Upstream) (i : ℕ) (s : Session κ) : World κ :=
  ⟨Function.update w.ups us u,w.sessions.set i s⟩

/-- One step of the interleaving; `none` when the action is not allowed or its call does
not return. -/
def World.step (w : World κ) : Action κ → Option (World κ)
  | .init us pcalloc addr =>
    (initIpHashPeer pcalloc (w.ups us) addr).map fun req =>
      { w with sessions := w.sessions ++ [⟨us,req,none,[]⟩] }
  | .select i balancer now =>
    w.sessions[i]?.bind fun s =>
      if s.holds = none then
        match balancer.get now (w.ups s.us) s.req with
        | .ok (rc,u,req) => some (w.update s.us u i (s.selected rc req))
        | .error _ => none
      else none
  | .free i now peerFailed =>
    w.sessions[i]?.bind fun s =>
      if s.holds = none then none
      else
        match freeRoundRobinPeer now peerFailed (w.ups s.us) s.req with
        | .ok (u,req) => some (w.update s.us u i (s.released req))
        | .error _ => none

/-- The balancing system over a family of configured upstreams. -/
def balancing (pcalloc : κ → ℕ → Bool) (resolve : String → ℕ → Option (List UpstreamAddr))
    (conf : κ → UpstreamSrvConf) : TransitionSystem (World κ) (Action κ) :=
  .ofFunction (fun w => w.sessions = [] ∧ ∀ us, initRoundRobin (pcalloc us) resolve (conf us) = .ok (w.ups us))
    World.step

/-- The number of requests that hold a peer. -/
def World.holders (w : World κ) (us : κ) (ptr : PeerPtr) : ℕ :=
  w.sessions.countP fun s => decide (s.us = us ∧ s.holds = some ptr)

/-- Dereference a pointer to a peer. -/
def Upstream.peerAt (u : Upstream) (ptr : PeerPtr) : Option RrPeer :=
  (u.group ptr.1).bind fun g => g.peer[ptr.2]?

/-! ### What a call leaves as it was -/

/-- Everything of a group that no call changes. -/
def RrPeers.shape (g : RrPeers) : ℕ × ℕ × Bool × Bool × String × List (ℤ × ℕ × ℕ × ℤ × Bool) :=
  (g.number,g.totalWeight,g.single,g.weighted,g.name,g.peer.map (·.config))

/-- Both groups have kept their shape. -/
def Upstream.SameShape (u u' : Upstream) : Prop :=
  ∀ ptr, (u'.group ptr).map RrPeers.shape = (u.group ptr).map RrPeers.shape

theorem Upstream.SameShape.refl (u : Upstream) : u.SameShape u := fun _ => rfl

theorem Upstream.SameShape.trans {u v w : Upstream} (h : u.SameShape v) (h' : v.SameShape w) :
    u.SameShape w := fun ptr => (h' ptr).trans (h ptr)

theorem Upstream.SameShape.group {u u' : Upstream} (h : u.SameShape u') {ptr : PeersPtr} {g' : RrPeers}
    (hg : u'.group ptr = some g') : ∃ g, u.group ptr = some g ∧ g'.shape = g.shape := by
  have hs := h ptr
  rw [hg,Option.map_some] at hs
  obtain ⟨g,hg,he⟩ := Option.map_eq_some_iff.mp hs.symm
  exact ⟨g,hg,he.symm⟩

theorem Upstream.SameShape.symm {u u' : Upstream} (h : u.SameShape u') : u'.SameShape u :=
  fun ptr => (h ptr).symm

lemma RrPeers.shape_eq_iff {g g' : RrPeers} : g'.shape = g.shape ↔ g'.number = g.number ∧
    g'.totalWeight = g.totalWeight ∧ g'.single = g.single ∧ g'.weighted = g.weighted ∧
    g'.name = g.name ∧ g'.peer.map (·.config) = g.peer.map (·.config) := by
  simp [RrPeers.shape]

theorem Upstream.group_store_ne {u : Upstream} {ptr other : PeersPtr} (h : other ≠ ptr)
    (peers : List RrPeer) : (u.store ptr peers).group other = u.group other := by
  cases ptr <;> cases other <;> simp_all [Upstream.store,Upstream.group]

theorem Upstream.store_sameShape {u : Upstream} {ptr : PeersPtr} {g : RrPeers} {peers : List RrPeer}
    (hg : u.group ptr = some g) (hc : peers.map (·.config) = g.peer.map (·.config)) :
    u.SameShape (u.store ptr peers) := by
  intro other
  by_cases h : other = ptr
  · subst h
    rw [Upstream.group_store hg,hg]
    simp [RrPeers.shape,hc]
  · rw [Upstream.group_store_ne h]

theorem RrPeers.Sound.of_shape {g g' : RrPeers} (h : g.Sound) (hs : g'.shape = g.shape) : g'.Sound := by
  obtain ⟨hn,ht,-,-,-,hc⟩ := RrPeers.shape_eq_iff.mp hs
  have hl : g'.peer.length = g.peer.length := by simpa using congrArg List.length hc
  refine ⟨by rw [hn,hl,h.number],?_,fun peer' hp => ?_⟩
  · rw [ht,h.totalWeight]
    simp only [weightSum,weights_of_config hc]
  · obtain ⟨i,hi⟩ := List.mem_iff_getElem?.mp hp
    obtain ⟨peer,hpeer,he⟩ := config_getElem? hc hi
    have hw : peer'.weight = peer.weight := congrArg Prod.fst he
    rw [hw]
    exact h.weight_nonneg peer (List.mem_of_getElem? hpeer)

theorem Upstream.Sound.of_sameShape {u u' : Upstream} (h : u.Sound) (hs : u.SameShape u') : u'.Sound where
  group ptr g' hg' := by
    obtain ⟨g,hg,he⟩ := hs.group hg'
    exact (h.group ptr g hg).of_shape he
  primary_single hsingle := by
    obtain ⟨g,hg,he⟩ := hs.group (rfl : u'.group .primary = some u'.primary)
    obtain rfl : u.primary = g := by simpa [Upstream.group] using hg
    obtain ⟨hn,-,hsing,-⟩ := RrPeers.shape_eq_iff.mp he
    obtain ⟨hb,hnum⟩ := h.primary_single (hsing ▸ hsingle)
    have hbackup := hs .backup
    simp only [Upstream.group,hb,Option.map_none,Option.map_eq_none_iff] at hbackup
    exact ⟨hbackup,hn.trans hnum⟩
  backup_single g' hg' := by
    obtain ⟨g,hg,he⟩ := hs.group (show u'.group .backup = some g' from hg')
    exact (RrPeers.shape_eq_iff.mp he).2.2.1.trans (h.backup_single g hg)

theorem Covers.of_sameShape {u u' : Upstream} {tried : Tried} (h : Covers u tried)
    (hs : u.SameShape u') : Covers u' tried := by
  intro ptr g' hg'
  obtain ⟨g,hg,he⟩ := hs.group hg'
  rw [(RrPeers.shape_eq_iff.mp he).1]
  exact h ptr g hg

/-! ### What a call changes -/

theorem Upstream.peerAt_store {u : Upstream} {ptr : PeersPtr} {g : RrPeers} (hg : u.group ptr = some g)
    (peers : List RrPeer) (q : PeerPtr) :
    (u.store ptr peers).peerAt q = if q.1 = ptr then peers[q.2]? else u.peerAt q := by
  obtain ⟨other,i⟩ := q
  by_cases ho : other = ptr
  · subst ho; simp [Upstream.peerAt,Upstream.group_store hg]
  · simp [Upstream.peerAt,Upstream.group_store_ne ho,ho]

/-- A change of one peer leaves the others as they are. -/
theorem Upstream.peerAt_modify {u : Upstream} {ptr : PeerPtr} {g : RrPeers} (hg : u.group ptr.1 = some g)
    (f : RrPeer → RrPeer) (q : PeerPtr) :
    (u.store ptr.1 (g.peer.modify ptr.2 f)).peerAt q = (u.peerAt q).map fun peer => if q = ptr then f peer else peer := by
  rw [Upstream.peerAt_store hg]
  split
  · rename_i hq
    have hold : u.peerAt q = g.peer[q.2]? := by simp [Upstream.peerAt,hq,hg]
    rw [hold,List.getElem?_modify]
    simp only [Prod.ext_iff,hq,true_and,eq_comm]
    rfl
  · rename_i hq
    have hne : q ≠ ptr := fun heq => hq (congrArg Prod.fst heq)
    simp [hne]

/-- The connection counts after a call that adds or removes a connection of one peer. -/
def Recounts (u u' : Upstream) (f : PeerPtr → ℕ → ℕ) : Prop :=
  ∀ ptr peer', u'.peerAt ptr = some peer' → ∃ peer, u.peerAt ptr = some peer ∧
    peer'.config = peer.config ∧ peer'.conns = f ptr peer.conns

theorem store_recounts {u : Upstream} {ptr : PeersPtr} {g : RrPeers} {peers : List RrPeer} {p : ℕ}
    {f : ℕ → ℕ} (hg : u.group ptr = some g) (hconfig : peers.map (·.config) = g.peer.map (·.config))
    (hconns : peers.map (·.conns) = (g.peer.map (·.conns)).modify p f) :
    Recounts u (u.store ptr peers) fun q c => if q = (ptr,p) then f c else c := by
  rintro q peer' hp
  rw [Upstream.peerAt_store hg] at hp
  split at hp
  · rename_i hq
    obtain ⟨peer,hpeer,hc⟩ := config_getElem? hconfig hp
    refine ⟨peer,by simpa [Upstream.peerAt,hq,hg] using hpeer,hc,?_⟩
    have hn := congrArg (·[q.2]?) hconns
    by_cases hpi : p = q.2
    · subst hpi
      simp only [List.getElem?_map,hp,List.getElem?_modify_eq,hpeer,Option.map_some] at hn
      simpa [Prod.ext_iff,hq] using hn
    · simp only [List.getElem?_map,hp,List.getElem?_modify_ne _ _ hpi,hpeer,Option.map_some,
        Option.some.injEq] at hn
      simp [hn,Prod.ext_iff,Ne.symm hpi]
  · rename_i hq
    exact ⟨peer',hp,rfl,by simp [Prod.ext_iff,hq]⟩

/-- A selection adds one connection to the peer it stores in `rrp->current`, which was below
its limit. -/
theorem Served.ok_effect {now : ℤ} {u u' : Upstream} {rrp rrp' : RrPeerData}
    (h : Served now u rrp .ok u' rrp') :
    ∃ ptr, rrp'.current = some ptr ∧ rrp'.peers = ptr.1 ∧ rrp'.tried.length = rrp.tried.length ∧
      u.SameShape u' ∧ (Recounts u u' fun q c => if q = ptr then c + 1 else c) ∧
      ∃ peer, u.peerAt ptr = some peer ∧ peer.atLimit = false := by
  have hpeer : ∀ {ptr : PeersPtr} {g : RrPeers} {tried : Tried} {p : ℕ} {peers : List RrPeer},
      u.group ptr = some g → Chosen now g tried p peers →
      ∃ peer, u.peerAt (ptr,p) = some peer ∧ peer.atLimit = false := by
    intro ptr g tried p peers hg hch
    obtain ⟨peer,hp,hs⟩ := hch.canServe
    refine ⟨peer,by simpa [Upstream.peerAt,hg] using hp,?_⟩
    unfold RrPeers.canServe at hs
    split at hs
    · simp only [Bool.and_eq_true,Bool.not_eq_true'] at hs; exact hs.2
    · exact (eligible_eq_true.mp hs).2.2.2
  cases h with
  | @here g p peers _ group chosen took =>
    exact ⟨(rrp.peers,p),took.current,took.peers,took.length,
      Upstream.store_sameShape group chosen.config,store_recounts group chosen.config chosen.conns,
      hpeer group chosen⟩
  | @next g next p peers rrp₁ _ group exhausted hnext switched chosen took =>
    have hb := (Upstream.next_eq_some hnext).2
    refine ⟨(.backup,p),switched.peers ▸ took.current,took.peers.trans switched.peers,
      took.length.trans switched.length,Upstream.store_sameShape hb chosen.config,
      store_recounts hb chosen.config chosen.conns,hpeer hb chosen⟩

/-- NGX_BUSY leaves the peers alone. -/
theorem Served.busy_effect {now : ℤ} {u u' : Upstream} {rrp rrp' : RrPeerData}
    (h : Served now u rrp .busy u' rrp') :
    u' = u ∧ rrp'.tried.length = rrp.tried.length ∧ ∃ g, u.group rrp'.peers = some g := by
  cases h with
  | busyNext group exhausted hnext switched =>
    exact ⟨rfl,switched.length,_,switched.peers ▸ (Upstream.next_eq_some hnext).2⟩
  | busy group => exact ⟨rfl,rfl,_,group⟩

/-! ### The calls of a request -/

/-- ip_hash divides by the total weight of the group when it probes. -/
theorem getIpHashPeer_divByZero {now : ℤ} {u : Upstream} {g : RrPeers} {r : Request}
    (hg : u.group r.rrp.peers = some g) (hw : g.totalWeight = 0)
    (hprobe : (decide (20 < r.iphp.tries) || g.single) = false) :
    getIpHashPeer now u r = .error .divByZero := by
  simp [getIpHashPeer,hg,hprobe,ipHashLoop,ipHashProbe,hw,orFault,bind,Except.bind]

/-- ip_hash hands over to round robin when it does not probe. -/
theorem getIpHashPeer_roundRobin {now : ℤ} {u : Upstream} {g : RrPeers} {r : Request}
    (hg : u.group r.rrp.peers = some g)
    (hprobe : (decide (20 < r.iphp.tries) || g.single) = true) :
    getIpHashPeer now u r = getRoundRobinPeer now u r := by
  simp [getIpHashPeer,hg,hprobe,orFault,bind,Except.bind]

/-- Every call serves the request, unless ip_hash divides by zero. -/
theorem Balancer.serves_or {u : Upstream} {g : RrPeers} {r : Request} (hu : u.Sound)
    (hcov : Covers u r.rrp.tried) (hg : u.group r.rrp.peers = some g) (balancer : Balancer) (now : ℤ) :
    Serves now (balancer.get now) u r ∨
      balancer = .ipHash ∧ g.totalWeight = 0 ∧ balancer.get now u r = .error .divByZero := by
  cases balancer with
  | roundRobin => exact .inl (getRoundRobinPeer_serves now r hu hcov hg)
  | leastConn => exact .inl (getLeastConnPeer_serves hu hcov hg)
  | ipHash =>
    by_cases hw : g.totalWeight = 0
    · cases hprobe : (decide (20 < r.iphp.tries) || g.single) with
      | false => exact .inr ⟨rfl,hw,getIpHashPeer_divByZero hg hw hprobe⟩
      | true =>
        obtain ⟨rc,u',r',hcall,hserved⟩ := getRoundRobinPeer_serves now r hu hcov hg
        exact .inl ⟨rc,u',r',(getIpHashPeer_roundRobin hg hprobe).trans hcall,hserved⟩
    · exact .inl (getIpHashPeer_serves hu hcov hg hw)

/-- A call that returns has served the request. -/
theorem Balancer.served {now : ℤ} {u u' : Upstream} {g : RrPeers} {r r' : Request} {rc : Rc}
    (hu : u.Sound) (hcov : Covers u r.rrp.tried) (hg : u.group r.rrp.peers = some g)
    {balancer : Balancer} (h : balancer.get now u r = .ok (rc,u',r')) :
    Served now u r.rrp rc u' r'.rrp := by
  rcases balancer.serves_or hu hcov hg now with ⟨rc₁,u₁,r₁,hcall,hserved⟩ | ⟨-,-,herror⟩
  · rw [h] at hcall
    cases hcall
    exact hserved
  · rw [h] at herror
    cases herror

end InsideNginx.HttpUpstream
