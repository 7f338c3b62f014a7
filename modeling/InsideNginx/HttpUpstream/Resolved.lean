import InsideNginx.HttpUpstream.Connections

/-! A request whose upstream is resolved while it runs: it gets a group of its own with one peer for each
address, and round robin goes through them in the order of the resolver. -/
namespace InsideNginx.HttpUpstream

/-- `ngx_http_upstream_resolved_t`; `sockaddr` and `name` are NULL for `none`. -/
structure UpstreamResolved where
  host : String
  port : ℕ
  naddrs : ℕ
  addrs : List UpstreamAddr
  sockaddr : Option ℕ
  socklen : ℕ
  name : Option String
  deriving DecidableEq, Repr

/-- `ngx_inet_set_port`, which gives a copy of the address here, and `ngx_sock_ntop`. -/
structure Inet where
  setPort : ℕ → ℕ → ℕ
  ntop : ℕ → ℕ → String

namespace UpstreamResolved

/-- The address that the loop makes of a resolved one. -/
def withPort (ur : UpstreamResolved) (inet : Inet) (addr : UpstreamAddr) : UpstreamAddr :=
  let sockaddr := inet.setPort addr.sockaddr ur.port
  ⟨sockaddr,addr.socklen,inet.ntop sockaddr addr.socklen⟩

/-- The loop over the addresses from `i` on, of which `k` are left; `n` allocations have been made. -/
def fill (ur : UpstreamResolved) (alloc : ℕ → Bool) (inet : Inet) :
    ℕ → ℕ → ℕ → Except Fault (Option (List RrPeer × ℕ))
  | _,0,n => .ok (some ([],n))
  | i,k+1,n => do
    let addr ← orFault .outOfBounds ur.addrs[i]?
    if !alloc n || !alloc (n+1) then return none
    else
      let rest ← ur.fill alloc inet (i+1) k (n+2)
      return rest.map fun (peers,n) => (implicitPeer (ur.withPort inet addr)::peers,n)

/-- The peers: the given address, or the loop over the resolved ones. -/
def link (ur : UpstreamResolved) (alloc : ℕ → Bool) (inet : Inet) (n : ℕ) : Except Fault (Option (List RrPeer × ℕ)) :=
  match ur.sockaddr with
  | some sockaddr =>
    if ur.naddrs = 0 then .error .outOfBounds
    else .ok (some ([implicitPeer ⟨sockaddr,ur.socklen,ur.name.getD ur.host⟩],n))
  | none => ur.fill alloc inet 0 ur.naddrs n

end UpstreamResolved

/-- `ngx_http_upstream_create_round_robin_peer`. `alloc` tells which of the allocations succeed, in the order
of the calls, and `data` whether `r->upstream->peer.data` is set. NGX_ERROR is `none`. -/
def createRoundRobinPeer (alloc : ℕ → Bool) (inet : Inet) (data : Bool) (r : Request) (ur : UpstreamResolved) :
    Except Fault (Option (Upstream × Request)) := do
  let n := if data then 0 else 1
  if !data && !alloc 0 then return none
  else if !alloc n || !alloc (n+1) then return none
  else
    match ← ur.link alloc inet (n+2) with
    | none => return none
    | some (peers,n) =>
      let u : Upstream := ⟨⟨ur.naddrs,0,ur.naddrs == 1,false,ur.host,peers⟩,none⟩
      let tried? : Option Tried :=
        if ur.naddrs ≤ 64 then some [0]
        else if alloc n then some (List.replicate (triedWords ur.naddrs) 0)
        else none
      return tried?.map fun tried =>
        (u,{ r with pc := { r.pc with tries := u.tries }, rrp := ⟨0,.primary,none,tried⟩ })

/-- The calls of the request that the upstream was made for. -/
def Action.Own : Action Unit → Prop
  | .select 0 .roundRobin _ | .free 0 _ _ => True
  | _ => False

instance : (a : Action Unit) → Decidable a.Own
  | .select 0 .roundRobin _ | .free 0 _ _ => inferInstanceAs (Decidable True)
  | .select (_+1) _ _ | .free (_+1) _ _ | .init _ _ _ | .select 0 .leastConn _ | .select 0 .ipHash _ =>
    inferInstanceAs (Decidable False)

/-- The request selects and releases peers by turns. -/
def resolving (alloc : ℕ → Bool) (inet : Inet) (data : Bool) (r : Request) (ur : UpstreamResolved) :
    TransitionSystem (World Unit) (Action Unit) :=
  .ofFunction (fun w => ∃ u req, createRoundRobinPeer alloc inet data r ur = .ok (some (u,req)) ∧
    w = ⟨fun _ => u,[⟨(),req,none,[]⟩]⟩) fun w a => if a.Own then w.step a else none

namespace UpstreamResolved

/-- The addresses in the order in which they are tried. -/
def candidates (ur : UpstreamResolved) (inet : Inet) : List UpstreamAddr :=
  match ur.sockaddr with
  | some sockaddr => [⟨sockaddr,ur.socklen,ur.name.getD ur.host⟩]
  | none => (ur.addrs.take ur.naddrs).map (ur.withPort inet)

theorem fill_eq {ur : UpstreamResolved} {alloc : ℕ → Bool} {inet : Inet} {i k n m : ℕ} {peers : List RrPeer}
    (h : ur.fill alloc inet i k n = .ok (some (peers,m))) :
    peers = (((ur.addrs.drop i).take k).map (ur.withPort inet)).map implicitPeer ∧ peers.length = k := by
  induction k generalizing i n peers with
  | zero =>
    cases h
    simp
  | succ k ih =>
    obtain ⟨addr,haddr,h⟩ := bind_ok h
    split at h
    · cases h
    obtain ⟨rest,hrest,h⟩ := bind_ok h
    obtain ⟨⟨tail,m'⟩,rfl,hpeers⟩ := Option.map_eq_some_iff.mp (Except.ok.inj h)
    cases hpeers
    obtain ⟨htail,hlength⟩ := ih hrest
    obtain ⟨hi,hget⟩ := List.getElem?_eq_some_iff.mp (orFault_ok haddr)
    rw [List.drop_eq_getElem_cons hi,List.take_succ_cons,hget]
    exact ⟨congrArg _ htail,congrArg (· + 1) hlength⟩

end UpstreamResolved

/-! ### The loop over peers of one weight -/

/-- A best peer that no later one exceeds stays. -/
theorem chargeBest_keep {now : ℤ} {tried : Tried} {i p : ℕ} {peers : List RrPeer} {b : RrPeer}
    (h : ∀ j peer, peers[j]? = some peer → eligible now tried (i+j) peer = true →
      peer.charge.currentWeight ≤ b.currentWeight) :
    chargeBest now tried i peers (some (p,b)) = some (p,b) := by
  induction peers generalizing i with
  | nil => rfl
  | cons peer rest ih =>
    have hrest := ih (i := i+1) fun j other hj he =>
      h (j+1) other (by simpa using hj) (by rwa [Nat.add_assoc,Nat.add_comm 1 j] at he)
    by_cases he : eligible now tried i peer = true
    · simp only [chargeBest,he,if_true,if_neg (not_lt.mpr (h 0 peer rfl he))]
      exact hrest
    · simp only [chargeBest,he]
      exact hrest

/-- Among peers of one weight the first eligible one is the best. -/
theorem chargeBest_first {now w : ℤ} {tried : Tried} {i p : ℕ} {peers : List RrPeer} {peer : RrPeer}
    (hp : peers[p]? = some peer) (he : eligible now tried (i+p) peer = true)
    (hbefore : ∀ j other, j < p → peers[j]? = some other → eligible now tried (i+j) other = false)
    (hweight : ∀ j other, peers[j]? = some other → eligible now tried (i+j) other = true →
      other.charge.currentWeight = w) :
    chargeBest now tried i peers none = some (i+p,peer.charge) := by
  induction peers generalizing i p with
  | nil => simp at hp
  | cons head rest ih =>
    have hshift : ∀ j other, rest[j]? = some other → eligible now tried (i+1+j) other = true →
        other.charge.currentWeight = w := fun j other hj hej =>
      hweight (j+1) other (by simpa using hj) (by rwa [Nat.add_assoc,Nat.add_comm 1 j] at hej)
    cases p with
    | zero =>
      obtain rfl : head = peer := by simpa using hp
      simp only [chargeBest,show eligible now tried i head = true from he,if_true]
      refine chargeBest_keep fun j other hj hej => ?_
      rw [hshift j other hj hej,hweight 0 head rfl he]
    | succ p =>
      have hhead : eligible now tried i head = false := hbefore 0 head (Nat.succ_pos p) rfl
      have hnext := ih (i := i+1) (p := p) (by simpa using hp)
        (by rwa [Nat.add_assoc,Nat.add_comm 1 p])
        (fun j other hlt hj => by
          have hj' := hbefore (j+1) other (by omega) (by simpa using hj)
          rwa [Nat.add_assoc,Nat.add_comm 1 j]) hshift
      simp only [chargeBest,hhead,Bool.false_eq_true,if_false,hnext]
      rw [Nat.add_assoc,Nat.add_comm 1 p]

theorem getElem?_chargeAll (now : ℤ) (tried : Tried) (i : ℕ) (peers : List RrPeer) (j : ℕ) :
    (chargeAll now tried i peers)[j]? =
      peers[j]?.map fun peer => if eligible now tried (i+j) peer then peer.charge else peer := by
  induction peers generalizing i j with
  | nil => simp [chargeAll]
  | cons peer rest ih =>
    cases j with
    | zero => simp [chargeAll]
    | succ j => simp [chargeAll,ih,Nat.add_assoc,Nat.add_comm 1 j]

/-! ### One call -/

/-- The address of a peer. -/
def RrPeer.addr (peer : RrPeer) : UpstreamAddr := ⟨peer.sockaddr,peer.socklen,peer.name⟩

/-- What a peer is given once and for all. -/
def RrPeer.given (peer : RrPeer) : (ℤ × ℕ × ℕ × ℤ × Bool) × UpstreamAddr := (peer.config,peer.addr)

/-- The group of several addresses after `k` selections. -/
structure Ordered (addrs : List UpstreamAddr) (name : String) (k : ℕ) (u : Upstream) (rrp : RrPeerData) : Prop where
  backup : u.backup = none
  several : u.primary.single = false
  name : u.primary.name = name
  addrs : u.primary.peer.map (·.addr) = addrs
  config : ∀ peer ∈ u.primary.peer, peer.config = (1,0,1,10,false)
  waiting : ∀ j peer, k ≤ j → u.primary.peer[j]? = some peer →
    peer.currentWeight = k ∧ peer.effectiveWeight = 1 ∧ peer.fails = 0
  group : rrp.peers = .primary
  fits : Fits rrp.tried u.primary.peer.length
  tried : ∀ j < u.primary.peer.length, WordBitset.bit rrp.tried j = decide (j < k)

namespace Ordered
variable {addrs : List UpstreamAddr} {name : String} {k : ℕ} {u : Upstream} {r : Request}

theorem length (h : Ordered addrs name k u r.rrp) : u.primary.peer.length = addrs.length := by
  rw [← h.addrs,List.length_map]

/-- A change of the peers that keeps what they were given. -/
theorem store {k' : ℕ} {rrp' : RrPeerData} {peers : List RrPeer} (h : Ordered addrs name k u r.rrp)
    (hgiven : peers.map RrPeer.given = u.primary.peer.map RrPeer.given)
    (hwaiting : ∀ j peer, k' ≤ j → peers[j]? = some peer →
      peer.currentWeight = k' ∧ peer.effectiveWeight = 1 ∧ peer.fails = 0)
    (hgroup : rrp'.peers = .primary) (htried : rrp'.tried.length = r.rrp.tried.length)
    (hbit : ∀ j < u.primary.peer.length, WordBitset.bit rrp'.tried j = decide (j < k')) :
    Ordered addrs name k' (u.store .primary peers) rrp' := by
  have hlength : peers.length = u.primary.peer.length := by simpa using congrArg List.length hgiven
  refine ⟨h.backup,h.several,h.name,?_,fun peer hpeer => ?_,hwaiting,hgroup,?_,fun j hj => hbit j (hlength ▸ hj)⟩
  · have haddrs := congrArg (List.map Prod.snd) hgiven
    simp only [List.map_map] at haddrs
    exact Eq.trans haddrs h.addrs
  · have hmem := List.mem_map_of_mem (f := RrPeer.given) hpeer
    rw [show (u.store .primary peers).primary.peer = peers from rfl,hgiven] at hmem
    obtain ⟨old,hold,heq⟩ := List.mem_map.mp hmem
    exact (congrArg Prod.fst heq).symm.trans (h.config old hold)
  · change Fits rrp'.tried peers.length
    rw [hlength]
    simpa only [Fits,htried] using h.fits

/-- The peers that have not been selected may be selected. -/
theorem eligible_eq (h : Ordered addrs name k u r.rrp) (now : ℤ) {j : ℕ} {peer : RrPeer}
    (hj : u.primary.peer[j]? = some peer) : eligible now r.rrp.tried j peer = decide (k ≤ j) := by
  have hlt := (List.getElem?_eq_some_iff.mp hj).1
  have hbit := h.tried j hlt
  by_cases hk : k ≤ j
  · have hconfig := h.config peer (List.mem_of_getElem? hj)
    simp only [RrPeer.config,Prod.mk.injEq] at hconfig
    obtain ⟨-,hconns,hmax,-,hdown⟩ := hconfig
    have hfails := (h.waiting j peer hk hj).2.2
    rw [eligible_eq_true.mpr ⟨by rw [hbit]; simp [hk],hdown,by simp [RrPeer.unavailable,hmax,hfails],
      by simp [RrPeer.atLimit,hconns]⟩]
    simp [hk]
  · simp [eligible,hbit,show j < k by omega,hk]

/-- All peers that wait have the same credit, and the first of them is the best. -/
theorem best_eq (h : Ordered addrs name k u r.rrp) (now : ℤ) {peer : RrPeer} (hpeer : u.primary.peer[k]? = some peer) :
    chargeBest now r.rrp.tried 0 u.primary.peer none = some (k,peer.charge) := by
  have hfirst := chargeBest_first (i := 0) (w := k+1) hpeer
    (by rw [Nat.zero_add,h.eligible_eq now hpeer]; simp)
    (fun j other hlt hj => by rw [Nat.zero_add,h.eligible_eq now hj]; simpa using hlt)
    (fun j other hj he => by
      rw [Nat.zero_add,h.eligible_eq now hj,decide_eq_true_eq] at he
      obtain ⟨hcurrent,heffective,-⟩ := h.waiting j other he hj
      simp [RrPeer.charge,hcurrent,heffective])
  rwa [Nat.zero_add] at hfirst

theorem charged_get (h : Ordered addrs name k u r.rrp) (now : ℤ) (j : ℕ) :
    (chargeAll now r.rrp.tried 0 u.primary.peer)[j]? =
      u.primary.peer[j]?.map fun peer => if k ≤ j then peer.charge else peer := by
  rw [getElem?_chargeAll]
  cases hj : u.primary.peer[j]? with
  | none => rfl
  | some other => rw [Option.map_some,Option.map_some,Nat.zero_add,h.eligible_eq now hj]; simp

theorem charged_given (h : Ordered addrs name k u r.rrp) (now : ℤ) :
    (chargeAll now r.rrp.tried 0 u.primary.peer).map RrPeer.given = u.primary.peer.map RrPeer.given := by
  apply List.ext_getElem?
  intro j
  rw [List.getElem?_map,List.getElem?_map,h.charged_get]
  cases u.primary.peer[j]? with
  | none => rfl
  | some other => by_cases hj : k ≤ j <;> simp [hj,RrPeer.given,RrPeer.addr,RrPeer.charge,RrPeer.config]

/-- The next peer is selected as long as there is one. -/
theorem select (h : Ordered addrs name k u r.rrp) (now : ℤ) {addr : UpstreamAddr} (hk : addrs[k]? = some addr) :
    ∃ u' r', getRoundRobinPeer now u r = .ok (.ok,u',r') ∧ Ordered addrs name (k+1) u' r'.rrp ∧
      r'.rrp.current = some (.primary,k) ∧ r'.pc.tries = r.pc.tries ∧
      r'.pc.sockaddr = some addr.sockaddr ∧ r'.pc.socklen = addr.socklen ∧ r'.pc.name = some addr.name := by
  obtain ⟨peer,hpeer,rfl⟩ : ∃ peer, u.primary.peer[k]? = some peer ∧ peer.addr = addr := by
    rw [← h.addrs,List.getElem?_map] at hk
    exact Option.map_eq_some_iff.mp hk
  have hlt := (List.getElem?_eq_some_iff.mp hpeer).1
  obtain ⟨tried,hset,hlength,hbit⟩ := triedSet_eq h.fits hlt
  have hloop := getPeerLoop_eq now r.rrp.tried 0 u.primary.peer 0 none (by simpa using h.fits)
  rw [h.best_eq now hpeer] at hloop
  generalize htotal : 0 + chargeTotal now r.rrp.tried 0 u.primary.peer = total at hloop
  have hcharged := h.charged_get now
  have hkept := h.charged_given now
  generalize chargeAll now r.rrp.tried 0 u.primary.peer = charged at hloop hcharged hkept
  have hk : charged[k]? = some peer.charge := by rw [hcharged,hpeer]; simp
  generalize hlist : charged.modify k (·.settle now total) = list
  have hlistk : list[k]? = some (peer.charge.settle now total) := by
    rw [← hlist,List.getElem?_modify_eq,hk]
    rfl
  refine ⟨u.store .primary (list.modify k (·.hold)),
    { r with
      pc := ({ r.pc with cached := false, connection := none } : PeerConnection).fill (peer.charge.settle now total)
      rrp := { r.rrp with current := some (.primary,k), tried := tried } },?_,?_,rfl,rfl,rfl,rfl,rfl⟩
  · simp [getRoundRobinPeer,getRoundRobinPeerDepth,getRoundRobinInGroup,getPeer,h.group,Upstream.group,orFault,
      h.several,hloop,hset,hlist,hlistk,bind,Except.bind,pure,Except.pure]
  · refine h.store ?_ (fun j other hkj hj => ?_) h.group hlength fun j hj => ?_
    · rw [map_modify_eq RrPeer.given (·.hold) (fun _ => rfl),← hlist,
        map_modify_eq RrPeer.given (·.settle now total) (fun _ => rfl),hkept]
    · have hne : k ≠ j := by omega
      rw [List.getElem?_modify_ne _ _ hne,← hlist,List.getElem?_modify_ne _ _ hne,hcharged] at hj
      obtain ⟨old,hold,rfl⟩ := Option.map_eq_some_iff.mp hj
      obtain ⟨hcurrent,heffective,hfails⟩ := h.waiting j old (by omega) hold
      have hweight := h.config old (List.mem_of_getElem? hold)
      simp only [RrPeer.config,Prod.mk.injEq] at hweight
      rw [if_pos (by omega)]
      simp [RrPeer.charge,hcurrent,heffective,hfails,hweight.1]
    · rw [hbit,h.tried j hj,← Bool.decide_or]
      exact decide_eq_decide.mpr (by omega)

/-- When all have been selected the request is refused. -/
theorem refuse (h : Ordered addrs name k u r.rrp) (now : ℤ) (hk : addrs.length ≤ k) :
    ∃ r', getRoundRobinPeer now u r = .ok (.busy,u,r') ∧ r'.rrp = r.rrp ∧ r'.pc.tries = r.pc.tries ∧
      r'.pc.name = some name := by
  have hbest : chargeBest now r.rrp.tried 0 u.primary.peer none = none := by
    cases hbest : chargeBest now r.rrp.tried 0 u.primary.peer none with
    | none => rfl
    | some pb =>
      obtain ⟨p,b⟩ := pb
      rcases chargeBest_mem hbest with h' | ⟨j,peer,rfl,hj,he,-⟩
      · cases h'
      · have hlt := (List.getElem?_eq_some_iff.mp hj).1
        rw [Nat.zero_add,h.eligible_eq now hj,decide_eq_true_eq] at he
        have := h.length
        omega
  have hloop := getPeerLoop_eq now r.rrp.tried 0 u.primary.peer 0 none (by simpa using h.fits)
  rw [hbest] at hloop
  refine ⟨{ r with pc := { r.pc with cached := false, connection := none, name := some name } },?_,rfl,rfl,rfl⟩
  simp [getRoundRobinPeer,getRoundRobinPeerDepth,getRoundRobinInGroup,getPeer,failed,h.group,Upstream.group,
    Upstream.next,h.backup,orFault,h.several,hloop,h.name,bind,Except.bind,pure,Except.pure]

/-- A release concerns a peer that has been selected. -/
theorem release (h : Ordered addrs name k u r.rrp) {p : ℕ} (hp : p < k) (hcurrent : r.rrp.current = some (.primary,p))
    (now : ℤ) (peerFailed : Bool) :
    ∃ u' r', freeRoundRobinPeer now peerFailed u r = .ok (u',r') ∧ Ordered addrs name k u' r'.rrp ∧
      r'.rrp = r.rrp ∧ r'.pc.tries = r.pc.tries - 1 := by
  have hgiven : ∀ peer : RrPeer, ((peer.account now peerFailed).release).given = peer.given := by
    intro peer
    unfold RrPeer.account
    split_ifs <;> rfl
  refine ⟨u.store .primary (u.primary.peer.modify p fun peer => (peer.account now peerFailed).release),
    { r with pc := { r.pc with tries := r.pc.tries - 1 } },?_,?_,rfl,rfl⟩
  · simp [freeRoundRobinPeer,hcurrent,h.group,Upstream.group,orFault,h.several,bind,Except.bind,pure,Except.pure]
  · refine h.store (map_modify_eq RrPeer.given _ hgiven _ _) (fun j peer hkj hj => ?_) h.group rfl h.tried
    rw [List.getElem?_modify_ne _ _ (by omega)] at hj
    exact h.waiting j peer hkj hj

end Ordered

/-- The group of a single address, which nothing but the connections of its peer changes. -/
structure Alone (addr : UpstreamAddr) (u : Upstream) (rrp : RrPeerData) : Prop where
  backup : u.backup = none
  single : u.primary.single = true
  peer : ∃ peer, u.primary.peer = [peer] ∧ peer.given = ((1,0,1,10,false),addr)
  group : rrp.peers = .primary

namespace Alone
variable {addr : UpstreamAddr} {u : Upstream} {r : Request}

theorem select (h : Alone addr u r.rrp) (now : ℤ) :
    ∃ u' r', getRoundRobinPeer now u r = .ok (.ok,u',r') ∧ Alone addr u' r'.rrp ∧
      r'.rrp.current = some (.primary,0) ∧ r'.pc.tries = r.pc.tries ∧
      r'.pc.sockaddr = some addr.sockaddr ∧ r'.pc.socklen = addr.socklen ∧ r'.pc.name = some addr.name := by
  obtain ⟨peer,hpeer,hgiven⟩ := h.peer
  obtain ⟨hconfig,rfl⟩ := Prod.mk.inj hgiven
  obtain ⟨hconns,hdown⟩ : peer.maxConns = 0 ∧ peer.down = false := by
    simp only [RrPeer.config,Prod.mk.injEq] at hconfig
    exact ⟨hconfig.2.1,hconfig.2.2.2.2⟩
  refine ⟨u.store .primary [peer.hold],
    { r with
      pc := ({ r.pc with cached := false, connection := none } : PeerConnection).fill peer
      rrp := { r.rrp with current := some (.primary,0) } },?_,
    ⟨h.backup,h.single,⟨_,rfl,congrArg (·,peer.addr) hconfig⟩,h.group⟩,rfl,rfl,rfl,rfl,rfl⟩
  simp [getRoundRobinPeer,getRoundRobinPeerDepth,getRoundRobinInGroup,h.group,Upstream.group,orFault,h.single,hpeer,
    hdown,RrPeer.atLimit,hconns,bind,Except.bind,pure,Except.pure]

theorem release (h : Alone addr u r.rrp) (hcurrent : r.rrp.current = some (.primary,0)) (now : ℤ) (peerFailed : Bool) :
    ∃ u' r', freeRoundRobinPeer now peerFailed u r = .ok (u',r') ∧ Alone addr u' r'.rrp ∧ r'.rrp = r.rrp ∧
      r'.pc.tries = 0 := by
  obtain ⟨peer,hpeer,hgiven⟩ := h.peer
  refine ⟨u.store .primary [peer.release],{ r with pc := { r.pc with tries := 0 } },?_,
    ⟨h.backup,h.single,⟨_,rfl,hgiven⟩,h.group⟩,rfl,rfl⟩
  simp [freeRoundRobinPeer,hcurrent,h.group,Upstream.group,orFault,h.single,hpeer,bind,Except.bind,pure,Except.pure]

end Alone

/-! ### The run -/

namespace UpstreamResolved
variable {ur : UpstreamResolved} {inet : Inet} {k : ℕ} {u : Upstream} {r req : Request}

/-- The position that the selection after `k` others takes. -/
def turn (ur : UpstreamResolved) (k : ℕ) : ℕ := if ur.naddrs = 1 then 0 else k

/-- The group after `k` selections. -/
def Poised (ur : UpstreamResolved) (inet : Inet) (k : ℕ) (u : Upstream) (rrp : RrPeerData) : Prop :=
  if ur.naddrs = 1 then ∃ addr, ur.candidates inet = [addr] ∧ Alone addr u rrp
  else Ordered (ur.candidates inet) ur.host k u rrp

/-- A selection takes the address whose turn it is. -/
theorem Poised.select (h : ur.Poised inet k u r.rrp) (now : ℤ) {addr : UpstreamAddr}
    (haddr : (ur.candidates inet)[ur.turn k]? = some addr) :
    ∃ u' r', getRoundRobinPeer now u r = .ok (.ok,u',r') ∧ ur.Poised inet (k+1) u' r'.rrp ∧
      r'.rrp.current = some (.primary,ur.turn k) ∧ r'.pc.tries = r.pc.tries ∧
      r'.pc.sockaddr = some addr.sockaddr ∧ r'.pc.socklen = addr.socklen ∧ r'.pc.name = some addr.name := by
  unfold Poised turn at *
  by_cases hone : ur.naddrs = 1
  · simp only [hone,if_true] at h haddr ⊢
    obtain ⟨only,hcandidates,halone⟩ := h
    obtain rfl : only = addr := by simpa [hcandidates] using haddr
    obtain ⟨u',r',hcall,halone',hrest⟩ := halone.select now
    exact ⟨u',r',hcall,⟨only,hcandidates,halone'⟩,hrest⟩
  · simp only [hone,if_false] at h haddr ⊢
    exact h.select now haddr

/-- When it is nobody's turn the request is refused. -/
theorem Poised.refuse (h : ur.Poised inet k u r.rrp) (now : ℤ) (hnone : (ur.candidates inet)[ur.turn k]? = none) :
    ∃ r', getRoundRobinPeer now u r = .ok (.busy,u,r') ∧ r'.rrp = r.rrp ∧ r'.pc.tries = r.pc.tries ∧
      r'.pc.name = some ur.host := by
  unfold Poised turn at *
  by_cases hone : ur.naddrs = 1
  · simp only [hone,if_true] at h hnone
    obtain ⟨only,hcandidates,-⟩ := h
    simp [hcandidates] at hnone
  · simp only [hone,if_false] at h hnone
    exact h.refuse now (List.getElem?_eq_none_iff.mp hnone)

/-- A release of the peer that was selected last. -/
theorem Poised.release (h : ur.Poised inet (k+1) u r.rrp) (hcurrent : r.rrp.current = some (.primary,ur.turn k))
    (htries : ur.naddrs = 1 → r.pc.tries ≤ 1) (now : ℤ) (peerFailed : Bool) :
    ∃ u' r', freeRoundRobinPeer now peerFailed u r = .ok (u',r') ∧ ur.Poised inet (k+1) u' r'.rrp ∧
      r'.rrp = r.rrp ∧ r'.pc.tries = r.pc.tries - 1 := by
  unfold Poised turn at *
  by_cases hone : ur.naddrs = 1
  · simp only [hone,if_true] at h hcurrent ⊢
    obtain ⟨only,hcandidates,halone⟩ := h
    obtain ⟨u',r',hcall,halone',hrrp,hzero⟩ := halone.release hcurrent now peerFailed
    have := htries hone
    exact ⟨u',r',hcall,⟨only,hcandidates,halone'⟩,hrrp,by omega⟩
  · simp only [hone,if_false] at h hcurrent ⊢
    exact h.release (Nat.lt_succ_self k) hcurrent now peerFailed

/-- The peers are those of the candidates. -/
theorem link_candidates {alloc : ℕ → Bool} {n m : ℕ} {peers : List RrPeer} (h : ur.link alloc inet n = .ok (some (peers,m))) :
    peers = (ur.candidates inet).map implicitPeer ∧ (peers.length = ur.naddrs ∨ peers.length = 1 ∧ ur.naddrs ≠ 0) := by
  unfold link at h
  unfold candidates
  cases hsockaddr : ur.sockaddr with
  | some sockaddr =>
    rw [hsockaddr] at h
    dsimp only at h
    split at h
    · cases h
    · rename_i hzero
      cases h
      exact ⟨rfl,.inr ⟨rfl,hzero⟩⟩
  | none =>
    rw [hsockaddr] at h
    obtain ⟨hfill,hlength⟩ := fill_eq h
    exact ⟨by simpa using hfill,.inl hlength⟩

/-- Several addresses before the first selection. -/
theorem ordered_create {peers : List RrPeer} {tried : Tried} (hpeers : peers = (ur.candidates inet).map implicitPeer)
    (hseveral : ur.naddrs ≠ 1) (hfits : Fits tried peers.length) (hbit : ∀ j, WordBitset.bit tried j = false) :
    Ordered (ur.candidates inet) ur.host 0 ⟨⟨ur.naddrs,0,ur.naddrs == 1,false,ur.host,peers⟩,none⟩
      ⟨0,.primary,none,tried⟩ := by
  subst hpeers
  refine ⟨rfl,by simp [hseveral],rfl,?_,fun peer hpeer => ?_,fun j peer _ hj => ?_,rfl,hfits,fun j _ => hbit j⟩
  · exact (List.map_map ..).trans (List.map_id _)
  · obtain ⟨addr,-,rfl⟩ := List.mem_map.mp hpeer
    rfl
  · obtain ⟨addr,-,rfl⟩ := List.mem_map.mp (List.mem_of_getElem? hj)
    exact ⟨rfl,rfl,rfl⟩

/-- What the creation leaves. -/
theorem poised_create {alloc : ℕ → Bool} {data : Bool} (h : createRoundRobinPeer alloc inet data r ur = .ok (some (u,req))) :
    ur.Poised inet 0 u req.rrp ∧ req.pc.tries = ur.naddrs ∧ (ur.candidates inet).length ≤ ur.naddrs := by
  unfold createRoundRobinPeer at h
  dsimp only at h
  generalize (if data then 0 else 1) = n at h
  split at h
  · cases h
  split at h
  · cases h
  obtain ⟨filled,hfilled,h⟩ := bind_ok h
  split at h
  · cases h
  rename_i peers m
  obtain ⟨tried,htried,heq⟩ := Option.map_eq_some_iff.mp (Except.ok.inj h)
  cases heq
  obtain ⟨hpeers,hlength⟩ := link_candidates hfilled
  have hsame : (ur.candidates inet).length = peers.length := by rw [hpeers,List.length_map]
  have hle : (ur.candidates inet).length ≤ ur.naddrs := by omega
  refine ⟨?_,by simp [Upstream.tries],hle⟩
  unfold Poised
  split
  · rename_i hone
    obtain ⟨addr,haddr⟩ := List.length_eq_one_iff.mp (show (ur.candidates inet).length = 1 by omega)
    exact ⟨addr,haddr,rfl,by simp [hone],⟨implicitPeer addr,by rw [hpeers,haddr]; rfl,rfl⟩,rfl⟩
  · rename_i hone
    have hbits : Fits tried ur.naddrs ∧ ∀ j, WordBitset.bit tried j = false := by
      split at htried
      · cases htried
        exact ⟨by unfold Fits; simp; omega,WordBitset.bit_replicate_zero 1⟩
      · obtain ⟨-,htried⟩ := Option.ite_none_right_eq_some.mp htried
        cases htried
        exact ⟨by unfold Fits triedWords; simp; omega,WordBitset.bit_replicate_zero _⟩
    have hfits := hbits.1
    exact ordered_create hpeers hone (by unfold Fits at *; omega) hbits.2

end UpstreamResolved

/-- What a run knows of its only request. -/
structure Attempting (ur : UpstreamResolved) (inet : Inet) (w : World Unit) (s : Session Unit) : Prop where
  sessions : w.sessions = [s]
  fits : (ur.candidates inet).length ≤ ur.naddrs
  poised : ur.Poised inet s.got.length (w.ups ()) s.req.rrp
  got : s.got = (List.range s.got.length).map fun k => (.primary,ur.turn k)
  turns : ∀ k < s.got.length, ur.turn k < (ur.candidates inet).length
  holds : ∀ ptr, s.holds = some ptr → s.got.getLast? = some ptr ∧ s.req.rrp.current = some ptr
  tries : s.req.pc.tries = ur.naddrs - (s.got.length - s.holds.toList.length)

namespace Attempting
variable {ur : UpstreamResolved} {inet : Inet} {w w' : World Unit} {s : Session Unit}

theorem select (h : Attempting ur inet w s) {now : ℤ} (hstep : w.step (.select 0 .roundRobin now) = some w') :
    ∃ s', Attempting ur inet w' s' := by
  simp only [World.step,h.sessions,List.getElem?_cons_zero,Option.bind_some] at hstep
  obtain ⟨hholds,hstep⟩ := Option.ite_none_right_eq_some.mp hstep
  have htries := h.tries
  simp only [hholds,Option.toList_none,List.length_nil,Nat.sub_zero] at htries
  cases haddr : (ur.candidates inet)[ur.turn s.got.length]? with
  | some addr =>
    obtain ⟨u,req,hcall,hpoised,hcurrent,hsame,-⟩ := h.poised.select now haddr
    simp only [Balancer.get,hcall,Option.some.injEq] at hstep
    subst hstep
    refine ⟨s.selected .ok req,by simp [World.update,h.sessions],h.fits,?_,?_,?_,?_,?_⟩
    · simpa [Session.selected,hcurrent,World.update] using hpoised
    · simp only [Session.selected,hcurrent,Option.toList_some,List.length_append,List.length_singleton,
        List.range_succ,List.map_append,List.map_singleton,← h.got]
    · intro k hk
      simp only [Session.selected,hcurrent,Option.toList_some,List.length_append,List.length_singleton] at hk
      rcases Nat.lt_succ_iff_lt_or_eq.mp hk with hk | rfl
      · exact h.turns k hk
      · exact (List.getElem?_eq_some_iff.mp haddr).1
    · intro ptr hptr
      simp only [Session.selected,hcurrent,Option.some.injEq] at hptr
      simp [Session.selected,hcurrent,hptr]
    · simp [Session.selected,hcurrent,hsame,htries]
  | none =>
    obtain ⟨req,hcall,hrrp,hsame,-⟩ := h.poised.refuse now haddr
    simp only [Balancer.get,hcall,Option.some.injEq] at hstep
    subst hstep
    refine ⟨s.selected .busy req,by simp [World.update,h.sessions],h.fits,?_,h.got,h.turns,?_,?_⟩
    · simpa [Session.selected,hrrp,World.update] using h.poised
    · intro ptr hptr
      simp [Session.selected,hholds] at hptr
    · simp [Session.selected,hsame,hholds,htries]

theorem free (h : Attempting ur inet w s) {now : ℤ} {peerFailed : Bool} (hstep : w.step (.free 0 now peerFailed) = some w') :
    ∃ s', Attempting ur inet w' s' := by
  simp only [World.step,h.sessions,List.getElem?_cons_zero,Option.bind_some] at hstep
  cases hholds : s.holds with
  | none => simp [hholds] at hstep
  | some ptr =>
    simp only [hholds,reduceCtorEq,if_false] at hstep
    obtain ⟨hlast,hcurrent⟩ := h.holds ptr hholds
    -- the request holds the peer that it got last
    obtain ⟨k,hk⟩ : ∃ k, s.got.length = k + 1 :=
      Nat.exists_eq_succ_of_ne_zero fun hzero => by simp [List.length_eq_zero_iff.mp hzero] at hlast
    have hgot := h.got
    rw [hk,List.range_succ,List.map_append,List.map_singleton] at hgot
    rw [hgot,List.getLast?_concat,Option.some.injEq] at hlast
    have htries := h.tries
    simp only [hholds,Option.toList_some,List.length_singleton,hk,Nat.add_sub_cancel] at htries
    obtain ⟨u,req,hcall,hpoised,hrrp,hless⟩ := (hk ▸ h.poised).release (hlast ▸ hcurrent)
      (fun hone => by omega) now peerFailed
    simp only [hcall,Option.some.injEq] at hstep
    subst hstep
    refine ⟨s.released req,by simp [World.update,h.sessions],h.fits,?_,h.got,h.turns,?_,?_⟩
    · simpa [Session.released,hk,World.update] using hpoised
    · intro ptr hptr
      simp [Session.released] at hptr
    · simp only [Session.released,hless,htries,Option.toList_none,List.length_nil,hk]
      omega

end Attempting

variable {alloc : ℕ → Bool} {inet : Inet} {data : Bool} {r : Request} {ur : UpstreamResolved}

/-- In every run of a request on the upstream that was resolved for it, the selections take the addresses in
the order of the resolver, each one once (a single address each time), whatever the time and the results of the
uses; the next selection succeeds with the address whose turn it is, or is refused when there is none; and
`tries` is what is left of the addresses after the releases. -/
theorem resolved_in_order {w : World Unit} (h : (resolving alloc inet data r ur).Reachable w) :
    ∃ s, w.sessions = [s] ∧ s.got = (List.range s.got.length).map (fun k => (.primary,ur.turn k)) ∧
      (∀ k < s.got.length, ur.turn k < (ur.candidates inet).length) ∧
      s.req.pc.tries = ur.naddrs - (s.got.length - s.holds.toList.length) ∧
      ∀ now, ∃ rc u req, getRoundRobinPeer now (w.ups ()) s.req = .ok (rc,u,req) ∧
        match (ur.candidates inet)[ur.turn s.got.length]? with
        | some addr => rc = .ok ∧ req.pc.sockaddr = some addr.sockaddr ∧ req.pc.socklen = addr.socklen ∧
            req.pc.name = some addr.name
        | none => rc = .busy ∧ req.pc.name = some ur.host := by
  have hattempting : ∃ s, Attempting ur inet w s := by
    refine h.invariant (I := fun w => ∃ s, Attempting ur inet w s) (fun w hinit => ?_) fun w a w' _ hs hstep => ?_
    · obtain ⟨u,req,hcreate,rfl⟩ := hinit
      obtain ⟨hpoised,htries,hfits⟩ := UpstreamResolved.poised_create hcreate
      exact ⟨_,rfl,hfits,hpoised,rfl,by simp,by simp,by simpa using htries⟩
    · obtain ⟨s,hs⟩ := hs
      obtain ⟨hown,hstep⟩ := Option.ite_none_right_eq_some.mp hstep
      match a,hown with
      | .select 0 .roundRobin now,_ => exact hs.select hstep
      | .free 0 now peerFailed,_ => exact hs.free hstep
  obtain ⟨s,hs⟩ := hattempting
  refine ⟨s,hs.sessions,hs.got,hs.turns,hs.tries,fun now => ?_⟩
  cases haddr : (ur.candidates inet)[ur.turn s.got.length]? with
  | some addr =>
    obtain ⟨u,req,hcall,-,-,-,haddress⟩ := hs.poised.select now haddr
    exact ⟨.ok,u,req,hcall,rfl,haddress⟩
  | none =>
    obtain ⟨req,hcall,-,-,hname⟩ := hs.poised.refuse now haddr
    exact ⟨.busy,_,req,hcall,rfl,hname⟩

/-- A resolved name with two addresses. -/
def twoAddresses : UpstreamResolved := ⟨"backend",80,2,[⟨1000,16,"a"⟩,⟨2000,16,"b"⟩],none,0,none⟩

/-- A request before the creation. -/
def freshRequest : Request := ⟨⟨false,none,none,0,none,0⟩,⟨0,.primary,none,[]⟩,⟨0,[],0⟩⟩

/-- A port is added to an address. -/
def plainInet : Inet := ⟨fun addr port => addr + port,fun _ _ => "resolved"⟩

/-- The first of two addresses fails, and the second one is next. -/
theorem resolved_in_order_two : ∃ (w : World Unit) (s : Session Unit) (u : Upstream) (req : Request),
    (resolving (fun _ => true) plainInet true freshRequest twoAddresses).Reachable w ∧ w.sessions = [s] ∧
    s.got = [(.primary,0)] ∧ s.req.pc.tries = 1 ∧ getRoundRobinPeer 0 (w.ups ()) s.req = .ok (.ok,u,req) ∧
    req.pc.sockaddr = some 2080 := by
  obtain ⟨u₀,r₀,hcreate⟩ : ∃ u₀ r₀, createRoundRobinPeer (fun _ => true) plainInet true freshRequest twoAddresses =
      .ok (some (u₀,r₀)) := ⟨_,_,rfl⟩
  obtain ⟨w,hw⟩ : ∃ w, TransitionSystem.replay (fun (w : World Unit) a => if a.Own then w.step a else none)
      ⟨fun _ => u₀,[⟨(),r₀,none,[]⟩]⟩ [.select 0 .roundRobin 0,.free 0 0 true] = some w := by
    cases hcreate
    exact ⟨_,rfl⟩
  have hreach : (resolving (fun _ => true) plainInet true freshRequest twoAddresses).Reachable w :=
    .of_replay (.init ⟨u₀,r₀,hcreate,rfl⟩) hw
  obtain ⟨s,hs,hgot,-,htries,hnext⟩ := resolved_in_order hreach
  have hlength : s.got.length = 1 ∧ s.holds = none := by
    cases hcreate
    cases hw
    cases hs
    exact ⟨rfl,rfl⟩
  rw [hlength.1] at hgot
  rw [hlength.1,hlength.2] at htries
  obtain ⟨rc,u,req,hcall,hresult⟩ := hnext 0
  rw [hlength.1] at hresult
  obtain ⟨rfl,haddr,-⟩ := hresult
  exact ⟨w,s,u,req,hreach,hs,hgot,htries,hcall,haddr⟩

end InsideNginx.HttpUpstream
