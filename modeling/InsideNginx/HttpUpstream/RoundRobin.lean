import InsideNginx.General.WordBitset
import InsideNginx.HttpUpstream.Peers

/-! The round robin balancer: per-request data, selection in one group, the switch to the
backup group, and the release of a peer. Time is the cached clock value that
`ngx_time()` returns during the call. -/
namespace InsideNginx.HttpUpstream

/-- A pointer to one of the two groups of an upstream. -/
inductive PeersPtr
  | primary
  | backup
  deriving DecidableEq, Repr

/-- A pointer to a peer: its group and its position in the list. -/
abbrev PeerPtr := PeersPtr × ℕ

/-- `tried` as the words it points to; up to 64 peers it is the one word `data`. -/
abbrev Tried := List (BitVec 64)

structure RrPeerData where
  config : ℕ
  peers : PeersPtr
  current : Option PeerPtr
  tried : Tried
  deriving DecidableEq, Repr

/-- The fields of `ngx_peer_connection_t` that the balancers write or read. -/
structure PeerConnection where
  cached : Bool
  connection : Option ℕ
  sockaddr : Option ℕ
  socklen : ℕ
  name : Option String
  tries : ℕ
  deriving DecidableEq, Repr

/-- What ip_hash keeps for a request after the round robin data. -/
structure IpHashPeerData where
  hash : ℕ
  addr : List ℕ
  tries : ℕ
  deriving DecidableEq, Repr

structure Request where
  pc : PeerConnection
  rrp : RrPeerData
  iphp : IpHashPeerData
  deriving DecidableEq, Repr

inductive Rc
  | ok
  | busy
  deriving DecidableEq, Repr

/-- The result of a `get` call: its return code, the groups and the request afterwards. -/
abbrev Outcome := Except Fault (Rc × Upstream × Request)

/-- Dereference a group pointer. -/
def Upstream.group (u : Upstream) : PeersPtr → Option RrPeers
  | .primary => some u.primary
  | .backup => u.backup

/-- Store the peers of a group after some of their fields have changed. -/
def Upstream.store (u : Upstream) : PeersPtr → List RrPeer → Upstream
  | .primary,peers => { u with primary := { u.primary with peer := peers } }
  | .backup,peers => { u with backup := u.backup.map fun g => { g with peer := peers } }

/-- `peers->next`. -/
def Upstream.next (u : Upstream) : PeersPtr → Option RrPeers
  | .primary => u.backup
  | .backup => none

/-- `tried[n] & m`. -/
def triedTest (tried : Tried) (i : ℕ) : Except Fault Bool :=
  orFault .outOfBounds (WordBitset.test? tried i)

/-- `tried[n] |= m`. -/
def triedSet (tried : Tried) (i : ℕ) : Except Fault Tried :=
  orFault .outOfBounds (WordBitset.set? tried i)

/-- The number of words for `n` peers. -/
def triedWords (n : ℕ) : ℕ := (n + 63)/64

/-- Clear the words that a group of `n` peers uses. -/
def triedClear (tried : Tried) (n : ℕ) : Except Fault Tried :=
  orFault .outOfBounds (WordBitset.clear? tried (triedWords n))

/-- `max_fails` failures, the last of them not longer ago than `fail_timeout`. -/
def RrPeer.unavailable (peer : RrPeer) (now : ℤ) : Bool :=
  peer.maxFails != 0 && decide (peer.maxFails ≤ peer.fails) &&
    decide (now - peer.checked ≤ peer.failTimeout)

def RrPeer.atLimit (peer : RrPeer) : Bool :=
  peer.maxConns != 0 && decide (peer.maxConns ≤ peer.conns)

/-- The tests of a selection loop that do not read the bitmap. -/
def RrPeer.skip (peer : RrPeer) (now : ℤ) : Bool :=
  peer.down || peer.unavailable now || peer.atLimit

/-- One peer takes part in a round: it receives its effective weight, which recovers by one. -/
def RrPeer.charge (peer : RrPeer) : RrPeer :=
  { peer with
    currentWeight := peer.currentWeight + peer.effectiveWeight
    effectiveWeight :=
      if peer.effectiveWeight < peer.weight then peer.effectiveWeight + 1 else peer.effectiveWeight }

/-- A chosen peer that has not been checked for longer than `fail_timeout` is checked now. -/
def RrPeer.touch (peer : RrPeer) (now : ℤ) : RrPeer :=
  { peer with checked := if peer.failTimeout < now - peer.checked then now else peer.checked }

/-- The best peer pays the round. -/
def RrPeer.settle (peer : RrPeer) (now total : ℤ) : RrPeer :=
  { peer with currentWeight := peer.currentWeight - total }.touch now

/-- `peer->conns++`. -/
def RrPeer.hold (peer : RrPeer) : RrPeer := { peer with conns := peer.conns + 1 }

/-- The loop of `ngx_http_upstream_get_peer` from position `i` on. `best` is the best peer
so far with its position: its record does not change any more in this loop. -/
def getPeerLoop (now : ℤ) (tried : Tried) :
    ℕ → List RrPeer → ℤ → Option (ℕ × RrPeer) →
      Except Fault (List RrPeer × ℤ × Option (ℕ × RrPeer))
  | _,[],total,best => .ok ([],total,best)
  | i,peer::rest,total,best => do
    if (← triedTest tried i) || peer.skip now then
      let (rest,total,best) ← getPeerLoop now tried (i+1) rest total best
      return (peer::rest,total,best)
    else
      let charged := peer.charge
      let best' := match best with
        | none => some (i,charged)
        | some (p,b) => if b.currentWeight < charged.currentWeight then some (i,charged) else some (p,b)
      let (rest,total,best) ← getPeerLoop now tried (i+1) rest (total + peer.effectiveWeight) best'
      return (charged::rest,total,best)

/-- `ngx_http_upstream_get_peer` on the peers of the current group: the position of the
best peer with the peers and the request data afterwards, or `none` for NULL. -/
def getPeer (now : ℤ) (peers : List RrPeer) (rrp : RrPeerData) :
    Except Fault (Option (ℕ × List RrPeer × RrPeerData)) := do
  match ← getPeerLoop now rrp.tried 0 peers 0 none with
  | (_,_,none) => return none
  | (peers,total,some (p,_)) =>
    let tried ← triedSet rrp.tried p
    return some (p,peers.modify p (·.settle now total),
      { rrp with current := some (rrp.peers,p), tried := tried })

/-- The connection parameters of the chosen peer. -/
def PeerConnection.fill (pc : PeerConnection) (peer : RrPeer) : PeerConnection :=
  { pc with sockaddr := some peer.sockaddr, socklen := peer.socklen, name := some peer.name }

/-- What a `get` call does in the current group: the groups and the request after a
selection, or `none` for the jump to `failed`. -/
def getRoundRobinInGroup (now : ℤ) (u : Upstream) (r : Request) :
    Except Fault (Option (Upstream × Request)) := do
  let peers ← orFault .nullDeref (u.group r.rrp.peers)
  if peers.single then
    let peer ← orFault .nullDeref peers.peer[0]?
    if peer.down then return none
    else if peer.atLimit then return none
    else return some (u.store r.rrp.peers (peers.peer.modify 0 (·.hold)),
      { r with pc := r.pc.fill peer, rrp := { r.rrp with current := some (r.rrp.peers,0) } })
  else
    match ← getPeer now peers.peer r.rrp with
    | none => return none
    | some (p,list,rrp) =>
      let peer ← orFault .nullDeref list[p]?
      return some (u.store r.rrp.peers (list.modify p (·.hold)),
        { r with pc := r.pc.fill peer, rrp := rrp })

/-- The code after `failed`, which round robin and least_conn share: `again` is the
recursive call in the backup group. -/
def failed (again : Upstream → Request → Outcome) (u : Upstream) (r : Request) : Outcome := do
  let peers ← orFault .nullDeref (u.group r.rrp.peers)
  match u.next r.rrp.peers with
  | some next =>
    let tried ← triedClear r.rrp.tried next.number
    match ← again u { r with rrp := { r.rrp with peers := .backup, tried := tried } } with
    | (.ok,u,r) => return (.ok,u,r)
    | (.busy,u,r) => return (.busy,u,{ r with pc := { r.pc with name := some peers.name } })
  | none => return (.busy,u,{ r with pc := { r.pc with name := some peers.name } })

/-- `ngx_http_upstream_get_round_robin_peer`; the first argument bounds the depth of the
recursion through `peers->next`. -/
def getRoundRobinPeerDepth (now : ℤ) : ℕ → Upstream → Request → Outcome
  | 0,_,_ => .error .noReturn
  | depth+1,u,r => do
    let r := { r with pc := { r.pc with cached := false, connection := none } }
    match ← getRoundRobinInGroup now u r with
    | some (u,r) => return (.ok,u,r)
    | none => failed (getRoundRobinPeerDepth now depth) u r

/-- An upstream has two groups, so the recursion is at most two calls deep. -/
def getRoundRobinPeer (now : ℤ) : Upstream → Request → Outcome := getRoundRobinPeerDepth now 2

/-- `conns--` on an unsigned field. -/
def uintPred (n : ℕ) : ℕ := if n = 0 then 2^64 - 1 else n - 1

def RrPeer.release (peer : RrPeer) : RrPeer := { peer with conns := uintPred peer.conns }

/-- The accounting of a failed or a successful use in a group of several peers. -/
def RrPeer.account (peer : RrPeer) (now : ℤ) (peerFailed : Bool) : RrPeer :=
  if peerFailed then
    let weight := if peer.maxFails != 0
      then peer.effectiveWeight - peer.weight/peer.maxFails else peer.effectiveWeight
    { peer with
      fails := peer.fails + 1
      accessed := now
      checked := now
      effectiveWeight := if weight < 0 then 0 else weight }
  else if peer.accessed < peer.checked then { peer with fails := 0 } else peer

/-- `ngx_http_upstream_free_round_robin_peer`; `peerFailed` is `state & NGX_PEER_FAILED`. -/
def freeRoundRobinPeer (now : ℤ) (peerFailed : Bool) (u : Upstream) (r : Request) :
    Except Fault (Upstream × Request) := do
  let (g,p) ← orFault .nullDeref r.rrp.current
  let group ← orFault .nullDeref (u.group g)
  let peers ← orFault .nullDeref (u.group r.rrp.peers)
  if peers.single then
    return (u.store g (group.peer.modify p (·.release)),{ r with pc := { r.pc with tries := 0 } })
  else
    return (u.store g (group.peer.modify p fun peer => (peer.account now peerFailed).release),
      { r with pc := { r.pc with tries := r.pc.tries - 1 } })

/-- The number of peers the `tried` bitmap is allocated for. -/
def Upstream.widest (u : Upstream) : ℕ :=
  match u.backup with
  | some next => if u.primary.number < next.number then next.number else u.primary.number
  | none => u.primary.number

/-- `ngx_http_upstream_tries`. -/
def Upstream.tries (u : Upstream) : ℕ :=
  u.primary.number + match u.backup with
    | some next => next.number
    | none => 0

/-- `ngx_http_upstream_init_round_robin_peer` for the request data of an upstream; `pcalloc`
tells whether the bitmap of a large upstream could be allocated. -/
def initRoundRobinPeer (pcalloc : Bool) (u : Upstream) : Option RrPeerData :=
  if u.widest ≤ 64 then some ⟨0,.primary,none,[0]⟩
  else if pcalloc then some ⟨0,.primary,none,List.replicate (triedWords u.widest) 0⟩
  else none

/-- `ngx_http_upstream_init_ip_hash_peer`: the round robin data, and the bytes of the client
address that are hashed. The other balancers do not read what it adds. -/
def initIpHashPeer (pcalloc : Bool) (u : Upstream) (addr : List ℕ) : Option Request :=
  (initRoundRobinPeer pcalloc u).map fun rrp =>
    ⟨⟨false,none,none,0,none,u.tries⟩,rrp,⟨89,addr,0⟩⟩

end InsideNginx.HttpUpstream
