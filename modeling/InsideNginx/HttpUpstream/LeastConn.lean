import InsideNginx.HttpUpstream.RoundRobin

/-! The least_conn balancer. Its first pass looks for the lowest ratio of connections to
weight; when several peers tie, the second pass lets round robin choose among them. -/
namespace InsideNginx.HttpUpstream

/-- The first loop, which leaves the peers as they are. -/
def leastConnLoop (now : ℤ) (tried : Tried) :
    ℕ → List RrPeer → Option (ℕ × RrPeer) → Bool → Except Fault (Option (ℕ × RrPeer) × Bool)
  | _,[],best,many => .ok (best,many)
  | i,peer::rest,best,many => do
    if (← triedTest tried i) || peer.skip now then leastConnLoop now tried (i+1) rest best many
    else match best with
      | none => leastConnLoop now tried (i+1) rest (some (i,peer)) false
      | some (p,b) =>
        if peer.conns*b.weight < b.conns*peer.weight then
          leastConnLoop now tried (i+1) rest (some (i,peer)) false
        else if peer.conns*b.weight = b.conns*peer.weight then
          leastConnLoop now tried (i+1) rest (some (p,b)) true
        else leastConnLoop now tried (i+1) rest (some (p,b)) many

/-- The second loop, from the best peer on. At the position of `best` the loop changes the
record that `best` points to. -/
def leastConnTieLoop (now : ℤ) (tried : Tried) :
    ℕ → List RrPeer → ℤ → ℕ × RrPeer → Except Fault (List RrPeer × ℤ × ℕ × RrPeer)
  | _,[],total,best => .ok ([],total,best)
  | i,peer::rest,total,best => do
    if (← triedTest tried i) || peer.down || decide (peer.conns*best.2.weight ≠ best.2.conns*peer.weight)
        || peer.unavailable now || peer.atLimit then
      let (rest,total,best) ← leastConnTieLoop now tried (i+1) rest total best
      return (peer::rest,total,best)
    else
      let charged := peer.charge
      let best := if best.1 = i then (i,charged) else best
      let best := if best.2.currentWeight < charged.currentWeight then (i,charged) else best
      let (rest,total,best) ←
        leastConnTieLoop now tried (i+1) rest (total + peer.effectiveWeight) best
      return (charged::rest,total,best)

/-- The selection in a group of several peers, or `none` for the jump to `failed`. -/
def getLeastConnInGroup (now : ℤ) (peers : RrPeers) (u : Upstream) (r : Request) :
    Except Fault (Option (Upstream × Request)) := do
  match ← leastConnLoop now r.rrp.tried 0 peers.peer none false with
  | (none,_) => return none
  | (some (p,b),many) =>
    let (list,total,p,_) ←
      if many then do
        let (rest,total,best) ← leastConnTieLoop now r.rrp.tried p (peers.peer.drop p) 0 (p,b)
        pure (peers.peer.take p ++ rest,total,best)
      else pure (peers.peer,0,p,b)
    let best ← orFault .nullDeref list[p]?
    let tried ← triedSet r.rrp.tried p
    return some (u.store r.rrp.peers (list.modify p fun best => (best.settle now total).hold),
      { r with
        pc := r.pc.fill best
        rrp := { r.rrp with current := some (r.rrp.peers,p), tried := tried } })

/-- `ngx_http_upstream_get_least_conn_peer`. -/
def getLeastConnPeerDepth (now : ℤ) : ℕ → Upstream → Request → Outcome
  | 0,_,_ => .error .noReturn
  | depth+1,u,r => do
    let peers ← orFault .nullDeref (u.group r.rrp.peers)
    if peers.single then getRoundRobinPeer now u r
    else
      let r := { r with pc := { r.pc with cached := false, connection := none } }
      match ← getLeastConnInGroup now peers u r with
      | some (u,r) => return (.ok,u,r)
      | none => failed (getLeastConnPeerDepth now depth) u r

def getLeastConnPeer (now : ℤ) : Upstream → Request → Outcome := getLeastConnPeerDepth now 2

end InsideNginx.HttpUpstream
