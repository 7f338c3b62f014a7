import InsideNginx.HttpUpstream.RoundRobin

/-! The ip_hash balancer: up to twenty probes at positions drawn from the hash of the client
address, then the round robin balancer. -/
namespace InsideNginx.HttpUpstream

/-- One round of the hash over the bytes of the address. -/
def hashAddr (hash : ℕ) (addr : List ℕ) : ℕ := addr.foldl (fun hash byte => (hash*113 + byte)%6271) hash

/-- `while (w >= peer->weight)`, from the peer at position `p` on. -/
def weightWalk : ℤ → ℕ → List RrPeer → Except Fault (ℕ × RrPeer)
  | _,_,[] => .error .nullDeref
  | w,p,peer::rest => if peer.weight ≤ w then weightWalk (w - peer.weight) (p+1) rest else .ok (p,peer)

/-- The peer that one probe looks at. -/
def ipHashProbe (hash : ℕ) (peers : RrPeers) : Except Fault (ℕ × RrPeer) :=
  if peers.totalWeight = 0 then .error .divByZero
  else weightWalk ((hash%peers.totalWeight : ℕ) : ℤ) 0 peers.peer

/-- The peer that the probe loop breaks at with the hash and the probe counter, or `none`
when the counter passes twenty. `fuel` bounds the number of probes. -/
def ipHashLoop (now : ℤ) (tried : Tried) (peers : RrPeers) (addr : List ℕ) :
    ℕ → ℕ → ℕ → Except Fault (Option (ℕ × RrPeer × ℕ) × ℕ)
  | 0,_,_ => .error .noReturn
  | fuel+1,hash,tries => do
    let hash := hashAddr hash addr
    let (p,peer) ← ipHashProbe hash peers
    if (← triedTest tried p) || peer.skip now then
      -- `tries` is a `u_char`
      let tries := (tries + 1)%256
      if 20 < tries then return (none,tries)
      else ipHashLoop now tried peers addr fuel hash tries
    else return (some (p,peer,hash),tries)

/-- `ngx_http_upstream_get_ip_hash_peer`. -/
def getIpHashPeer (now : ℤ) (u : Upstream) (r : Request) : Outcome := do
  let peers ← orFault .nullDeref (u.group r.rrp.peers)
  if 20 < r.iphp.tries || peers.single then getRoundRobinPeer now u r
  else
    let r := { r with pc := { r.pc with cached := false, connection := none } }
    match ← ipHashLoop now r.rrp.tried peers r.iphp.addr 21 r.iphp.hash r.iphp.tries with
    | (none,tries) => getRoundRobinPeer now u { r with iphp := { r.iphp with tries := tries } }
    | (some (p,peer,hash),tries) =>
      let tried ← triedSet r.rrp.tried p
      return (.ok,u.store r.rrp.peers (peers.peer.modify p fun peer => peer.hold.touch now),
        { r with
          pc := r.pc.fill peer
          rrp := { r.rrp with current := some (r.rrp.peers,p), tried := tried }
          iphp := { r.iphp with hash := hash, tries := tries } })

end InsideNginx.HttpUpstream
