import InsideNginx.Fault

/-! Peer groups of an upstream and their construction from the configured servers.
The peers of a group are linked by `next` in array order, so a group holds them as a list;
a pointer to a peer is the group it belongs to together with its position. Weights and totals are exact
numbers; `WordTotals` has the same construction in machine words. -/
namespace InsideNginx.HttpUpstream

/-- One resolved address of a server. -/
structure UpstreamAddr where
  sockaddr : ℕ
  socklen : ℕ
  name : String
  deriving DecidableEq, Repr

/-- The fields of a configured server that the group construction reads. -/
structure UpstreamServer where
  name : String
  addrs : List UpstreamAddr
  weight : ℕ
  maxConns : ℕ
  maxFails : ℕ
  failTimeout : ℤ
  down : Bool
  backup : Bool
  deriving DecidableEq, Repr

structure RrPeer where
  sockaddr : ℕ
  socklen : ℕ
  name : String
  server : String
  currentWeight : ℤ
  effectiveWeight : ℤ
  weight : ℤ
  conns : ℕ
  maxConns : ℕ
  fails : ℕ
  accessed : ℤ
  checked : ℤ
  maxFails : ℕ
  failTimeout : ℤ
  down : Bool
  deriving DecidableEq, Repr

structure RrPeers where
  number : ℕ
  totalWeight : ℕ
  single : Bool
  weighted : Bool
  name : String
  peer : List RrPeer
  deriving DecidableEq, Repr

/-- The two groups of an upstream. `backup` is what `peers->next` of the primary group
points to; the `next` of a backup group is NULL. -/
structure Upstream where
  primary : RrPeers
  backup : Option RrPeers
  deriving DecidableEq, Repr

/-- The configuration of an upstream. `servers` is `none` when the upstream is defined
implicitly, by its host and port. -/
structure UpstreamSrvConf where
  servers : Option (List UpstreamServer)
  host : String
  port : ℕ
  deriving DecidableEq, Repr

/-- The ways in which the construction ends with NGX_ERROR. -/
inductive InitError
  | noServers
  | noPort
  | resolve
  | noMemory
  deriving DecidableEq, Repr

/-- The first loop over the servers of one group, which accumulates `n` and `w`. -/
def countServers (backup : Bool) : List UpstreamServer → ℕ → ℕ → ℕ × ℕ
  | [],n,w => (n,w)
  | server::servers,n,w =>
    if server.backup = backup then
      countServers backup servers (n + server.addrs.length) (w + server.addrs.length*server.weight)
    else countServers backup servers n w

/-- The fields that the inner loop stores for one address of a server. -/
def peerOf (server : UpstreamServer) (addr : UpstreamAddr) : RrPeer where
  sockaddr := addr.sockaddr
  socklen := addr.socklen
  name := addr.name
  server := server.name
  currentWeight := 0
  effectiveWeight := server.weight
  weight := server.weight
  conns := 0
  maxConns := server.maxConns
  fails := 0
  accessed := 0
  checked := 0
  maxFails := server.maxFails
  failTimeout := server.failTimeout
  down := server.down

/-- The second loop over the servers, which fills the peers of one group in order. -/
def fillPeers (backup : Bool) : List UpstreamServer → List RrPeer
  | [] => []
  | server::servers =>
    if server.backup = backup then server.addrs.map (peerOf server) ++ fillPeers backup servers
    else fillPeers backup servers

/-- A peer of an implicitly defined upstream. -/
def implicitPeer (addr : UpstreamAddr) : RrPeer :=
  peerOf ⟨"",[],1,0,1,10,false,false⟩ addr

/-- `ngx_http_upstream_init_round_robin`. `pcalloc` tells which of the allocations succeed,
in the order of the calls; `resolve` is what `ngx_inet_resolve_host` stores in `u.addrs`,
or `none` when it does not return NGX_OK. -/
def initRoundRobin (pcalloc : ℕ → Bool) (resolve : String → ℕ → Option (List UpstreamAddr))
    (us : UpstreamSrvConf) : Except InitError Upstream :=
  match us.servers with
  | some servers =>
    let (n,w) := countServers false servers 0 0
    if n = 0 then .error .noServers
    else if !pcalloc 0 || !pcalloc 1 then .error .noMemory
    else
      let peers : RrPeers := ⟨n,w,n == 1,w != n,us.host,fillPeers false servers⟩
      let (bn,bw) := countServers true servers 0 0
      if bn = 0 then .ok ⟨peers,none⟩
      else if !pcalloc 2 || !pcalloc 3 then .error .noMemory
      else .ok ⟨{ peers with single := false },
        some ⟨bn,bw,false,bw != bn,us.host,fillPeers true servers⟩⟩
  | none =>
    if us.port = 0 then .error .noPort
    else match resolve us.host us.port with
      | none => .error .resolve
      | some addrs =>
        if !pcalloc 0 || !pcalloc 1 then .error .noMemory
        else .ok ⟨⟨addrs.length,addrs.length,addrs.length == 1,false,us.host,
          addrs.map implicitPeer⟩,none⟩

/-- The total weight of the peers of a list. -/
def weightSum (peers : List RrPeer) : ℤ := (peers.map (·.weight)).sum

/-- What the construction guarantees of one group. -/
structure RrPeers.WellBuilt (g : RrPeers) : Prop where
  number_eq : g.number = g.peer.length
  totalWeight_eq : (g.totalWeight : ℤ) = weightSum g.peer
  weight_nonneg : ∀ peer ∈ g.peer, 0 ≤ peer.weight
  fresh : ∀ peer ∈ g.peer, peer.currentWeight = 0 ∧ peer.effectiveWeight = peer.weight ∧
    peer.conns = 0 ∧ peer.fails = 0 ∧ peer.accessed = 0 ∧ peer.checked = 0

/-- What the construction guarantees of the two groups. -/
structure Upstream.WellBuilt (u : Upstream) : Prop where
  primary : u.primary.WellBuilt
  backup : ∀ g, u.backup = some g → g.WellBuilt ∧ g.single = false ∧ 0 < g.number
  single : u.primary.single = true → u.backup = none ∧ u.primary.number = 1

@[simp] theorem weightSum_nil : weightSum [] = 0 := rfl

@[simp] theorem weightSum_cons (peer : RrPeer) (peers : List RrPeer) :
    weightSum (peer::peers) = peer.weight + weightSum peers := by simp [weightSum]

@[simp] theorem weightSum_append (xs ys : List RrPeer) :
    weightSum (xs ++ ys) = weightSum xs + weightSum ys := by simp [weightSum]

theorem weightSum_map_peerOf (server : UpstreamServer) (addrs : List UpstreamAddr) :
    weightSum (addrs.map (peerOf server)) = addrs.length*server.weight := by
  induction addrs with
  | nil => simp
  | cons addr addrs ih => simp only [List.map_cons,weightSum_cons,ih,List.length_cons,peerOf]; push_cast; ring

/-- The counting loop and the filling loop agree on the number of peers and on their weight. -/
theorem countServers_eq (backup : Bool) (servers : List UpstreamServer) (n w : ℕ) :
    (countServers backup servers n w).1 = n + (fillPeers backup servers).length ∧
    ((countServers backup servers n w).2 : ℤ) = w + weightSum (fillPeers backup servers) := by
  induction servers generalizing n w with
  | nil => simp [countServers,fillPeers]
  | cons server servers ih =>
    by_cases hb : server.backup = backup
    · obtain ⟨hn,hw⟩ := ih (n + server.addrs.length) (w + server.addrs.length*server.weight)
      simp only [countServers,fillPeers,hb,if_true,List.length_append,List.length_map,
        weightSum_append,weightSum_map_peerOf,hn,hw]
      push_cast
      constructor <;> ring
    · simpa only [countServers,fillPeers,hb,if_false] using ih n w

theorem mem_fillPeers {backup : Bool} {servers : List UpstreamServer} {peer : RrPeer}
    (h : peer ∈ fillPeers backup servers) :
    ∃ server ∈ servers, server.backup = backup ∧ ∃ addr ∈ server.addrs, peer = peerOf server addr := by
  induction servers with
  | nil => simp [fillPeers] at h
  | cons server servers ih =>
    simp only [fillPeers] at h
    split at h
    · rename_i hb
      rcases List.mem_append.mp h with h | h
      · obtain ⟨addr,ha,rfl⟩ := List.mem_map.mp h
        exact ⟨server,List.mem_cons_self,hb,addr,ha,rfl⟩
      · obtain ⟨other,hs,ho⟩ := ih h
        exact ⟨other,List.mem_cons_of_mem _ hs,ho⟩
    · obtain ⟨other,hs,ho⟩ := ih h
      exact ⟨other,List.mem_cons_of_mem _ hs,ho⟩

theorem fillPeers_wellBuilt (servers : List UpstreamServer) (backup single : Bool) (name : String)
    (weighted : Bool) :
    RrPeers.WellBuilt ⟨(countServers backup servers 0 0).1,(countServers backup servers 0 0).2,single,
      weighted,name,fillPeers backup servers⟩ where
  number_eq := by simpa using (countServers_eq backup servers 0 0).1
  totalWeight_eq := by simpa using (countServers_eq backup servers 0 0).2
  weight_nonneg peer h := by
    obtain ⟨server,-,-,addr,-,rfl⟩ := mem_fillPeers h
    simp [peerOf]
  fresh peer h := by
    obtain ⟨server,-,-,addr,-,rfl⟩ := mem_fillPeers h
    simp [peerOf]

/-- Every upstream that `initRoundRobin` returns is well built. -/
theorem initRoundRobin_wellBuilt {pcalloc : ℕ → Bool}
    {resolve : String → ℕ → Option (List UpstreamAddr)} {us : UpstreamSrvConf} {u : Upstream}
    (h : initRoundRobin pcalloc resolve us = .ok u) : u.WellBuilt := by
  unfold initRoundRobin at h
  cases hs : us.servers with
  | some servers =>
    simp only [hs] at h
    split at h
    · cases h
    split at h
    · cases h
    split at h
    · cases h
      exact ⟨fillPeers_wellBuilt ..,by simp,fun hn => ⟨rfl,by simpa using hn⟩⟩
    split at h
    · cases h
    · cases h
      refine ⟨fillPeers_wellBuilt ..,?_,by simp⟩
      rintro g ⟨⟩
      exact ⟨fillPeers_wellBuilt ..,rfl,by simp only; omega⟩
  | none =>
    simp only [hs] at h
    split at h
    · cases h
    split at h
    · cases h
    split at h
    · cases h
    · cases h
      rename_i addrs _ _
      refine ⟨⟨by simp,?_,?_,?_⟩,by simp,fun hn => ⟨rfl,by simpa using hn⟩⟩
      · change (addrs.length : ℤ) = weightSum (addrs.map (peerOf ⟨"",[],1,0,1,10,false,false⟩))
        simp [weightSum_map_peerOf]
      · intro peer hp
        obtain ⟨addr,-,rfl⟩ := List.mem_map.mp hp
        simp [implicitPeer,peerOf]
      · intro peer hp
        obtain ⟨addr,-,rfl⟩ := List.mem_map.mp hp
        simp [implicitPeer,peerOf]

end InsideNginx.HttpUpstream
