import InsideNginx.HttpUpstream.WeightedWalk

/-! Which peers the first probe of ip_hash can reach. The hash of three address bytes takes every value
below its modulus, and no other. -/
namespace InsideNginx.HttpUpstream

/-- The first `addrlen` bytes of `sin_addr` for AF_INET. -/
def hashedBytes (addr : Fin 4 → BitVec 8) : List ℕ := ((List.ofFn addr).take 3).map BitVec.toNat

/-- The peer that the first round of the loop of `ngx_http_upstream_get_ip_hash_peer` looks at. -/
def firstProbe (r : Request) (peers : RrPeers) : Except Fault (ℕ × RrPeer) :=
  ipHashProbe (hashAddr r.iphp.hash r.iphp.addr) peers

theorem hashAddr_lt (hash byte : ℕ) (addr : List ℕ) : hashAddr hash (addr ++ [byte]) < 6271 := by
  rw [hashAddr,List.foldl_concat]
  exact Nat.mod_lt _ (by decide)

theorem hashedBytes_lt (addr : Fin 4 → BitVec 8) : hashAddr 89 (hashedBytes addr) < 6271 :=
  hashAddr_lt 89 (addr 2).toNat [(addr 0).toNat,(addr 1).toNat]

/-- After a first byte 0 the other two write any number below the modulus in base 113. -/
theorem exists_hashedBytes {target : ℕ} (h : target < 6271) :
    ∃ addr : Fin 4 → BitVec 8, hashAddr 89 (hashedBytes addr) = target := by
  have hdigits : (target + 5976)%6271/113 < 256 ∧ (target + 5976)%6271%113 < 256 := by omega
  refine ⟨![0,BitVec.ofNat 8 ((target + 5976)%6271/113),BitVec.ofNat 8 ((target + 5976)%6271%113),0],?_⟩
  have hbytes : hashedBytes ![0,BitVec.ofNat 8 ((target + 5976)%6271/113),
      BitVec.ofNat 8 ((target + 5976)%6271%113),0] =
      [0,(target + 5976)%6271/113,(target + 5976)%6271%113] := by
    change [0,_%2^8,_%2^8] = _
    rw [Nat.mod_eq_of_lt hdigits.1,Nat.mod_eq_of_lt hdigits.2]
  rw [hbytes]
  simp only [hashAddr,List.foldl_cons,List.foldl_nil]
  omega

/-- Some hash value probes a peer exactly when the interval of the peer begins below the modulus. -/
theorem ipHashProbe_reaches_iff {g : RrPeers} (hg : g.Sound) (hweight : ∀ peer ∈ g.peer, 1 ≤ peer.weight) {p : ℕ}
    {peer : RrPeer} (hp : g.peer[p]? = some peer) :
    (∃ hash < 6271, ipHashProbe hash g = .ok (p,peer)) ↔ weightSum (g.peer.take p) < 6271 := by
  have hnonneg := weights_nonneg hg.weight_nonneg
  have hpeer := hweight peer (List.mem_of_getElem? hp)
  have hstep : ((weights g.peer).take (p+1)).sum = weightSum (g.peer.take p) + peer.weight := by
    rw [sum_take_weights,List.take_add_one,hp]
    simp
  have hlow : 0 ≤ weightSum (g.peer.take p) :=
    List.sum_nonneg (weights_nonneg fun other ho => hg.weight_nonneg other (List.mem_of_mem_take ho))
  have hhigh : weightSum (g.peer.take p) + peer.weight ≤ g.totalWeight := by
    have hmono := WeightedPick.sum_take_mono hnonneg
      (by simpa [weights] using Nat.succ_le_of_lt (List.getElem?_eq_some_iff.mp hp).1 : p + 1 ≤ (weights g.peer).length)
    rw [List.take_length,hstep] at hmono
    exact hmono.trans_eq hg.totalWeight.symm
  have hw : g.totalWeight ≠ 0 := by omega
  have hprobe : ∀ hash, ipHashProbe hash g = .ok (p,peer) ↔ weightSum (g.peer.take p) ≤ ((hash%g.totalWeight : ℕ) : ℤ) ∧
      ((hash%g.totalWeight : ℕ) : ℤ) < weightSum (g.peer.take p) + peer.weight := by
    intro hash
    rw [ipHashProbe_eq_iff hg hw hp,WeightedPick.pick_eq_some_iff hnonneg (by positivity),owns_weights_iff hp]
  constructor
  · rintro ⟨hash,hlt,heq⟩
    have hle := ((hprobe hash).mp heq).1
    have hmod := Nat.mod_le hash g.totalWeight
    omega
  · intro hlt
    have hmod : (weightSum (g.peer.take p)).toNat%g.totalWeight = (weightSum (g.peer.take p)).toNat :=
      Nat.mod_eq_of_lt (by omega)
    refine ⟨(weightSum (g.peer.take p)).toNat,by omega,(hprobe _).mpr ?_⟩
    rw [hmod]
    omega

/-- A configuration with weights of at least 1 has peers with such weights. -/
theorem initRoundRobin_weight {pcalloc : ℕ → Bool} {resolve : String → ℕ → Option (List UpstreamAddr)}
    {us : UpstreamSrvConf} {u : Upstream} (h : initRoundRobin pcalloc resolve us = .ok u)
    (hservers : ∀ servers, us.servers = some servers → ∀ server ∈ servers, 1 ≤ server.weight) :
    ∀ peer ∈ u.primary.peer, 1 ≤ peer.weight := by
  intro peer hpeer
  unfold initRoundRobin at h
  cases hs : us.servers with
  | some servers =>
    have hfill : peer ∈ fillPeers false servers := by
      simp only [hs] at h
      split_ifs at h <;> cases h <;> exact hpeer
    obtain ⟨server,hserver,-,addr,-,rfl⟩ := mem_fillPeers hfill
    exact Int.toNat_le.mp (hservers servers hs server hserver)
  | none =>
    simp only [hs] at h
    split at h
    · cases h
    split at h
    · cases h
    split at h
    · cases h
    · cases h
      obtain ⟨addr,-,rfl⟩ := List.mem_map.mp hpeer
      exact le_refl 1

/-- In an upstream as it has been built, some IPv4 address has its first probe at a peer exactly when
the weights before the peer sum to less than the modulus of the hash. -/
theorem first_probe_reaches_iff {pcalloc : ℕ → Bool} {resolve : String → ℕ → Option (List UpstreamAddr)}
    {us : UpstreamSrvConf} {u : Upstream} (h : initRoundRobin pcalloc resolve us = .ok u)
    (hservers : ∀ servers, us.servers = some servers → ∀ server ∈ servers, 1 ≤ server.weight)
    {p : ℕ} {peer : RrPeer} (hp : u.primary.peer[p]? = some peer) :
    (∃ addr r, initIpHashPeer true u (hashedBytes addr) = some r ∧ firstProbe r u.primary = .ok (p,peer)) ↔
      weightSum (u.primary.peer.take p) < 6271 := by
  have hsound := (initRoundRobin_wellBuilt h).sound.group .primary u.primary rfl
  rw [← ipHashProbe_reaches_iff hsound (initRoundRobin_weight h hservers) hp]
  have hinit : ∀ addr, ∃ r, initIpHashPeer true u addr = some r ∧ r.iphp = ⟨89,addr,0⟩ := by
    intro addr
    unfold initIpHashPeer initRoundRobinPeer
    split <;> exact ⟨_,rfl,rfl⟩
  constructor
  · rintro ⟨addr,r,hr,hprobe⟩
    obtain ⟨r',hr',hiphp⟩ := hinit (hashedBytes addr)
    obtain rfl := Option.some.inj (hr.symm.trans hr')
    rw [firstProbe,hiphp] at hprobe
    exact ⟨_,hashedBytes_lt addr,hprobe⟩
  · rintro ⟨hash,hlt,hprobe⟩
    obtain ⟨addr,rfl⟩ := exists_hashedBytes hlt
    obtain ⟨r,hr,hiphp⟩ := hinit (hashedBytes addr)
    exact ⟨addr,r,hr,by rw [firstProbe,hiphp]; exact hprobe⟩

/-- Some client reaches the second primary server of the load balancing note. -/
theorem first_probe_reaches_iff_note : ∃ peer addr r, noteUpstream.primary.peer[1]? = some peer ∧
    initIpHashPeer true noteUpstream (hashedBytes addr) = some r ∧ firstProbe r noteUpstream.primary = .ok (1,peer) := by
  have hservers : ∀ servers, noteConf.servers = some servers → ∀ server ∈ servers, 1 ≤ server.weight := by
    rintro servers ⟨⟩
    decide
  obtain ⟨peer,hpeer⟩ : ∃ peer, noteUpstream.primary.peer[1]? = some peer := ⟨_,rfl⟩
  obtain ⟨addr,r,hr,hprobe⟩ := (first_probe_reaches_iff initRoundRobin_note hservers hpeer).mpr (by decide)
  exact ⟨peer,addr,r,hpeer,hr,hprobe⟩

/-- Two servers of weight 10000, without backup. -/
def heavyServers : List UpstreamServer :=
  [⟨"a",[⟨1,16,"a"⟩],10000,0,1,10,false,false⟩,⟨"b",[⟨2,16,"b"⟩],10000,0,1,10,false,false⟩]

/-- No IPv4 address has its first probe at the second of two heavy servers. -/
theorem heavy_second_unreached : ∃ u, initRoundRobin (fun _ => true) (fun _ _ => none) ⟨some heavyServers,"u",80⟩ = .ok u ∧
    u.primary.single = false ∧ u.backup = none ∧ u.primary.peer.length = 2 ∧
    ∀ addr r peer, initIpHashPeer true u (hashedBytes addr) = some r → firstProbe r u.primary ≠ .ok (1,peer) := by
  refine ⟨_,rfl,rfl,rfl,rfl,fun addr r peer hr hprobe => ?_⟩
  cases hr
  have hlt := hashedBytes_lt addr
  have hwalk : weightWalk ((hashAddr 89 (hashedBytes addr)%20000 : ℕ) : ℤ) 0 (fillPeers false heavyServers) =
      .ok (1,peer) := hprobe
  rw [Nat.mod_eq_of_lt (by omega)] at hwalk
  have hfirst : ¬ (10000 : ℤ) ≤ (hashAddr 89 (hashedBytes addr) : ℕ) := by omega
  change (if (10000 : ℤ) ≤ (hashAddr 89 (hashedBytes addr) : ℕ) then _ else _) = _ at hwalk
  rw [if_neg hfirst] at hwalk
  cases hwalk

end InsideNginx.HttpUpstream
