import InsideNginx.HttpUpstream.WeightedWalk

/-! The construction of the groups in machine words: `n`, `w` and `total_weight` are `ngx_uint_t` and wrap, and a
peer keeps the weight of its server as an `ngx_int_t`. The walk of ip_hash partitions the hash values exactly
when the total and the weights of the group stay in these types. -/
namespace InsideNginx.HttpUpstream

/-- The conversion of an `ngx_uint_t` to an `ngx_int_t`. -/
def ngxInt (n : ℕ) : ℤ := (BitVec.ofNat 64 n).toInt

theorem ngxInt_of_lt {n : ℕ} (h : n < 2^63) : ngxInt n = n := by
  rw [ngxInt,BitVec.toInt_eq_toNat_of_lt]
  · rw [BitVec.toNat_ofNat,Nat.mod_eq_of_lt (by omega)]
  · rw [BitVec.toNat_ofNat,Nat.mod_eq_of_lt (by omega)]
    omega

theorem lt_of_ngxInt_nonneg {n : ℕ} (hn : n < 2^64) (h : 0 ≤ ngxInt n) : n < 2^63 := by
  by_contra hge
  rw [ngxInt,BitVec.toInt_eq_toNat_cond,BitVec.toNat_ofNat,Nat.mod_eq_of_lt hn,if_neg (by omega)] at h
  omega

namespace Words

/-- The first loop over the servers of one group. -/
def countServers (backup : Bool) : List UpstreamServer → ℕ → ℕ → ℕ × ℕ
  | [],n,w => (n,w)
  | server::servers,n,w =>
    if server.backup = backup then
      countServers backup servers ((n + server.addrs.length)%2^64) ((w + server.addrs.length*server.weight)%2^64)
    else countServers backup servers n w

/-- The fields that the inner loop stores for one address of a server. -/
def peerOf (server : UpstreamServer) (addr : UpstreamAddr) : RrPeer :=
  { HttpUpstream.peerOf server addr with
    effectiveWeight := ngxInt server.weight
    weight := ngxInt server.weight }

/-- The second loop over the servers, which fills the peers of one group in order. -/
def fillPeers (backup : Bool) : List UpstreamServer → List RrPeer
  | [] => []
  | server::servers =>
    if server.backup = backup then server.addrs.map (peerOf server) ++ fillPeers backup servers
    else fillPeers backup servers

/-- `ngx_http_upstream_init_round_robin`. An implicitly defined upstream adds nothing up: its total weight is `naddrs`. -/
def initRoundRobin (pcalloc : ℕ → Bool) (resolve : String → ℕ → Option (List UpstreamAddr))
    (us : UpstreamSrvConf) : Except InitError Upstream :=
  match us.servers with
  | some servers =>
    let (n,w) := countServers false servers 0 0
    if n = 0 then .error .noServers
    else if !pcalloc 0 || !pcalloc 1 then .error .noMemory
    else
      let peers : RrPeers := ⟨n,w,n == 1,w != n,us.host,fillPeers false servers⟩
      let (bn,bw) := countServers true servers 0 0
      if bn = 0 then .ok ⟨peers,none⟩
      else if !pcalloc 2 || !pcalloc 3 then .error .noMemory
      else .ok ⟨{ peers with single := false },
        some ⟨bn,bw,false,bw != bn,us.host,fillPeers true servers⟩⟩
  | none =>
    if us.port = 0 then .error .noPort
    else match resolve us.host us.port with
      | none => .error .resolve
      | some addrs =>
        if !pcalloc 0 || !pcalloc 1 then .error .noMemory
        else .ok ⟨⟨addrs.length,addrs.length,addrs.length == 1,false,us.host,
          addrs.map implicitPeer⟩,none⟩

/-- The total weight of the servers of a group is an `ngx_uint_t`, and the weights that its peers store are
numbers of an `ngx_int_t`. -/
structure Fits (backup : Bool) (servers : List UpstreamServer) : Prop where
  total : (HttpUpstream.countServers backup servers 0 0).2 < 2^64
  weight : ∀ server ∈ servers, server.backup = backup → server.addrs ≠ [] → server.weight < 2^63

variable {backup : Bool} {servers : List UpstreamServer}

/-! ### The words of a group -/

/-- The loop in words ends at the residues of what the exact loop computes. -/
theorem countServers_mod (n w : ℕ) : countServers backup servers (n%2^64) (w%2^64) =
    ((HttpUpstream.countServers backup servers n w).1%2^64,(HttpUpstream.countServers backup servers n w).2%2^64) := by
  induction servers generalizing n w with
  | nil => rfl
  | cons server servers ih =>
    simp only [countServers,HttpUpstream.countServers]
    split
    · rw [Nat.mod_add_mod,Nat.mod_add_mod,ih]
    · exact ih n w

theorem mem_fillPeers {server : UpstreamServer} {addr : UpstreamAddr} (hserver : server ∈ servers)
    (hb : server.backup = backup) (haddr : addr ∈ server.addrs) : peerOf server addr ∈ fillPeers backup servers := by
  induction servers with
  | nil => cases hserver
  | cons other servers ih =>
    rw [fillPeers]
    rcases List.mem_cons.mp hserver with rfl | hserver
    · rw [if_pos hb]
      exact List.mem_append_left _ (List.mem_map_of_mem haddr)
    · split
      · exact List.mem_append_right _ (ih hserver)
      · exact ih hserver

/-- Weights that an `ngx_int_t` holds are stored as they are. -/
theorem fillPeers_eq (h : ∀ server ∈ servers, server.backup = backup → server.addrs ≠ [] → server.weight < 2^63) :
    fillPeers backup servers = HttpUpstream.fillPeers backup servers := by
  induction servers with
  | nil => rfl
  | cons server servers ih =>
    have hrest := ih fun other hother => h other (List.mem_cons_of_mem _ hother)
    rw [fillPeers,HttpUpstream.fillPeers,hrest]
    split
    · rename_i hb
      congr 1
      refine List.map_congr_left fun addr haddr => ?_
      rw [peerOf,ngxInt_of_lt (h server List.mem_cons_self hb (List.ne_nil_of_mem haddr))]
      rfl
    · rfl

/-- When the total fits, so does the number of peers, and both are exact. -/
theorem Fits.countServers_eq (h : Fits backup servers) (hweight : ∀ server ∈ servers, 1 ≤ server.weight) :
    countServers backup servers 0 0 = HttpUpstream.countServers backup servers 0 0 := by
  have hle := countServers_fst_le_snd backup hweight (le_refl 0)
  have hmod : countServers backup servers 0 0 = _ := countServers_mod 0 0
  rw [hmod,Nat.mod_eq_of_lt (hle.trans_lt h.total),Nat.mod_eq_of_lt h.total]

/-- Where nothing leaves its type the construction is the exact one. -/
theorem initRoundRobin_eq {pcalloc : ℕ → Bool} {resolve : String → ℕ → Option (List UpstreamAddr)} {us : UpstreamSrvConf}
    (h : ∀ servers, us.servers = some servers → ∀ backup, Fits backup servers)
    (hweight : ∀ servers, us.servers = some servers → ∀ server ∈ servers, 1 ≤ server.weight) :
    initRoundRobin pcalloc resolve us = HttpUpstream.initRoundRobin pcalloc resolve us := by
  unfold initRoundRobin HttpUpstream.initRoundRobin
  cases hs : us.servers with
  | none => rfl
  | some servers =>
    have hcount := fun backup => (h servers hs backup).countServers_eq (hweight servers hs)
    have hfill := fun backup => fillPeers_eq (h servers hs backup).weight
    simp only [hcount,hfill]

/-! ### A group of a built upstream -/

/-- The words and the peers that the construction gives a group. -/
structure Built (backup : Bool) (servers : List UpstreamServer) (g : RrPeers) : Prop where
  number : g.number = (countServers backup servers 0 0).1
  number_ne : g.number ≠ 0
  totalWeight : g.totalWeight = (countServers backup servers 0 0).2
  peer : g.peer = fillPeers backup servers

/-- A group is filled from the servers of the configuration, or the upstream is defined implicitly. -/
theorem initRoundRobin_group {pcalloc : ℕ → Bool} {resolve : String → ℕ → Option (List UpstreamAddr)}
    {us : UpstreamSrvConf} {u : Upstream} (h : initRoundRobin pcalloc resolve us = .ok u) {ptr : PeersPtr} {g : RrPeers}
    (hg : u.group ptr = some g) :
    (∃ servers, us.servers = some servers ∧ Built (ptr = .backup) servers g) ∨
      us.servers = none ∧ HttpUpstream.initRoundRobin pcalloc resolve us = .ok u := by
  cases hs : us.servers with
  | none =>
    obtain ⟨_,host,port⟩ := us
    subst hs
    exact .inr ⟨rfl,h⟩
  | some servers =>
    refine .inl ⟨servers,rfl,?_⟩
    simp only [initRoundRobin,hs] at h
    split at h
    · cases h
    rename_i hn
    split at h
    · cases h
    split at h
    · cases h
      cases ptr <;> simp only [Upstream.group,Option.some.injEq,reduceCtorEq] at hg
      subst hg
      exact ⟨rfl,hn,rfl,rfl⟩
    rename_i hbn
    split at h
    · cases h
    cases h
    cases ptr <;> simp only [Upstream.group,Option.some.injEq] at hg <;> subst hg
    · exact ⟨rfl,hn,rfl,rfl⟩
    · exact ⟨rfl,hbn,rfl,rfl⟩

/-- A group whose words are exact is sound, and its total weight is not 0. -/
theorem Built.sound {g : RrPeers} (hg : Built backup servers g) (h : Fits backup servers)
    (hweight : ∀ server ∈ servers, 1 ≤ server.weight) : g.Sound ∧ g.totalWeight ≠ 0 := by
  have hle := countServers_fst_le_snd backup hweight (le_refl 0)
  obtain ⟨hlength,hsum⟩ := HttpUpstream.countServers_eq backup servers 0 0
  have hcount := h.countServers_eq hweight
  have hnumber := hg.number
  have htotal := hg.totalWeight
  have hne := hg.number_ne
  have hpeer := hg.peer
  rw [fillPeers_eq h.weight] at hpeer
  rw [hcount] at hnumber htotal
  refine ⟨⟨by rw [hnumber,hlength,hpeer,zero_add],by rw [htotal,hsum,hpeer]; simp,fun peer hmem => ?_⟩,by omega⟩
  obtain ⟨server,-,-,addr,-,rfl⟩ := HttpUpstream.mem_fillPeers (hpeer ▸ hmem)
  exact Int.natCast_nonneg _

/-- When the hash values are partitioned, every peer has stored the weight of its server, and the total has not wrapped. -/
theorem Built.fits {g g' : RrPeers} (hg : Built backup servers g) (hshape : g'.shape = g.shape)
    (hweight : ∀ server ∈ servers, 1 ≤ server.weight ∧ server.weight < 2^64) (h : g'.Partitioned) : Fits backup servers := by
  obtain ⟨-,htotal,-,-,-,hconfig⟩ := RrPeers.shape_eq_iff.mp hshape
  have hweights : weights g'.peer = weights (fillPeers backup servers) := by
    rw [← hg.peer]
    exact weights_of_config hconfig
  have hfit : ∀ server ∈ servers, server.backup = backup → server.addrs ≠ [] → server.weight < 2^63 := by
    intro server hserver hb haddrs
    obtain ⟨addr,haddr⟩ := List.exists_mem_of_ne_nil _ haddrs
    obtain ⟨p,hp⟩ := List.mem_iff_getElem?.mp (mem_fillPeers hserver hb haddr)
    have hx : (weights g'.peer)[p]? = some (ngxInt server.weight) := by
      rw [hweights,weights,List.getElem?_map,hp]
      rfl
    exact lt_of_ngxInt_nonneg (hweight server hserver).2 (h.card_owned hx ▸ Int.natCast_nonneg _)
  refine ⟨?_,hfit⟩
  rw [fillPeers_eq hfit] at hweights
  have hpos : ∀ x ∈ weights g'.peer, 0 < x := by
    rw [hweights]
    refine List.forall_mem_map.mpr fun peer hmem => ?_
    obtain ⟨server,hserver,-,addr,-,rfl⟩ := HttpUpstream.mem_fillPeers hmem
    exact Int.natCast_pos.mpr (hweight server hserver).1
  -- the stored weights sum to the exact total, and the residues to what is left of it
  have hsum : ((HttpUpstream.countServers backup servers 0 0).2 : ℤ) = (weights g'.peer).sum := by
    rw [(HttpUpstream.countServers_eq backup servers 0 0).2,hweights,weights,weightSum]
    simp
  have hwrap : g'.totalWeight = (HttpUpstream.countServers backup servers 0 0).2%2^64 := by
    rw [htotal,hg.totalWeight]
    exact congrArg Prod.snd (countServers_mod 0 0)
  have hle := WeightedPick.sum_le_of_card_owned hpos fun p x => h.card_owned
  have hlt := Nat.mod_lt (HttpUpstream.countServers backup servers 0 0).2 (show 0 < 2^64 by decide)
  omega

end Words

/-- In an upstream that keeps the shape it was built with, the walk of ip_hash stays in the list and
partitions the hash values exactly when the total weight and the weights of the group fit. An implicitly defined
upstream always does. -/
theorem walk_partitions_iff {pcalloc : ℕ → Bool} {resolve : String → ℕ → Option (List UpstreamAddr)}
    {us : UpstreamSrvConf} {built u : Upstream} (h : Words.initRoundRobin pcalloc resolve us = .ok built)
    (hservers : ∀ servers, us.servers = some servers → ∀ server ∈ servers, 1 ≤ server.weight ∧ server.weight < 2^64)
    (himplicit : us.servers = none → ∀ addrs, resolve us.host us.port = some addrs → addrs ≠ [])
    (hshape : built.SameShape u) {ptr : PeersPtr} {g : RrPeers} (hg : u.group ptr = some g) :
    g.Partitioned ↔ ∀ servers, us.servers = some servers → Words.Fits (ptr = .backup) servers := by
  obtain ⟨g₀,hg₀,hsame⟩ := hshape.group hg
  have hweight : ∀ servers, us.servers = some servers → ∀ server ∈ servers, 1 ≤ server.weight :=
    fun servers hs server hserver => (hservers servers hs server hserver).1
  rcases Words.initRoundRobin_group h hg₀ with ⟨servers,hs,hbuilt⟩ | ⟨hs,hexact⟩
  · constructor
    · rintro hpart _ hs'
      obtain rfl := Option.some.inj (hs.symm.trans hs')
      exact hbuilt.fits hsame (hservers servers hs) hpart
    · intro hfits
      obtain ⟨hsound,hne⟩ := hbuilt.sound (hfits servers hs) (hweight servers hs)
      exact (hsound.of_shape hsame).partitioned ((RrPeers.shape_eq_iff.mp hsame).2.1 ▸ hne)
  · refine iff_of_true ?_ fun servers hsome => by rw [hs] at hsome; cases hsome
    have hsound := ((initRoundRobin_wellBuilt hexact).sound.group ptr g₀ hg₀).of_shape hsame
    refine hsound.partitioned ?_
    rw [(RrPeers.shape_eq_iff.mp hsame).2.1]
    exact initRoundRobin_positive hexact hweight himplicit hg₀

/-- The weights of the load balancing note fit. -/
theorem walk_partitions_iff_note : noteUpstream.primary.Partitioned := by
  have hservers : ∀ servers, noteConf.servers = some servers → ∀ server ∈ servers, 1 ≤ server.weight ∧ server.weight < 2^64 := by
    rintro servers ⟨⟩
    decide
  have hfits : ∀ servers, noteConf.servers = some servers → ∀ backup, Words.Fits backup servers := by
    rintro servers ⟨⟩ backup
    cases backup <;> exact ⟨by decide,by decide⟩
  have hbuilt : Words.initRoundRobin (fun _ => true) (fun _ _ => none) noteConf = .ok noteUpstream := by
    rw [Words.initRoundRobin_eq hfits fun servers hs server hserver => (hservers servers hs server hserver).1]
    exact initRoundRobin_note
  exact (walk_partitions_iff hbuilt hservers (by simp [noteConf]) (Upstream.SameShape.refl noteUpstream)
    (rfl : noteUpstream.group .primary = some noteUpstream.primary)).mpr fun servers hs => hfits servers hs _

/-- One server of weight 2^62 with four addresses. -/
def wrappedConf : UpstreamSrvConf :=
  ⟨some [⟨"a",[⟨1,16,"a"⟩,⟨2,16,"b"⟩,⟨3,16,"c"⟩,⟨4,16,"d"⟩],2^62,0,1,10,false,false⟩],"u",80⟩

/-- The total weight of the four peers wraps to 0, by which the walk divides the hash. -/
theorem wrapped_divides_by_zero : ∃ u, Words.initRoundRobin (fun _ => true) (fun _ _ => none) wrappedConf = .ok u ∧
    u.primary.single = false ∧ (∀ hash, ipHashProbe hash u.primary = .error .divByZero) ∧ ¬ u.primary.Partitioned := by
  refine ⟨_,rfl,rfl,fun hash => rfl,fun h => ?_⟩
  obtain ⟨p,peer,hprobe,-⟩ := h.walk 0 (by decide)
  cases hprobe

end InsideNginx.HttpUpstream
