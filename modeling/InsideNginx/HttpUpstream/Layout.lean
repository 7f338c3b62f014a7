import InsideNginx.General.TailQueue
import InsideNginx.HttpUpstream.Peers

/-! The memory that the group construction leaves: an array of peers for each group, threaded through
their `next` fields by a pointer to the last link. Following the links gives the groups of the model. -/
namespace InsideNginx.HttpUpstream
open TailQueue

/-- An element of an array of `ngx_http_upstream_rr_peer_t`; `next` is an index into the array. -/
structure PeerCell where
  peer : RrPeer
  next : Option ℕ
  deriving DecidableEq, Repr

/-- What `ngx_pcalloc` leaves in an element. -/
def zeroCell : PeerCell := ⟨⟨0,0,"","",0,0,0,0,0,0,0,0,0,0,false⟩,none⟩

/-- The variables of a filling loop: the array, `peers->peer`, `n` and `peerp`. -/
structure Filling where
  cells : List PeerCell
  head : Option ℕ
  n : ℕ
  peerp : Link Unit ℕ
  deriving DecidableEq, Repr

namespace Filling

/-- What a link points to. -/
def load (f : Filling) : Link Unit ℕ → Option ℕ
  | .root _ => f.head
  | .next i => f.cells[i]?.bind (·.next)

/-- `*peerp = &peer[i]`. -/
def link (f : Filling) (i : ℕ) : Filling :=
  match f.peerp with
  | .root _ => { f with head := some i }
  | .next j => { f with cells := f.cells.modify j fun cell => { cell with next := some i } }

/-- The fields of `peer[n]` that the loop stores. -/
def fields (peer : RrPeer) (server : UpstreamServer) (addr : UpstreamAddr) : RrPeer :=
  { peer with
    sockaddr := addr.sockaddr
    socklen := addr.socklen
    name := addr.name
    weight := server.weight
    effectiveWeight := server.weight
    currentWeight := 0
    maxConns := server.maxConns
    maxFails := server.maxFails
    failTimeout := server.failTimeout
    down := server.down
    server := server.name }

/-- The body of the inner loop. -/
def storePeer (server : UpstreamServer) (f : Filling) (addr : UpstreamAddr) : Except Fault Filling :=
  if f.n < f.cells.length then
    let f₁ := { f with cells := f.cells.modify f.n fun cell => { cell with peer := fields cell.peer server addr } }
    let f₂ := f₁.link f₁.n
    .ok { f₂ with peerp := .next f₂.n, n := f₂.n + 1 }
  else .error .outOfBounds

/-- The body of the outer loop. -/
def storeServer (backup : Bool) (f : Filling) (server : UpstreamServer) : Except Fault Filling :=
  if server.backup = backup then server.addrs.foldlM (storePeer server) f else .ok f

/-- The loops over the servers of one group, with an array of `n` elements. -/
def fill (backup : Bool) (n : ℕ) (servers : List UpstreamServer) : Except Fault Filling :=
  servers.foldlM (storeServer backup) ⟨List.replicate n zeroCell,none,0,.root ()⟩

end Filling

/-- `ngx_http_upstream_rr_peers_t` and the array that is allocated for it. -/
structure PeersMemory where
  number : ℕ
  totalWeight : ℕ
  single : Bool
  weighted : Bool
  name : String
  peer : Option ℕ
  cells : List PeerCell
  deriving DecidableEq, Repr

/-- `peers`, and `peers->next`. -/
structure UpstreamMemory where
  primary : PeersMemory
  backup : Option PeersMemory
  deriving DecidableEq, Repr

/-- `ngx_http_upstream_init_round_robin` for an upstream with servers; `none` is NGX_ERROR. -/
def initMemory (pcalloc : ℕ → Bool) (host : String) (servers : List UpstreamServer) :
    Except Fault (Option UpstreamMemory) := do
  let (n,w) := countServers false servers 0 0
  if n = 0 then return none
  else if !pcalloc 0 || !pcalloc 1 then return none
  else
    let f ← Filling.fill false n servers
    let peers : PeersMemory := ⟨n,w,n == 1,w != n,host,f.head,f.cells⟩
    let (bn,bw) := countServers true servers 0 0
    if bn = 0 then return some ⟨peers,none⟩
    else if !pcalloc 2 || !pcalloc 3 then return none
    else
      let bf ← Filling.fill true bn servers
      return some ⟨{ peers with single := false },some ⟨bn,bw,false,bw != bn,host,bf.head,bf.cells⟩⟩

/-! ### The filling loops -/

namespace Filling

variable {f f' : Filling} {peers : List RrPeer} {server : UpstreamServer} {addr : UpstreamAddr}

/-- The first `n` elements hold the peers, linked in their order, and the rest is as allocated. -/
structure Holds (f : Filling) (peers : List RrPeer) : Prop where
  n_eq : f.n = peers.length
  peerp_eq : f.peerp = lastLink (.root ()) (List.range f.n)
  path : Path f.load f.head (List.range f.n)
  peer : ∀ i < f.n, f.cells[i]?.map (·.peer) = peers[i]?
  rest : ∀ i, f.n ≤ i → i < f.cells.length → f.cells[i]? = some zeroCell

theorem Holds.start (n : ℕ) : Holds ⟨List.replicate n zeroCell,none,0,.root ()⟩ [] := by
  refine ⟨rfl,rfl,rfl,fun i hi => absurd hi (Nat.not_lt_zero i),fun i _ hi => ?_⟩
  rw [List.length_replicate] at hi
  exact List.getElem?_replicate_of_lt hi

/-- The stored fields and the zeros of the allocation make the peer of the model. -/
theorem fields_zeroCell (server : UpstreamServer) (addr : UpstreamAddr) :
    fields zeroCell.peer server addr = peerOf server addr := rfl

/-- Only the link that `peerp` points to changes. -/
theorem load_link (h : ∀ j, f.peerp = .next j → j < f.cells.length) (i : ℕ) (k : Link Unit ℕ) :
    (f.link i).load k = if k = f.peerp then some i else f.load k := by
  unfold link
  cases hpeerp : f.peerp with
  | root r =>
    cases k with
    | root r' => simp [load]
    | next j => simp [load]
  | next j =>
    cases k with
    | root r => simp [load]
    | next j' =>
      by_cases hj : j' = j
      · subst hj
        simp [load,List.getElem?_eq_getElem (h j' hpeerp)]
      · simp [load,Ne.symm hj,hj]

theorem link_cells (f : Filling) (i j : ℕ) :
    ((f.link i).cells[j]?.map (·.peer) = f.cells[j]?.map (·.peer)) ∧
    (f.peerp ≠ .next j → (f.link i).cells[j]? = f.cells[j]?) ∧
    (f.link i).cells.length = f.cells.length ∧ (f.link i).n = f.n := by
  unfold link
  cases hpeerp : f.peerp with
  | root r => exact ⟨rfl,fun _ => rfl,rfl,rfl⟩
  | next j' =>
    refine ⟨?_,fun hne => ?_,List.length_modify ..,rfl⟩
    · rw [List.getElem?_modify]
      cases f.cells[j]? with
      | none => rfl
      | some cell =>
        simp only [Option.map_eq_map,Option.map_some]
        split <;> rfl
    · have hj : j' ≠ j := fun heq => hne (heq ▸ rfl)
      simp [hj]

/-- One round of the inner loop appends one peer to the list. -/
theorem Holds.storePeer (h : f.Holds peers) (hroom : f.n < f.cells.length) (server : UpstreamServer)
    (addr : UpstreamAddr) :
    ∃ f', storePeer server f addr = .ok f' ∧ f'.Holds (peers ++ [peerOf server addr]) ∧
      f'.cells.length = f.cells.length := by
  unfold Filling.storePeer
  rw [if_pos hroom]
  set f₁ : Filling := { f with
    cells := f.cells.modify f.n fun cell => { cell with peer := fields cell.peer server addr } } with hf₁
  have hlength : f₁.cells.length = f.cells.length := List.length_modify ..
  have hlast : ∀ j, f₁.peerp = .next j → j < f.n := by
    intro j hj
    have hpeerp : f.peerp = .next j := hj
    rw [h.peerp_eq] at hpeerp
    rcases lastLink_mem (.root ()) (List.range f.n) with hroot | ⟨x,hx,hnext⟩
    · rw [hroot] at hpeerp
      cases hpeerp
    · rw [hnext] at hpeerp
      cases hpeerp
      exact List.mem_range.mp hx
  have hload₁ : ∀ k, f₁.load k = f.load k := by
    intro k
    cases k with
    | root r => rfl
    | next j =>
      simp only [load,hf₁,List.getElem?_modify]
      cases f.cells[j]? with
      | none => rfl
      | some cell =>
        simp only [Option.bind_some]
        split <;> rfl
  have hload : ∀ k, (f₁.link f₁.n).load k = if k = f.peerp then some f.n else f.load k := fun k =>
    (load_link (fun j hj => hlength ▸ (hlast j hj).trans hroom) f₁.n k).trans (by rw [hload₁])
  have hcells := link_cells f₁ f₁.n
  have hnew : ∀ j, f.n ≤ j → f₁.peerp ≠ .next j := fun j hj heq => absurd (hlast j heq) (not_lt.mpr hj)
  have hn : (f₁.link f₁.n).n = f.n := (hcells 0).2.2.2
  have hlen : (f₁.link f₁.n).cells.length = f.cells.length := (hcells 0).2.2.1.trans hlength
  have hfresh : f.load (.next f.n) = none := by
    simp [load,h.rest f.n (le_refl _) hroom,zeroCell]
  obtain ⟨f₂,hf₂⟩ : ∃ f₂, f₁.link f₁.n = f₂ := ⟨_,rfl⟩
  rw [hf₂] at hload hcells hn hlen
  refine ⟨{ f₂ with peerp := .next f₂.n, n := f₂.n + 1 },by rw [← hf₂],⟨?_,?_,?_,fun i hi => ?_,fun i hi hlt => ?_⟩,hlen⟩
  · simp [hn,h.n_eq]
  · simp only [hn,List.range_succ,lastLink_concat]
  · simp only [hn,List.range_succ]
    have hpath : Path f.load (f.load (.root ())) (List.range f.n) := h.path
    refine hpath.concat (by simp) List.nodup_range ?_ ?_ (fun k hk hne => ?_) (by simp) (by simp)
    · exact (hload (.next f.n)).trans ((if_neg (Ne.symm (hnew f.n (le_refl _)))).trans hfresh)
    · exact (hload _).trans (if_pos h.peerp_eq.symm)
    · exact (hload k).trans (if_neg (h.peerp_eq ▸ hne))
  · rw [(hcells i).1,List.getElem?_modify]
    have hle : i < f₂.n + 1 := hi
    rcases Nat.lt_or_ge i f.n with hold | hlast
    · simp only [if_neg hold.ne',Option.map_eq_map,Option.map_id']
      rw [List.getElem?_append_left (h.n_eq ▸ hold),← h.peer i hold]
    · obtain rfl : i = f.n := by omega
      rw [h.rest f.n (le_refl _) hroom]
      simp [h.n_eq,fields_zeroCell]
  · have hafter : f₂.n + 1 ≤ i := hi
    rw [(hcells i).2.1 (hnew i (by omega)),List.getElem?_modify,h.rest i (by omega) (hlen ▸ hlt)]
    simp [show f.n ≠ i by omega]

/-- The inner loop appends one peer per address. -/
theorem Holds.storePeers (server : UpstreamServer) {addrs : List UpstreamAddr} (h : f.Holds peers)
    (hroom : peers.length + addrs.length ≤ f.cells.length) :
    ∃ f', addrs.foldlM (Filling.storePeer server) f = .ok f' ∧ f'.Holds (peers ++ addrs.map (peerOf server)) ∧
      f'.cells.length = f.cells.length := by
  induction addrs generalizing f peers with
  | nil => exact ⟨f,rfl,by simpa using h,rfl⟩
  | cons addr addrs ih =>
    rw [List.length_cons] at hroom
    obtain ⟨f₁,hstore,hholds,hlength⟩ := h.storePeer (by rw [h.n_eq]; omega) server addr
    obtain ⟨f',hrest,hholds',hlength'⟩ := ih hholds (by rw [List.length_append,List.length_singleton,hlength]; omega)
    refine ⟨f',?_,by simpa using hholds',hlength'.trans hlength⟩
    rw [List.foldlM_cons,hstore]
    exact hrest

/-- The outer loop appends the peers of the group, as far as the array has room for them. -/
theorem Holds.storeServers (backup : Bool) {servers : List UpstreamServer} (h : f.Holds peers)
    (hroom : peers.length + (fillPeers backup servers).length ≤ f.cells.length) :
    ∃ f', servers.foldlM (storeServer backup) f = .ok f' ∧ f'.Holds (peers ++ fillPeers backup servers) ∧
      f'.cells.length = f.cells.length := by
  induction servers generalizing f peers with
  | nil => exact ⟨f,rfl,by simpa [fillPeers] using h,rfl⟩
  | cons server servers ih =>
    rw [List.foldlM_cons]
    by_cases hgroup : server.backup = backup
    · rw [fillPeers,if_pos hgroup,List.length_append,List.length_map] at hroom
      obtain ⟨f₁,hstore,hholds,hlength⟩ := h.storePeers server (by omega : peers.length + server.addrs.length ≤ _)
      obtain ⟨f',hrest,hholds',hlength'⟩ := ih hholds (by rw [List.length_append,List.length_map,hlength]; omega)
      refine ⟨f',?_,?_,hlength'.trans hlength⟩
      · rw [storeServer,if_pos hgroup,hstore]
        exact hrest
      · rw [fillPeers,if_pos hgroup,← List.append_assoc]
        exact hholds'
    · rw [fillPeers,if_neg hgroup] at hroom ⊢
      obtain ⟨f',hrest,hholds',hlength'⟩ := ih h hroom
      refine ⟨f',?_,hholds',hlength'⟩
      rw [storeServer,if_neg hgroup]
      exact hrest

/-- The array that the counting loop asks for has room for exactly the peers that are stored. -/
theorem fill_holds (backup : Bool) (servers : List UpstreamServer) :
    ∃ f, fill backup (countServers backup servers 0 0).1 servers = .ok f ∧ f.Holds (fillPeers backup servers) ∧
      f.cells.length = (fillPeers backup servers).length := by
  have hcount : (countServers backup servers 0 0).1 = (fillPeers backup servers).length := by
    simpa using (countServers_eq backup servers 0 0).1
  obtain ⟨f,hfill,hholds,hlength⟩ := (Holds.start (countServers backup servers 0 0).1).storeServers backup
    (by simp [hcount] : ([] : List RrPeer).length + (fillPeers backup servers).length ≤ _)
  exact ⟨f,hfill,by simpa using hholds,by rw [hlength,List.length_replicate,hcount]⟩

end Filling

/-! ### The groups in memory -/

/-- The peers that the configuration asks for in one group: one per address, with what their server has. -/
def configured (backup : Bool) (servers : List UpstreamServer) : List RrPeer :=
  (servers.filter fun server => server.backup = backup).flatMap fun server => server.addrs.map (peerOf server)

theorem fillPeers_eq (backup : Bool) (servers : List UpstreamServer) :
    fillPeers backup servers = configured backup servers := by
  induction servers with
  | nil => rfl
  | cons server servers ih =>
    unfold fillPeers
    split
    · rename_i hgroup
      rw [ih,configured,configured,List.filter_cons_of_pos (by simpa using hgroup),List.flatMap_cons]
    · rename_i hgroup
      rw [ih,configured,configured,List.filter_cons_of_neg (by simpa using hgroup)]

theorem configured_eq_nil {backup : Bool} {servers : List UpstreamServer} :
    configured backup servers = [] ↔ ∀ server ∈ servers, server.backup = backup → server.addrs = [] := by
  simp [configured,List.flatMap_eq_nil_iff]

namespace PeersMemory

/-- What a link points to. -/
def load (m : PeersMemory) : Link Unit ℕ → Option ℕ
  | .root _ => m.peer
  | .next i => m.cells[i]?.bind (·.next)

/-- From `peers->peer` the links lead to these peers and then to NULL, inside the array. -/
def Lists (m : PeersMemory) (peers : List RrPeer) : Prop :=
  ∃ path, Path m.load m.peer path ∧ path.map (fun i => m.cells[i]?.map (·.peer)) = peers.map some

theorem lists_of_holds {f : Filling} {peers : List RrPeer} (h : f.Holds peers) {number totalWeight : ℕ}
    {single weighted : Bool} {name : String} :
    Lists ⟨number,totalWeight,single,weighted,name,f.head,f.cells⟩ peers := by
  refine ⟨List.range f.n,h.path.congr fun _ _ => rfl,List.ext_getElem? fun i => ?_⟩
  rcases Nat.lt_or_ge i f.n with hlt | hge
  · have hpeer := h.peer i hlt
    have hlt' : i < peers.length := h.n_eq ▸ hlt
    rw [List.getElem?_eq_getElem hlt'] at hpeer
    simp [List.getElem?_range hlt,hpeer,hlt']
  · simp [hge,h.n_eq ▸ hge]

/-- The record is that of the group, and its list holds the peers of the group. -/
def Refines (m : PeersMemory) (g : RrPeers) : Prop :=
  m.Lists g.peer ∧ m.number = g.number ∧ m.totalWeight = g.totalWeight ∧ m.single = g.single ∧
    m.weighted = g.weighted ∧ m.name = g.name

/-- The record and its list agree. -/
structure Describes (m : PeersMemory) (peers : List RrPeer) : Prop where
  lists : m.Lists peers
  number : m.number = peers.length
  allocated : m.cells.length = peers.length
  totalWeight : (m.totalWeight : ℤ) = weightSum peers
  weighted : m.weighted = false ↔ ∀ peer ∈ peers, peer.weight = 1

end PeersMemory

/-- With weights of at least 1 the sum is the length exactly when all are 1. -/
theorem weightSum_eq_length {peers : List RrPeer} (h : ∀ peer ∈ peers, 1 ≤ peer.weight) :
    weightSum peers = peers.length ↔ ∀ peer ∈ peers, peer.weight = 1 := by
  have hle : ∀ peers : List RrPeer, (∀ peer ∈ peers, 1 ≤ peer.weight) → (peers.length : ℤ) ≤ weightSum peers := by
    intro peers h
    induction peers with
    | nil => simp
    | cons peer peers ih =>
      obtain ⟨hpeer,hrest⟩ := List.forall_mem_cons.mp h
      have := ih hrest
      simp only [List.length_cons,weightSum_cons,Nat.cast_add,Nat.cast_one]
      omega
  induction peers with
  | nil => simp
  | cons peer peers ih =>
    obtain ⟨hpeer,hrest⟩ := List.forall_mem_cons.mp h
    have hsum := hle peers hrest
    rw [List.forall_mem_cons]
    refine Iff.trans ?_ (and_congr_right fun _ => ih hrest)
    simp only [List.length_cons,weightSum_cons,Nat.cast_add,Nat.cast_one]
    omega

/-- What the two loops over one group leave. -/
theorem fill_describes (backup : Bool) (servers : List UpstreamServer) (hweight : ∀ server ∈ servers, 1 ≤ server.weight) :
    ∃ f, Filling.fill backup (countServers backup servers 0 0).1 servers = .ok f ∧ ∀ single host,
      PeersMemory.Describes ⟨(countServers backup servers 0 0).1,(countServers backup servers 0 0).2,single,
        (countServers backup servers 0 0).2 != (countServers backup servers 0 0).1,host,f.head,f.cells⟩
        (configured backup servers) := by
  obtain ⟨f,hfill,hholds,hlength⟩ := Filling.fill_holds backup servers
  obtain ⟨hn,hw⟩ := countServers_eq backup servers 0 0
  rw [fillPeers_eq] at hholds hlength hn hw
  rw [Nat.zero_add] at hn
  rw [Nat.cast_zero,zero_add] at hw
  have hpos : ∀ peer ∈ configured backup servers, 1 ≤ peer.weight := by
    intro peer hpeer
    rw [← fillPeers_eq] at hpeer
    obtain ⟨server,hserver,-,addr,-,rfl⟩ := mem_fillPeers hpeer
    exact Int.toNat_le.mp (hweight server hserver)
  refine ⟨f,hfill,fun single host => ⟨PeersMemory.lists_of_holds hholds,hn,hlength,hw,?_⟩⟩
  rw [← weightSum_eq_length hpos,← hw,← hn]
  simp

/-- The groups of the model are what the construction leaves in memory. -/
theorem initMemory_refines (pcalloc : ℕ → Bool) (resolve : String → ℕ → Option (List UpstreamAddr)) (host : String)
    (port : ℕ) (servers : List UpstreamServer) :
    ∃ result, initMemory pcalloc host servers = .ok result ∧
      match result,initRoundRobin pcalloc resolve ⟨some servers,host,port⟩ with
      | some u,.ok v => u.primary.Refines v.primary ∧ Option.Rel PeersMemory.Refines u.backup v.backup
      | none,.error _ => True
      | _,_ => False := by
  obtain ⟨f,hfill,hholds,-⟩ := Filling.fill_holds false servers
  obtain ⟨bf,hbfill,hbholds,-⟩ := Filling.fill_holds true servers
  unfold initMemory initRoundRobin
  dsimp only
  split_ifs with hzero hmem hbzero hbmem
  · exact ⟨none,rfl,trivial⟩
  · exact ⟨none,rfl,trivial⟩
  · rw [hfill]
    exact ⟨_,rfl,⟨PeersMemory.lists_of_holds hholds,rfl,rfl,rfl,rfl,rfl⟩,.none⟩
  · rw [hfill]
    exact ⟨none,rfl,trivial⟩
  · rw [hfill]
    simp only [bind,Except.bind]
    rw [hbfill]
    exact ⟨_,rfl,⟨PeersMemory.lists_of_holds hholds,rfl,rfl,rfl,rfl,rfl⟩,
      .some ⟨PeersMemory.lists_of_holds hbholds,rfl,rfl,rfl,rfl,rfl⟩⟩

/-- Building the peer lists stays in the allocated arrays and loses nothing; it fails when no server
that is not a backup has an address. -/
theorem init_round_robin_lists (pcalloc : ℕ → Bool) (host : String) (servers : List UpstreamServer)
    (hweight : ∀ server ∈ servers, 1 ≤ server.weight) :
    ∃ result, initMemory pcalloc host servers = .ok result ∧
      (∀ u, result = some u → u.primary.Describes (configured false servers) ∧
        (∀ m, u.backup = some m → m.Describes (configured true servers)) ∧
        (u.backup.isSome ↔ ∃ server ∈ servers, server.backup = true ∧ server.addrs ≠ []) ∧
        (u.primary.single = true ↔ (configured false servers).length = 1 ∧ u.backup = none)) ∧
      ((∀ server ∈ servers, server.backup = false → server.addrs = []) → result = none) := by
  obtain ⟨f,hfill,hdescribes⟩ := fill_describes false servers hweight
  obtain ⟨bf,hbfill,hbdescribes⟩ := fill_describes true servers hweight
  have hn : (countServers false servers 0 0).1 = (configured false servers).length := (hdescribes false host).number
  have hbn : (countServers true servers 0 0).1 = (configured true servers).length := (hbdescribes false host).number
  have hnone : (configured true servers).length = 0 ↔ ¬ ∃ server ∈ servers, server.backup = true ∧ server.addrs ≠ [] := by
    rw [List.length_eq_zero_iff,configured_eq_nil]
    push Not
    rfl
  have hempty : (∀ server ∈ servers, server.backup = false → server.addrs = []) ↔ (configured false servers).length = 0 := by
    rw [List.length_eq_zero_iff,configured_eq_nil]
  rw [hempty]
  unfold initMemory
  cases hc : countServers false servers 0 0 with
  | mk n w =>
  cases hbc : countServers true servers 0 0 with
  | mk bn bw =>
  simp only [hc,hbc] at hn hbn hfill hbfill hdescribes hbdescribes ⊢
  split_ifs with hzero hmem hbzero hbmem
  · exact ⟨none,rfl,by simp,fun _ => rfl⟩
  · exact ⟨none,rfl,by simp,fun _ => rfl⟩
  · have hno := hnone.mp (hbn.symm.trans hbzero)
    rw [hfill]
    refine ⟨_,rfl,?_,fun he => absurd (hn.trans he) hzero⟩
    rintro u ⟨⟩
    refine ⟨hdescribes _ _,by simp,iff_of_false Bool.false_ne_true hno,?_⟩
    rw [← hn]
    simp
  · rw [hfill]
    exact ⟨none,rfl,by simp,fun he => absurd (hn.trans he) hzero⟩
  · rw [hfill]
    simp only [bind,Except.bind]
    rw [hbfill]
    refine ⟨_,rfl,?_,fun he => absurd (hn.trans he) hzero⟩
    rintro u ⟨⟩
    have hsome := not_imp_comm.mp hnone.mpr (hbn ▸ hbzero)
    refine ⟨hdescribes _ _,fun m hm => ?_,iff_of_true rfl hsome,by simp⟩
    cases hm
    exact hbdescribes _ _

/-- A server with two addresses, a backup server, and a server without addresses. -/
def mixedServers : List UpstreamServer :=
  [⟨"a",[⟨1,16,"a1"⟩,⟨2,16,"a2"⟩],5,0,1,10,false,false⟩,⟨"b",[⟨3,16,"b1"⟩],1,0,1,10,false,true⟩,
    ⟨"c",[],1,0,1,10,false,false⟩]

theorem init_round_robin_lists_mixed : ∃ u, initMemory (fun _ => true) "u" mixedServers = .ok (some u) ∧
    u.primary.Describes (configured false mixedServers) ∧ (configured false mixedServers).length = 2 ∧
    ∃ m, u.backup = some m ∧ m.Describes (configured true mixedServers) := by
  obtain ⟨u,m,hinit,hm⟩ : ∃ u m, initMemory (fun _ => true) "u" mixedServers = .ok (some u) ∧ u.backup = some m :=
    ⟨_,_,rfl,rfl⟩
  obtain ⟨result,hresult,hlists,-⟩ := init_round_robin_lists (fun _ => true) "u" mixedServers (by decide)
  cases hinit.symm.trans hresult
  obtain ⟨hprimary,hbackup,-⟩ := hlists u rfl
  exact ⟨u,hinit,hprimary,rfl,m,hm,hbackup m hm⟩

end InsideNginx.HttpUpstream
