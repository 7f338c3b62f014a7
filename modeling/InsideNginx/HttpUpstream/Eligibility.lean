import InsideNginx.HttpUpstream.Connections

/-! The bitmap of a request over a whole run: a request never gets a peer of a group twice,
and gets only eligible peers. -/
namespace InsideNginx.HttpUpstream
variable {κ : Type} [DecidableEq κ] {pcalloc : κ → ℕ → Bool}
  {resolve : String → ℕ → Option (List UpstreamAddr)} {conf : κ → UpstreamSrvConf}

/-- Eligibility, spelled out. -/
theorem eligible_iff {now : ℤ} {tried : Tried} {i : ℕ} {peer : RrPeer} :
    eligible now tried i peer = true ↔ WordBitset.bit tried i = false ∧ peer.down = false ∧
      (0 < peer.maxConns → peer.conns < peer.maxConns) ∧
      ¬ (0 < peer.maxFails ∧ peer.maxFails ≤ peer.fails ∧ now - peer.checked ≤ peer.failTimeout) := by
  simp only [eligible_eq_true,RrPeer.unavailable,RrPeer.atLimit,Bool.and_eq_false_iff,bne_eq_false_iff_eq,
    decide_eq_false_iff_not]
  constructor
  · rintro ⟨hb,hd,hf,hc⟩
    exact ⟨hb,hd,fun _ => by omega,by omega⟩
  · rintro ⟨hb,hd,hc,hf⟩
    exact ⟨hb,hd,by omega,by omega⟩

/-- No step of a run changes the shape of an upstream. -/
theorem World.step_sameShape {w w' : World κ} {a : Action κ} (h : Accounted w)
    (hstep : w.step a = some w') (us : κ) : (w.ups us).SameShape (w'.ups us) := by
  refine World.step_ups (P := fun _ u u' => u.SameShape u') hstep (fun us => .refl _) ?_ ?_ us
  · intro i balancer now s rc u req _ hi hcall
    have hs := List.mem_of_getElem? hi
    obtain ⟨g,hg⟩ := h.group s hs
    have hserved := Balancer.served (h.sound s.us) (h.covers s hs) hg hcall
    cases rc with
    | ok =>
      obtain ⟨-,-,-,-,hshape,-⟩ := hserved.ok_effect
      exact hshape
    | busy =>
      obtain ⟨rfl,-⟩ := hserved.busy_effect
      exact .refl _
  · intro i now peerFailed s ptr u req _ hi hholds hcall
    exact (freeRoundRobinPeer_effect (h.held s (List.mem_of_getElem? hi) ptr hholds).1 hcall).2.1

/-! ### The record of one request -/

/-- What the bitmap and the record of a request say about each other. -/
structure Session.Recorded (s : Session κ) (u : Upstream) : Prop where
  inRange : ∀ q ∈ s.got, ∃ peer, u.peerAt q = some peer
  primary : s.req.rrp.peers = .primary → ∀ q ∈ s.got, q.1 = .primary
  bits : ∀ g, u.group s.req.rrp.peers = some g → g.single = false → ∀ i < 64*triedWords g.number,
    (WordBitset.bit s.req.rrp.tried i = true ↔ (s.req.rrp.peers,i) ∈ s.got)
  nodup : u.primary.single = false → s.got.Nodup

omit [DecidableEq κ] in
theorem Session.Recorded.of_sameShape {s : Session κ} {u u' : Upstream} (h : s.Recorded u)
    (hs : u.SameShape u') : s.Recorded u' where
  inRange q hq := by
    obtain ⟨peer,hp⟩ := h.inRange q hq
    exact hs.peerAt hp
  primary := h.primary
  bits g' hg' hsingle i hi := by
    obtain ⟨g,hg,he⟩ := hs.group hg'
    obtain ⟨hn,-,hsing,-⟩ := RrPeers.shape_eq_iff.mp he
    exact h.bits g hg (hsing ▸ hsingle) i (hn ▸ hi)
  nodup hsingle := by
    obtain ⟨g,hg,he⟩ := hs.group (rfl : u'.group .primary = some u'.primary)
    obtain rfl : u.primary = g := by simpa [Upstream.group] using hg
    exact h.nodup ((RrPeers.shape_eq_iff.mp he).2.2.1 ▸ hsingle)

/-- A chosen position is inside its group. -/
theorem Chosen.lt {now : ℤ} {g : RrPeers} {tried : Tried} {p : ℕ} {peers : List RrPeer}
    (h : Chosen now g tried p peers) (hg : g.Sound) : p < g.number := by
  obtain ⟨peer,hp,-⟩ := h.canServe
  rw [hg.number]
  rw [List.getElem?_eq_some_iff] at hp
  exact hp.1

lemma lt_triedWords {i n : ℕ} (h : i < n) : i < 64*triedWords n := by unfold triedWords; omega

omit [DecidableEq κ] in
/-- In a group of several peers the chosen peer had not been got from that group before. -/
theorem Session.Recorded.not_mem {s : Session κ} {u : Upstream} {g : RrPeers} {now : ℤ} {p : ℕ}
    {peers : List RrPeer} (h : s.Recorded u) (hg : u.group s.req.rrp.peers = some g) (hsound : g.Sound)
    (hs : g.single = false) (hc : Chosen now g s.req.rrp.tried p peers) :
    (s.req.rrp.peers,p) ∉ s.got := by
  obtain ⟨peer,hp,he⟩ := hc.canServe
  rw [eligible_of_several hs,eligible_iff] at he
  have hb := h.bits g hg hs p (lt_triedWords (hc.lt hsound))
  rw [← hb,he.1]
  decide

omit [DecidableEq κ] in
/-- A selection in the current group keeps the record. -/
theorem Session.Recorded.here {s : Session κ} {u : Upstream} {g : RrPeers} {now : ℤ} {p : ℕ}
    {peers : List RrPeer} {req : Request} (hu : u.Sound) (h : s.Recorded u)
    (hg : u.group s.req.rrp.peers = some g) (hc : Chosen now g s.req.rrp.tried p peers)
    (ht : Took g s.req.rrp p req.rrp) : (s.selected .ok req).Recorded u := by
  have hsound := hu.group _ _ hg
  have hgot : (s.selected .ok req).got = s.got ++ [(s.req.rrp.peers,p)] := by
    simp [Session.selected,ht.current]
  refine ⟨fun q hq => ?_,fun hp q hq => ?_,fun g' hg' hs i hi => ?_,fun hs => ?_⟩
  · rw [hgot] at hq
    rcases List.mem_append.mp hq with hq | hq
    · exact h.inRange q hq
    · rw [List.mem_singleton] at hq
      subst hq
      obtain ⟨peer,hp,-⟩ := hc.canServe
      exact ⟨peer,by simpa [Upstream.peerAt,hg] using hp⟩
  · have hp : s.req.rrp.peers = .primary := ht.peers.symm.trans hp
    rw [hgot] at hq
    rcases List.mem_append.mp hq with hq | hq
    · exact h.primary hp q hq
    · rw [List.mem_singleton] at hq
      exact hq ▸ hp
  · rw [show (s.selected .ok req).req = req from rfl,ht.peers] at hg' ⊢
    rw [hg] at hg'
    cases hg'
    rw [ht.bit hs,hgot,List.mem_append,List.mem_singleton,Bool.or_eq_true,h.bits g hg hs i hi]
    simp
  · rw [hgot]
    have hsg : g.single = false := by
      cases hptr : s.req.rrp.peers with
      | primary => rw [hptr] at hg; cases hg; exact hs
      | backup => rw [hptr] at hg; exact hu.backup_single g hg
    have hnot := h.not_mem hg hsound hsg hc
    exact List.Nodup.append (h.nodup hs) (List.nodup_singleton _) (by simpa using hnot)

omit [DecidableEq κ] in
/-- The switch to the backup group starts a new record for that group. -/
theorem Session.Recorded.switch {s t : Session κ} {u : Upstream} {next : RrPeers}
    (h : s.Recorded u) (hnext : u.next s.req.rrp.peers = some next)
    (hsw : Switched next s.req.rrp t.req.rrp) (hgot : t.got = s.got) : t.Recorded u := by
  have hprimary := (Upstream.next_eq_some hnext).1
  have hbackup := (Upstream.next_eq_some hnext).2
  refine ⟨by rw [hgot]; exact h.inRange,fun hp => ?_,fun g hg hs i hi => ?_,by rw [hgot]; exact h.nodup⟩
  · rw [hsw.peers] at hp
    cases hp
  · rw [hsw.peers,hbackup] at hg
    cases hg
    have hi' : ¬ triedWords next.number ≤ i/64 := by omega
    rw [hsw.bit,hsw.peers,hgot]
    simp only [hi',decide_false,Bool.false_and,Bool.false_eq_true,false_iff]
    intro hm
    have := h.primary hprimary _ hm
    cases this

omit [DecidableEq κ] in
/-- Every call keeps the record of its request. -/
theorem Session.Recorded.selected {s : Session κ} {u u' : Upstream} {now : ℤ} {rc : Rc} {req : Request}
    (hu : u.Sound) (h : s.Recorded u) (hserved : Served now u s.req.rrp rc u' req.rrp) :
    (s.selected rc req).Recorded u' := by
  cases rc with
  | ok =>
    obtain ⟨-,-,-,-,hshape,-⟩ := hserved.ok_effect
    apply Session.Recorded.of_sameShape _ hshape
    generalize hrrp : req.rrp = rrp' at hserved
    cases hserved with
    | here group chosen took => exact h.here hu group chosen (hrrp ▸ took)
    | @next g next p peers rrp₁ _ group exhausted hnext switched chosen took =>
      have hb := (Upstream.next_eq_some hnext).2
      have hmid := h.switch (t := ⟨s.us,{ s.req with rrp := rrp₁ },s.holds,s.got⟩) hnext switched rfl
      have hlast := hmid.here hu (by simpa only [switched.peers] using hb) chosen (show Took next rrp₁ p req.rrp from hrrp ▸ took)
      simpa only [Session.selected] using hlast
  | busy =>
    generalize hrrp : req.rrp = rrp' at hserved
    cases hserved with
    | busyNext group exhausted hnext switched exhaustedNext =>
      exact h.switch (t := s.selected .busy req) hnext (hrrp ▸ switched) rfl
    | busy group exhausted hnext =>
      refine ⟨h.inRange,fun hp => h.primary (hrrp ▸ hp),fun g hg => ?_,h.nodup⟩
      rw [show (s.selected .busy req).req = req from rfl,hrrp] at hg ⊢
      exact h.bits g hg

/-- Every request of a reachable state carries a correct record. -/
theorem reachable_recorded {w : World κ} (h : (balancing pcalloc resolve conf).Reachable w) :
    ∀ s ∈ w.sessions, s.Recorded (w.ups s.us) := by
  refine h.invariant (I := fun w => ∀ s ∈ w.sessions, s.Recorded (w.ups s.us)) ?_ ?_
  · rintro w ⟨hs,-⟩
    simp [hs]
  · intro w a w' hreach ih hstep
    have hacc := reachable_accounted hreach
    have hshape := World.step_sameShape hacc hstep
    obtain ⟨us,pcalloc,addr,req,-,hreq,rfl⟩ | ⟨i,balancer,now,s,rc,u,req,-,hi,hidle,hcall,rfl⟩ |
      ⟨i,now,peerFailed,s,ptr,u,req,-,hi,hholds,hcall,rfl⟩ := World.step_cases hstep
    · intro s hs
      rcases List.mem_append.mp hs with hs | hs
      · exact ih s hs
      · rw [List.mem_singleton] at hs
        subst hs
        obtain ⟨rrp,hrrp,rfl⟩ := Option.map_eq_some_iff.mp hreq
        obtain ⟨hpeers,-,-,hempty⟩ := initRoundRobinPeer_fresh hrrp
        exact ⟨by simp,by simp,fun g hg hs i hi => by simp [hempty],by simp⟩
    · intro t ht
      rcases List.mem_or_eq_of_mem_set ht with ht | rfl
      · exact (ih t ht).of_sameShape (hshape t.us)
      · have hs := List.mem_of_getElem? hi
        obtain ⟨g,hg⟩ := hacc.group s hs
        have hserved := Balancer.served (hacc.sound s.us) (hacc.covers s hs) hg hcall
        have hrec := (ih s hs).selected (hacc.sound s.us) hserved
        have hus : (s.selected rc req).us = s.us := by cases rc <;> rfl
        simpa [World.update,hus] using hrec
    · intro t ht
      rcases List.mem_or_eq_of_mem_set ht with ht | rfl
      · exact (ih t ht).of_sameShape (hshape t.us)
      · have hs := List.mem_of_getElem? hi
        obtain ⟨hrrp,-⟩ := freeRoundRobinPeer_effect (hacc.held s hs ptr hholds).1 hcall
        have hrec := (ih s hs).of_sameShape (hshape s.us)
        have hpeers : req.rrp.peers = s.req.rrp.peers := by rw [hrrp]
        refine ⟨hrec.inRange,fun hp => hrec.primary (hpeers ▸ hp),fun g hg hs j hj => ?_,hrec.nodup⟩
        rw [show (s.released req).req = req from rfl,hrrp] at hg ⊢
        exact hrec.bits g hg hs j hj

/-! ### No peer twice, and only eligible peers -/

/-- The positions of both groups. -/
def Upstream.positions (u : Upstream) : List PeerPtr :=
  (List.range u.primary.number).map (PeersPtr.primary,·) ++
    match u.backup with
    | some next => (List.range next.number).map (PeersPtr.backup,·)
    | none => []

lemma Upstream.length_positions (u : Upstream) : u.positions.length = u.tries := by
  unfold Upstream.positions Upstream.tries
  cases u.backup <;> simp

theorem Upstream.Sound.mem_positions {u : Upstream} (h : u.Sound) {q : PeerPtr} {peer : RrPeer}
    (hp : u.peerAt q = some peer) : q ∈ u.positions := by
  obtain ⟨g,hg,hi⟩ := Option.bind_eq_some_iff.mp hp
  have hlt : q.2 < g.number := (h.group q.1 g hg).lt_number hi
  obtain ⟨ptr,i⟩ := q
  cases ptr with
  | primary =>
    obtain rfl : u.primary = g := by simpa [Upstream.group] using hg
    simp [Upstream.positions,hlt]
  | backup =>
    have hg : u.backup = some g := hg
    simp [Upstream.positions,hg,hlt]

omit [DecidableEq κ] in
/-- A request gets at most as many peers as the two groups have. -/
theorem Session.Recorded.length_le {s : Session κ} {u : Upstream} (h : s.Recorded u) (hu : u.Sound)
    (hs : u.primary.single = false) : s.got.length ≤ u.tries := by
  have hsub : s.got ⊆ u.positions := fun q hq => by
    obtain ⟨peer,hp⟩ := h.inRange q hq
    exact hu.mem_positions hp
  rw [← u.length_positions]
  exact ((h.nodup hs).subperm hsub).length_le

/-- The peer at `ptr` may be returned to a request that got the peers in `got`. -/
structure Returnable (now : ℤ) (u : Upstream) (got : List PeerPtr) (ptr : PeerPtr) : Prop where
  peer : ∃ g peer, u.group ptr.1 = some g ∧ g.peer[ptr.2]? = some peer ∧ peer.down = false ∧
    (0 < peer.maxConns → peer.conns < peer.maxConns) ∧
    (g.single = false → ptr ∉ got ∧
      ¬ (0 < peer.maxFails ∧ peer.maxFails ≤ peer.fails ∧ now - peer.checked ≤ peer.failTimeout))

omit [DecidableEq κ] in
theorem Session.Recorded.returnable {s : Session κ} {u : Upstream} {g : RrPeers} {now : ℤ} {p : ℕ}
    {peers : List RrPeer} (h : s.Recorded u) (hu : u.Sound) (hg : u.group s.req.rrp.peers = some g)
    (hc : Chosen now g s.req.rrp.tried p peers) : Returnable now u s.got (s.req.rrp.peers,p) := by
  obtain ⟨peer,hp,hserve⟩ := hc.canServe
  cases hs : g.single with
  | true =>
    simp only [RrPeers.canServe,hs,if_true,RrPeer.atLimit,Bool.and_eq_true,Bool.not_eq_true',
      Bool.and_eq_false_iff,bne_eq_false_iff_eq,decide_eq_false_iff_not] at hserve
    exact ⟨g,peer,hg,hp,hserve.1,fun _ => by omega,by simp [hs]⟩
  | false =>
    have hserve := hserve
    rw [eligible_of_several hs,eligible_iff] at hserve
    obtain ⟨-,hdown,hconns,hfails⟩ := hserve
    exact ⟨g,peer,hg,hp,hdown,hconns,fun _ => ⟨h.not_mem hg (hu.group _ _ hg) hs hc,hfails⟩⟩

omit [DecidableEq κ] in
/-- The peer that a call returns was one that it may return. -/
theorem Session.Recorded.served_returnable {s : Session κ} {u u' : Upstream} {now : ℤ} {rrp' : RrPeerData}
    (h : s.Recorded u) (hu : u.Sound) (hserved : Served now u s.req.rrp .ok u' rrp') :
    ∃ ptr, rrp'.current = some ptr ∧ Returnable now u s.got ptr := by
  cases hserved with
  | here group chosen took => exact ⟨_,took.current,h.returnable hu group chosen⟩
  | @next g next p peers rrp₁ _ group exhausted hnext switched chosen took =>
    have hb := (Upstream.next_eq_some hnext).2
    have hmid := h.switch (t := ⟨s.us,{ s.req with rrp := rrp₁ },s.holds,s.got⟩) hnext switched rfl
    exact ⟨_,took.current,hmid.returnable hu (by simpa only [switched.peers] using hb) chosen⟩

/-- A request is never sent twice to the same peer of a group, and only to an eligible one: in
the words of the current group the bitmap holds exactly the peers got from it, and no balancer
reads or writes outside the bitmap. -/
theorem got_once {w : World κ} (h : (balancing pcalloc resolve conf).Reachable w) {s : Session κ}
    (hs : s ∈ w.sessions) :
    (∀ g, (w.ups s.us).group s.req.rrp.peers = some g → g.single = false → ∀ i < 64*triedWords g.number,
      (WordBitset.bit s.req.rrp.tried i = true ↔ (s.req.rrp.peers,i) ∈ s.got)) ∧
    ((w.ups s.us).primary.single = false → s.got.Nodup ∧ s.got.length ≤ (w.ups s.us).tries) ∧
    ∀ (balancer : Balancer) (now : ℤ), balancer.get now (w.ups s.us) s.req ≠ .error .outOfBounds ∧
      ∀ u req, balancer.get now (w.ups s.us) s.req = .ok (.ok,u,req) →
        ∃ ptr, req.rrp.current = some ptr ∧ Returnable now (w.ups s.us) s.got ptr := by
  have hacc := reachable_accounted h
  have hrec := reachable_recorded h s hs
  have hu := hacc.sound s.us
  obtain ⟨g,hg⟩ := hacc.group s hs
  refine ⟨hrec.bits,fun hp => ⟨hrec.nodup hp,hrec.length_le hu hp⟩,fun balancer now => ⟨?_,?_⟩⟩
  · rcases balancer.serves_or hu (hacc.covers s hs) hg now with ⟨rc,u,req,hcall,-⟩ | ⟨-,-,hcall⟩
    · simp [hcall]
    · simp [hcall]
  · intro u req hcall
    exact hrec.served_returnable hu (Balancer.served hu (hacc.covers s hs) hg hcall)

/-- Sixty-four addresses that are down, one that is not, and a backup server. -/
def wideServers : List UpstreamServer :=
  [⟨"down",List.replicate 64 ⟨0,16,"down"⟩,1,0,1,10,true,false⟩,
    ⟨"up",[⟨1,16,"up"⟩],1,0,1,10,false,false⟩,⟨"backup",[⟨2,16,"backup"⟩],1,0,1,10,false,true⟩]

def wideConf : UpstreamSrvConf := ⟨some wideServers,"backend",0⟩

def wideUpstream : Upstream where
  primary := ⟨65,65,false,false,"backend",fillPeers false wideServers⟩
  backup := some ⟨1,1,false,false,"backend",fillPeers true wideServers⟩

lemma initRoundRobin_wide :
    initRoundRobin (fun _ => true) (fun _ _ => none) wideConf = .ok wideUpstream := by decide +kernel

/-- A request that got the last primary peer and then the backup peer. -/
def wideActions : List (Action Unit) :=
  [.init () true [],.select 0 .roundRobin 0,.free 0 0 true,.select 0 .roundRobin 0]

lemma wide_reachable : ∃ w : World Unit,
    (balancing (fun _ _ => true) (fun _ _ => none) fun _ => wideConf).Reachable w ∧
      TransitionSystem.replay World.step ⟨fun _ => wideUpstream,[]⟩ wideActions = some w := by
  have hreturns : (TransitionSystem.replay World.step ⟨fun _ => wideUpstream,[]⟩ wideActions).isSome = true := by
    decide +kernel
  obtain ⟨w,hw⟩ := Option.isSome_iff_exists.mp hreturns
  exact ⟨w,.of_replay (.init ⟨rfl,fun _ => initRoundRobin_wide⟩) hw,hw⟩

/-- The words beyond those of a smaller backup group keep the bits of the primary group. -/
theorem tried_keeps_words : ¬ ∀ w : World Unit,
    (balancing (fun _ _ => true) (fun _ _ => none) fun _ => wideConf).Reachable w →
      ∀ s ∈ w.sessions, ∀ g, (w.ups s.us).group s.req.rrp.peers = some g → g.single = false →
        ∀ i, (WordBitset.bit s.req.rrp.tried i = true ↔ (s.req.rrp.peers,i) ∈ s.got) := by
  intro hall
  obtain ⟨w,hreach,hw⟩ := wide_reachable
  have hs : (TransitionSystem.replay World.step ⟨fun _ => wideUpstream,[]⟩ wideActions).map
      (fun w => w.sessions.map fun s => (s.req.rrp.peers,s.got,WordBitset.bit s.req.rrp.tried 64)) =
      some [(.backup,[(.primary,64),(.backup,0)],true)] := by decide +kernel
  rw [hw,Option.map_some,Option.some.injEq] at hs
  obtain ⟨s,hsessions,hs⟩ : ∃ s, w.sessions = [s] ∧
      (s.req.rrp.peers,s.got,WordBitset.bit s.req.rrp.tried 64) =
        (.backup,[(.primary,64),(.backup,0)],true) := by
    simpa [List.map_eq_singleton_iff] using hs
  simp only [Prod.mk.injEq] at hs
  have hmem : s ∈ w.sessions := by simp [hsessions]
  obtain ⟨g,hg⟩ := (reachable_accounted hreach).group s hmem
  have hbackup : (w.ups s.us).backup = some g := by simpa [hs.1,Upstream.group] using hg
  have hbit := (hall w hreach s hmem g hg ((reachable_accounted hreach).sound s.us |>.backup_single g hbackup) 64).mp
    hs.2.2
  rw [hs.1,hs.2.1] at hbit
  exact absurd hbit (by decide)

/-- The two peers that the request got. -/
theorem got_once_wide : ∃ (w : World Unit) (s : Session Unit),
    (balancing (fun _ _ => true) (fun _ _ => none) fun _ => wideConf).Reachable w ∧
      s ∈ w.sessions ∧ Balancer.leastConn.get 1 (w.ups s.us) s.req ≠ .error .outOfBounds := by
  obtain ⟨w,hreach,hw⟩ := wide_reachable
  have hlength : (TransitionSystem.replay World.step ⟨fun _ => wideUpstream,[]⟩ wideActions).map
      (fun w => w.sessions.length) = some 1 := by decide +kernel
  rw [hw,Option.map_some,Option.some.injEq] at hlength
  have hmem := List.getElem_mem (l := w.sessions) (n := 0) (by omega)
  exact ⟨w,_,hreach,hmem,((got_once hreach hmem).2.2 .leastConn 1).1⟩

end InsideNginx.HttpUpstream
