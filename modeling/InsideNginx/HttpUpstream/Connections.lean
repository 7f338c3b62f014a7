import InsideNginx.HttpUpstream.Requests

/-! Connection accounting: over every interleaving `conns` is the number of requests that
hold the peer, and a limited peer is never held beyond `max_conns`. -/
namespace InsideNginx.HttpUpstream
variable {κ : Type} [DecidableEq κ]

/-- What one step can do, with the guards under which it does it. -/
theorem World.step_cases {w w' : World κ} {a : Action κ} (h : w.step a = some w') :
    (∃ us pcalloc addr req, a = .init us pcalloc addr ∧
      initIpHashPeer pcalloc (w.ups us) addr = some req ∧
      w' = { w with sessions := w.sessions ++ [⟨us,req,none,[]⟩] }) ∨
    (∃ i balancer now s rc u req, a = .select i balancer now ∧ w.sessions[i]? = some s ∧
      s.holds = none ∧ balancer.get now (w.ups s.us) s.req = .ok (rc,u,req) ∧
      w' = w.update s.us u i (s.selected rc req)) ∨
    (∃ i now peerFailed s ptr u req, a = .free i now peerFailed ∧ w.sessions[i]? = some s ∧
      s.holds = some ptr ∧ freeRoundRobinPeer now peerFailed (w.ups s.us) s.req = .ok (u,req) ∧
      w' = w.update s.us u i (s.released req)) := by
  cases a with
  | init us pcalloc addr =>
    obtain ⟨req,hreq,rfl⟩ := Option.map_eq_some_iff.mp h
    exact .inl ⟨us,pcalloc,addr,req,rfl,hreq,rfl⟩
  | select i balancer now =>
    obtain ⟨s,hs,hrest⟩ := Option.bind_eq_some_iff.mp h
    split at hrest
    · rename_i hidle
      cases hcall : balancer.get now (w.ups s.us) s.req with
      | error _ => simp [hcall] at hrest
      | ok out =>
        obtain ⟨rc,u,req⟩ := out
        simp only [hcall,Option.some.injEq] at hrest
        exact .inr (.inl ⟨i,balancer,now,s,rc,u,req,rfl,hs,hidle,hcall,hrest.symm⟩)
    · cases hrest
  | free i now peerFailed =>
    obtain ⟨s,hs,hrest⟩ := Option.bind_eq_some_iff.mp h
    cases hholds : s.holds with
    | none => simp [hholds] at hrest
    | some ptr =>
      cases hcall : freeRoundRobinPeer now peerFailed (w.ups s.us) s.req with
      | error _ => simp [hholds,hcall] at hrest
      | ok out =>
        obtain ⟨u,req⟩ := out
        simp only [hholds,hcall,Option.some.injEq,reduceCtorEq,if_false] at hrest
        exact .inr (.inr ⟨i,now,peerFailed,s,ptr,u,req,rfl,hs,hholds,hcall,hrest.symm⟩)

/-- A relation that every call establishes holds of every upstream around a step. -/
theorem World.step_ups {P : κ → Upstream → Upstream → Prop} {w w' : World κ} {a : Action κ}
    (hstep : w.step a = some w') (hrefl : ∀ us, P us (w.ups us) (w.ups us))
    (hselect : ∀ i balancer now s rc u req, a = .select i balancer now → w.sessions[i]? = some s →
      balancer.get now (w.ups s.us) s.req = .ok (rc,u,req) → P s.us (w.ups s.us) u)
    (hfree : ∀ i now peerFailed s ptr u req, a = .free i now peerFailed → w.sessions[i]? = some s →
      s.holds = some ptr → freeRoundRobinPeer now peerFailed (w.ups s.us) s.req = .ok (u,req) →
      P s.us (w.ups s.us) u) (us : κ) : P us (w.ups us) (w'.ups us) := by
  have hupdate : ∀ {i : ℕ} {s s' : Session κ} {u : Upstream}, P s.us (w.ups s.us) u →
      P us (w.ups us) ((w.update s.us u i s').ups us) := by
    intro i s s' u hu
    by_cases hus : us = s.us
    · subst hus; simpa [World.update] using hu
    · simpa [World.update,hus] using hrefl us
  obtain ⟨us,pcalloc,addr,req,-,hreq,rfl⟩ | ⟨i,balancer,now,s,rc,u,req,ha,hi,hidle,hcall,rfl⟩ |
    ⟨i,now,peerFailed,s,ptr,u,req,ha,hi,hholds,hcall,rfl⟩ := World.step_cases hstep
  · exact hrefl _
  · exact hupdate (hselect i balancer now s rc u req ha hi hcall)
  · exact hupdate (hfree i now peerFailed s ptr u req ha hi hholds hcall)

/-- The invariant of the interleaving. -/
structure Accounted (w : World κ) : Prop where
  sound : ∀ us, (w.ups us).Sound
  covers : ∀ s ∈ w.sessions, Covers (w.ups s.us) s.req.rrp.tried
  group : ∀ s ∈ w.sessions, ∃ g, (w.ups s.us).group s.req.rrp.peers = some g
  held : ∀ s ∈ w.sessions, ∀ ptr, s.holds = some ptr → s.req.rrp.current = some ptr ∧
    s.req.rrp.peers = ptr.1 ∧ ∃ peer, (w.ups s.us).peerAt ptr = some peer
  conns : ∀ us ptr peer, (w.ups us).peerAt ptr = some peer →
    peer.conns = w.holders us ptr ∧ (0 < peer.maxConns → peer.conns ≤ peer.maxConns)

theorem Upstream.SameShape.peerAt {u u' : Upstream} (h : u.SameShape u') {ptr : PeerPtr} {peer : RrPeer}
    (hp : u.peerAt ptr = some peer) : ∃ peer', u'.peerAt ptr = some peer' := by
  obtain ⟨g,hg,hi⟩ := Option.bind_eq_some_iff.mp hp
  obtain ⟨g',hg',hs⟩ := h.symm.group hg
  obtain ⟨peer',hp',-⟩ := config_getElem? (RrPeers.shape_eq_iff.mp hs).2.2.2.2.2 hi
  exact ⟨peer',by simpa [Upstream.peerAt,hg'] using hp'⟩

theorem World.holders_update {w : World κ} (us : κ) (u : Upstream) {i : ℕ} {s : Session κ} (s' : Session κ)
    (hi : w.sessions[i]? = some s) (k : κ) (ptr : PeerPtr) :
    (w.update us u i s').holders k ptr + (if s.us = k ∧ s.holds = some ptr then 1 else 0) =
      w.holders k ptr + if s'.us = k ∧ s'.holds = some ptr then 1 else 0 := by
  obtain ⟨hlt,rfl⟩ := List.getElem?_eq_some_iff.mp hi
  have hle := List.boole_getElem_le_countP (p := fun s => decide (s.us = k ∧ s.holds = some ptr)) hlt
  simp only [World.holders,World.update,List.countP_set hlt,decide_eq_true_eq] at hle ⊢
  omega

/-- A request that holds a peer is counted. -/
theorem World.holders_pos {w : World κ} {s : Session κ} (hs : s ∈ w.sessions) {ptr : PeerPtr}
    (hholds : s.holds = some ptr) : 0 < w.holders s.us ptr :=
  List.countP_pos_iff.mpr ⟨s,hs,by simp [hholds]⟩

/-- The invariant survives a call that keeps the shape and recounts one peer as the sessions do. -/
theorem Accounted.update {w : World κ} (h : Accounted w) {i : ℕ} {s s' : Session κ} {u : Upstream}
    {f : PeerPtr → ℕ → ℕ} (hi : w.sessions[i]? = some s) (hus : s'.us = s.us)
    (hshape : (w.ups s.us).SameShape u) (hre : Recounts (w.ups s.us) u f)
    (hlength : s'.req.rrp.tried.length = s.req.rrp.tried.length)
    (hgroup : ∃ g, (w.ups s.us).group s'.req.rrp.peers = some g)
    (hheld : ∀ ptr, s'.holds = some ptr → s'.req.rrp.current = some ptr ∧
      s'.req.rrp.peers = ptr.1 ∧ ∃ peer, (w.ups s.us).peerAt ptr = some peer)
    (hcount : ∀ ptr, f ptr (w.holders s.us ptr) = (w.update s.us u i s').holders s.us ptr)
    (hlimit : ∀ ptr peer, (w.ups s.us).peerAt ptr = some peer → 0 < peer.maxConns →
      f ptr peer.conns ≤ peer.maxConns) : Accounted (w.update s.us u i s') := by
  have hups : ∀ k, (w.ups k).SameShape ((w.update s.us u i s').ups k) := by
    intro k
    by_cases hk : k = s.us
    · subst hk; simpa [World.update] using hshape
    · simpa [World.update,hk] using Upstream.SameShape.refl (w.ups k)
  have hmem : ∀ t ∈ (w.update s.us u i s').sessions, t = s' ∨ t ∈ w.sessions :=
    fun t ht => (List.mem_or_eq_of_mem_set ht).symm
  constructor
  · exact fun k => (h.sound k).of_sameShape (hups k)
  · intro t ht
    rcases hmem t ht with rfl | ht
    · have hs := h.covers s (List.mem_of_getElem? hi)
      rw [hus]
      exact (hs.of_length hlength).of_sameShape (hups s.us)
    · exact (h.covers t ht).of_sameShape (hups t.us)
  · intro t ht
    rcases hmem t ht with rfl | ht
    · obtain ⟨g,hg⟩ := hgroup
      rw [hus]
      obtain ⟨g',hg',-⟩ := (hups s.us).symm.group hg
      exact ⟨g',hg'⟩
    · obtain ⟨g,hg⟩ := h.group t ht
      obtain ⟨g',hg',-⟩ := (hups t.us).symm.group hg
      exact ⟨g',hg'⟩
  · intro t ht ptr hptr
    rcases hmem t ht with rfl | ht
    · obtain ⟨hc,hp,peer,hpeer⟩ := hheld ptr hptr
      rw [hus]
      exact ⟨hc,hp,(hups s.us).peerAt hpeer⟩
    · obtain ⟨hc,hp,peer,hpeer⟩ := h.held t ht ptr hptr
      exact ⟨hc,hp,(hups t.us).peerAt hpeer⟩
  · intro k ptr peer' hp
    by_cases hk : k = s.us
    · subst hk
      have hp' : u.peerAt ptr = some peer' := by simpa [World.update] using hp
      obtain ⟨peer,hpeer,hconfig,hconns⟩ := hre ptr peer' hp'
      obtain ⟨hn,-⟩ := h.conns _ ptr peer hpeer
      have hmax : peer'.maxConns = peer.maxConns := congrArg (fun c => c.2.1) hconfig
      refine ⟨by rw [hconns,hn,hcount],fun hpos => ?_⟩
      rw [hconns,hmax]
      exact hlimit ptr peer hpeer (hmax ▸ hpos)
    · have hp' : (w.ups k).peerAt ptr = some peer' := by simpa [World.update,hk] using hp
      obtain ⟨hn,hmax⟩ := h.conns k ptr peer' hp'
      refine ⟨?_,hmax⟩
      have hu := World.holders_update s.us u s' hi k ptr
      rw [hus] at hu
      simp only [Ne.symm hk,false_and,if_false,Nat.add_zero] at hu
      rw [hn,hu]

theorem Accounted.select {w : World κ} (h : Accounted w) {i : ℕ} {balancer : Balancer} {now : ℤ}
    {s : Session κ} {rc : Rc} {u : Upstream} {req : Request} (hi : w.sessions[i]? = some s)
    (hidle : s.holds = none) (hcall : balancer.get now (w.ups s.us) s.req = .ok (rc,u,req)) :
    Accounted (w.update s.us u i (s.selected rc req)) := by
  have hs := List.mem_of_getElem? hi
  obtain ⟨g,hg⟩ := h.group s hs
  have hserved := Balancer.served (h.sound s.us) (h.covers s hs) hg hcall
  cases rc with
  | ok =>
    obtain ⟨ptr,hcur,hpeers,hlength,hshape,hre,peer,hpeer,hlim⟩ := hserved.ok_effect
    refine h.update hi rfl hshape hre hlength ?_ ?_ ?_ ?_
    · obtain ⟨g',hg',-⟩ := Option.bind_eq_some_iff.mp hpeer
      exact ⟨g',hpeers ▸ hg'⟩
    · intro q hq
      have hq : req.rrp.current = some q := hq
      rw [hcur] at hq
      cases hq
      exact ⟨hcur,hpeers,peer,hpeer⟩
    · intro q
      have hu := World.holders_update s.us u (s.selected .ok req) hi s.us q
      simp only [hidle,reduceCtorEq,and_false,if_false,Nat.add_zero] at hu
      rw [hu]
      by_cases hq : q = ptr
      · subst hq; simp [Session.selected,hcur]
      · simp [Session.selected,hcur,hq,Ne.symm hq]
    · intro q other hother hpos
      by_cases hq : q = ptr
      · subst hq
        rw [hpeer] at hother
        cases hother
        simp only [RrPeer.atLimit,Bool.and_eq_false_iff,bne_eq_false_iff_eq,decide_eq_false_iff_not] at hlim
        simp only [if_true]
        omega
      · simpa only [hq,if_false] using (h.conns s.us q other hother).2 hpos
  | busy =>
    obtain ⟨rfl,hlength,hgroup⟩ := hserved.busy_effect
    refine h.update (f := fun _ c => c) hi rfl (.refl _) (fun ptr peer hp => ⟨peer,hp,rfl,rfl⟩)
      hlength hgroup ?_ ?_ ?_
    · intro q hq
      rw [show (s.selected .busy req).holds = s.holds from rfl,hidle] at hq
      cases hq
    · intro q
      have hu := World.holders_update s.us (w.ups s.us) (s.selected .busy req) hi s.us q
      simpa [Session.selected,hidle] using hu.symm
    · exact fun q other hother hpos => (h.conns s.us q other hother).2 hpos

/-- What a release does to its peer. A single peer does not account for the result. -/
def RrPeer.freed (single : Bool) (now : ℤ) (peerFailed : Bool) (peer : RrPeer) : RrPeer :=
  (if single then peer else peer.account now peerFailed).release

@[simp] theorem config_freed (single : Bool) (now : ℤ) (peerFailed : Bool) (peer : RrPeer) :
    (peer.freed single now peerFailed).config = peer.config := by
  cases single <;> simp [RrPeer.freed]

@[simp] theorem conns_freed (single : Bool) (now : ℤ) (peerFailed : Bool) (peer : RrPeer) :
    (peer.freed single now peerFailed).conns = uintPred peer.conns := by
  cases single <;> simp [RrPeer.freed]

/-- A release that returns has stored the peer that `rrp->current` points to. -/
theorem freeRoundRobinPeer_ok {now : ℤ} {peerFailed : Bool} {u u' : Upstream} {r r' : Request}
    (h : freeRoundRobinPeer now peerFailed u r = .ok (u',r')) :
    ∃ ptr g peers, r.rrp.current = some ptr ∧ u.group ptr.1 = some g ∧ u.group r.rrp.peers = some peers ∧
      r'.rrp = r.rrp ∧ r'.iphp = r.iphp ∧
      u' = u.store ptr.1 (g.peer.modify ptr.2 (·.freed peers.single now peerFailed)) := by
  obtain ⟨ptr,hcur,h⟩ := bind_ok h
  obtain ⟨g,hg,h⟩ := bind_ok h
  obtain ⟨peers,hpeers,h⟩ := bind_ok h
  refine ⟨ptr,g,peers,orFault_ok hcur,orFault_ok hg,orFault_ok hpeers,?_⟩
  split at h
  · rename_i hsingle
    cases h
    exact ⟨rfl,rfl,by rw [hsingle]; rfl⟩
  · rename_i hseveral
    have hseveral : peers.single = false := by simpa using hseveral
    cases h
    exact ⟨rfl,rfl,by rw [hseveral]; rfl⟩

/-- A release changes no other peer. -/
theorem freeRoundRobinPeer_peerAt {now : ℤ} {peerFailed : Bool} {u u' : Upstream} {r r' : Request} {ptr : PeerPtr}
    (hcur : r.rrp.current = some ptr) (h : freeRoundRobinPeer now peerFailed u r = .ok (u',r')) :
    ∃ peers, u.group r.rrp.peers = some peers ∧ ∀ q, u'.peerAt q =
      (u.peerAt q).map fun peer => if q = ptr then peer.freed peers.single now peerFailed else peer := by
  obtain ⟨other,g,peers,hother,hg,hpeers,-,-,rfl⟩ := freeRoundRobinPeer_ok h
  cases hcur.symm.trans hother
  exact ⟨peers,hpeers,Upstream.peerAt_modify hg _⟩

/-- The release goes through `rrp->current` and finds the peer that was counted. -/
theorem freeRoundRobinPeer_effect {now : ℤ} {peerFailed : Bool} {u u' : Upstream} {r r' : Request}
    {ptr : PeerPtr} (hcur : r.rrp.current = some ptr)
    (h : freeRoundRobinPeer now peerFailed u r = .ok (u',r')) :
    r'.rrp = r.rrp ∧ u.SameShape u' ∧ Recounts u u' fun q c => if q = ptr then uintPred c else c := by
  obtain ⟨other,g,peers,hother,hg,-,hrrp,-,rfl⟩ := freeRoundRobinPeer_ok h
  cases hcur.symm.trans hother
  have hconfig := map_modify_eq _ _ (config_freed peers.single now peerFailed) g.peer ptr.2
  have hconns := map_conns_modify _ uintPred (conns_freed peers.single now peerFailed) g.peer ptr.2
  exact ⟨hrrp,Upstream.store_sameShape hg hconfig,store_recounts hg hconfig hconns⟩

theorem Accounted.free {w : World κ} (h : Accounted w) {i : ℕ} {now : ℤ} {peerFailed : Bool}
    {s : Session κ} {ptr : PeerPtr} {u : Upstream} {req : Request} (hi : w.sessions[i]? = some s)
    (hholds : s.holds = some ptr)
    (hcall : freeRoundRobinPeer now peerFailed (w.ups s.us) s.req = .ok (u,req)) :
    Accounted (w.update s.us u i (s.released req)) := by
  have hs := List.mem_of_getElem? hi
  obtain ⟨hcur,hpeers,peer,hpeer⟩ := h.held s hs ptr hholds
  obtain ⟨hrrp,hshape,hre⟩ := freeRoundRobinPeer_effect hcur hcall
  have hpos : 0 < w.holders s.us ptr := World.holders_pos hs hholds
  refine h.update hi rfl hshape hre (by simp [Session.released,hrrp]) ?_ (by simp [Session.released]) ?_ ?_
  · simpa [Session.released,hrrp] using h.group s hs
  · intro q
    have hu := World.holders_update s.us u (s.released req) hi s.us q
    simp only [hholds,Session.released,reduceCtorEq,and_false,if_false,Nat.add_zero,true_and,
      Option.some.injEq] at hu
    by_cases hq : q = ptr
    · subst hq
      simp only [if_true] at hu
      simp only [if_true,uintPred,hpos.ne',if_false]
      exact (Nat.eq_sub_of_add_eq hu).symm
    · simp only [Ne.symm hq,if_false,Nat.add_zero] at hu
      simp only [hq,if_false]
      exact hu.symm
  · intro q other hother hmax
    obtain ⟨hn,hle⟩ := h.conns s.us q other hother
    by_cases hq : q = ptr
    · subst hq
      have := hle hmax
      simp only [if_true,uintPred,hn]
      split <;> omega
    · simpa only [hq,if_false] using hle hmax

theorem Accounted.start {w : World κ} (h : Accounted w) {us : κ} {pcalloc : Bool} {addr : List ℕ}
    {req : Request} (hreq : initIpHashPeer pcalloc (w.ups us) addr = some req) :
    Accounted { w with sessions := w.sessions ++ [⟨us,req,none,[]⟩] } := by
  obtain ⟨rrp,hrrp,rfl⟩ := Option.map_eq_some_iff.mp hreq
  obtain ⟨hpeers,-,hcov,-⟩ := initRoundRobinPeer_fresh hrrp
  have hmem : ∀ {P : Session κ → Prop}, (∀ s ∈ w.sessions, P s) →
      P ⟨us,⟨⟨false,none,none,0,none,(w.ups us).tries⟩,rrp,⟨89,addr,0⟩⟩,none,[]⟩ →
      ∀ s ∈ w.sessions ++ [⟨us,⟨⟨false,none,none,0,none,(w.ups us).tries⟩,rrp,⟨89,addr,0⟩⟩,none,[]⟩], P s := by
    intro P hold hnew s hs
    rcases List.mem_append.mp hs with hs | hs
    · exact hold s hs
    · rw [List.mem_singleton] at hs; exact hs ▸ hnew
  refine ⟨h.sound,hmem h.covers hcov,hmem h.group ⟨(w.ups us).primary,?_⟩,hmem h.held (by simp),?_⟩
  · rw [hpeers]; rfl
  · intro k ptr peer hp
    simpa [World.holders] using h.conns k ptr peer hp

theorem Accounted.step {w w' : World κ} {a : Action κ} (h : Accounted w) (hstep : w.step a = some w') :
    Accounted w' := by
  obtain ⟨us,pcalloc,addr,req,-,hreq,rfl⟩ | ⟨i,balancer,now,s,rc,u,req,-,hi,hidle,hcall,rfl⟩ |
    ⟨i,now,peerFailed,s,ptr,u,req,-,hi,hholds,hcall,rfl⟩ := World.step_cases hstep
  · exact h.start hreq
  · exact h.select hi hidle hcall
  · exact h.free hi hholds hcall

variable {pcalloc : κ → ℕ → Bool} {resolve : String → ℕ → Option (List UpstreamAddr)}
  {conf : κ → UpstreamSrvConf}

theorem Accounted.init {w : World κ} (h : (balancing pcalloc resolve conf).init w) : Accounted w := by
  obtain ⟨hs,hu⟩ := h
  have hbuilt := fun us => initRoundRobin_wellBuilt (hu us)
  refine ⟨fun us => (hbuilt us).sound,by simp [hs],by simp [hs],by simp [hs],?_⟩
  intro us ptr peer hp
  obtain ⟨g,hg,hi⟩ := Option.bind_eq_some_iff.mp hp
  have hz := (((hbuilt us).group hg).fresh peer (List.mem_of_getElem? hi)).2.2.1
  simp [hz,World.holders,hs]

theorem reachable_accounted {w : World κ} (h : (balancing pcalloc resolve conf).Reachable w) :
    Accounted w :=
  h.invariant (fun _ => Accounted.init) fun _ _ _ _ ih hstep => ih.step hstep

/-- The release of a held peer always returns. -/
theorem freeRoundRobinPeer_returns {w : World κ} (h : Accounted w) {s : Session κ} (hs : s ∈ w.sessions)
    {ptr : PeerPtr} (hholds : s.holds = some ptr) (now : ℤ) (peerFailed : Bool) :
    ∃ out, freeRoundRobinPeer now peerFailed (w.ups s.us) s.req = .ok out := by
  obtain ⟨hcur,hpeers,peer,hpeer⟩ := h.held s hs ptr hholds
  obtain ⟨g,hg,-⟩ := Option.bind_eq_some_iff.mp hpeer
  cases hsingle : g.single <;>
    simp [freeRoundRobinPeer,hcur,hpeers,hg,hsingle,orFault,bind,Except.bind,pure,Except.pure]

/-- Connection accounting: `conns` counts the requests that hold the peer, so the decrement of
a release never underflows, and `max_conns` is respected. -/
theorem conns_eq_holders {w : World κ} (h : (balancing pcalloc resolve conf).Reachable w)
    (us : κ) (ptr : PeerPtr) {peer : RrPeer} (hpeer : (w.ups us).peerAt ptr = some peer) :
    peer.conns = w.holders us ptr ∧ (0 < peer.maxConns → peer.conns ≤ peer.maxConns) ∧
    ∀ s ∈ w.sessions, s.us = us → s.holds = some ptr →
      s.req.rrp.current = some ptr ∧ 0 < peer.conns ∧
      ∀ now peerFailed, ∃ out, freeRoundRobinPeer now peerFailed (w.ups us) s.req = .ok out := by
  have hacc := reachable_accounted h
  obtain ⟨hn,hmax⟩ := hacc.conns us ptr peer hpeer
  refine ⟨hn,hmax,fun s hs hus hholds => ⟨(hacc.held s hs ptr hholds).1,?_,fun now peerFailed => ?_⟩⟩
  · rw [hn,← hus]
    exact World.holders_pos hs hholds
  · rw [← hus]
    exact freeRoundRobinPeer_returns hacc hs hholds now peerFailed

/-- One request on the upstream of the load balancing note, between its selection and its
release. -/
theorem conns_eq_holders_note : ∃ (w : World Unit) (peer : RrPeer),
    (balancing (fun _ _ => true) (fun _ _ => none) fun _ => noteConf).Reachable w ∧
      (w.ups ()).peerAt (.primary,0) = some peer ∧ peer.conns = 1 ∧ w.holders () (.primary,0) = 1 := by
  obtain ⟨w,hw⟩ : ∃ w, TransitionSystem.replay World.step ⟨fun _ => noteUpstream,[]⟩
    [.init () true [],.select 0 .roundRobin 0] = some w := ⟨_,rfl⟩
  have hreach : (balancing (fun _ _ => true) (fun _ _ => none) fun _ => noteConf).Reachable w :=
    TransitionSystem.Reachable.of_replay (.init ⟨rfl,fun _ => initRoundRobin_note⟩) hw
  cases hw
  have hconns := (conns_eq_holders hreach () (.primary,0) rfl).1
  exact ⟨_,_,hreach,rfl,rfl,hconns.symm⟩

end InsideNginx.HttpUpstream
