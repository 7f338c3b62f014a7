import InsideNginx.General.ProbeWalk
import InsideNginx.HttpUpstream.WeightedWalk

/-! The probes of ip_hash form one sequence that depends on the hashed bytes and the weights only. A
call continues the sequence where the previous call of the request has left it. -/
namespace InsideNginx.HttpUpstream
open ProbeWalk

/-- The hash of a request after `k` probes. -/
def hashRounds (addr : List ℕ) (k : ℕ) : ℕ := (fun hash => hashAddr hash addr)^[k] 89

/-- The position that the probe with index `k` looks at. -/
def hashProbe (weights : List ℤ) (addr : List ℕ) (k : ℕ) : ℕ :=
  (WeightedPick.pick ((hashRounds addr (k+1)%weights.sum.toNat : ℕ) : ℤ) weights).getD weights.length

/-- The arguments of a `get` call. -/
structure GetCall where
  now : ℤ
  u : Upstream
  r : Request

/-- At the moment of the call the request may get the peer at position `p`. -/
def GetCall.Accepts (call : GetCall) (p : ℕ) : Prop :=
  ∃ peer, call.u.primary.peer[p]? = some peer ∧ eligible call.now call.r.rrp.tried p peer = true

/-- The call returns the peer that the walk has taken; without one it is a call of round robin. -/
def GetCall.Returns (call : GetCall) : Option ℕ → Prop
  | some p => ∃ u' r', getIpHashPeer call.now call.u call.r = .ok (.ok,u',r') ∧ r'.rrp.current = some (.primary,p)
  | none => ∃ iphp, getIpHashPeer call.now call.u call.r =
      getRoundRobinPeer call.now call.u { call.r with iphp := iphp }

/-- The hash data of a request that hashes `addr`, at a position of its walk. The hash is not saved
when the last probe has been rejected. -/
structure HashAt (addr : List ℕ) (pos : Position) (iphp : IpHashPeerData) : Prop where
  addr_eq : iphp.addr = addr
  tries_eq : iphp.tries = pos.rejected
  le : pos.rejected ≤ 21
  hash_eq : pos.rejected ≤ 20 → iphp.hash = hashRounds addr pos.consumed

theorem HashAt.start (addr : List ℕ) : HashAt addr ⟨0,0⟩ ⟨89,addr,0⟩ :=
  ⟨rfl,rfl,by decide,fun _ => rfl⟩

/-! ### The probes of a call -/

theorem hashAddr_hashRounds (addr : List ℕ) (k : ℕ) : hashAddr (hashRounds addr k) addr = hashRounds addr (k+1) :=
  (Function.iterate_succ_apply' (fun hash => hashAddr hash addr) k 89).symm

theorem ipHashProbe_hashRounds {g : RrPeers} (hg : g.Sound) (hw : g.totalWeight ≠ 0) (addr : List ℕ) (k : ℕ) :
    ∃ peer, g.peer[hashProbe (weights g.peer) addr k]? = some peer ∧
      ipHashProbe (hashRounds addr (k+1)) g = .ok (hashProbe (weights g.peer) addr k,peer) := by
  obtain ⟨p,peer,hpick,hp,hprobe⟩ := ipHashProbe_pick hg hw (hashRounds addr (k+1))
  have htotal : (weights g.peer).sum.toNat = g.totalWeight := by
    have : (g.totalWeight : ℤ) = (weights g.peer).sum := hg.totalWeight
    omega
  have he : hashProbe (weights g.peer) addr k = p := by
    rw [hashProbe,htotal,hpick,Option.getD_some]
  exact ⟨peer,he ▸ hp,he ▸ hprobe⟩

/-- The loop makes one step of the walk. -/
theorem ipHashLoop_walk (call : GetCall) (addr : List ℕ) (hg : call.u.primary.Sound)
    (hw : call.u.primary.totalWeight ≠ 0) (hfit : Fits call.r.rrp.tried call.u.primary.number) (fuel c r : ℕ)
    (hfuel : 21 ≤ fuel + r) (hr : r ≤ 20) :
    (∃ next, Step (hashProbe (weights call.u.primary.peer) addr) 21 call.Accepts ⟨c,r⟩ none next ∧
      next.rejected = 21 ∧
      ipHashLoop call.now call.r.rrp.tried call.u.primary addr fuel (hashRounds addr c) r = .ok (none,21)) ∨
    ∃ p peer next, Step (hashProbe (weights call.u.primary.peer) addr) 21 call.Accepts ⟨c,r⟩ (some p) next ∧
      next.rejected ≤ 20 ∧ call.u.primary.peer[p]? = some peer ∧
      ipHashLoop call.now call.r.rrp.tried call.u.primary addr fuel (hashRounds addr c) r =
        .ok (some (p,peer,hashRounds addr next.consumed),next.rejected) := by
  induction fuel generalizing c r with
  | zero => omega
  | succ fuel ih =>
    obtain ⟨peer,hp,hprobe⟩ := ipHashProbe_hashRounds hg hw addr c
    rw [← hashAddr_hashRounds] at hprobe
    rw [ipHashLoop_succ call.now hg hfit addr fuel (hashRounds addr c) hr hp hprobe,hashAddr_hashRounds]
    by_cases he : eligible call.now call.r.rrp.tried (hashProbe (weights call.u.primary.peer) addr c) peer = true
    · rw [if_pos he]
      exact .inr ⟨_,peer,_,.accept (by omega) ⟨peer,hp,he⟩,hr,hp,rfl⟩
    · have hreject : ¬ call.Accepts (hashProbe (weights call.u.primary.peer) addr c) := by
        rintro ⟨other,hother,heligible⟩
        cases hp.symm.trans hother
        exact he heligible
      rw [if_neg he]
      split
      · rename_i hlast
        subst hlast
        exact .inl ⟨_,.reject hreject .stop,rfl,rfl⟩
      · rcases ih (c+1) (r+1) (by omega) (by omega) with ⟨next,hstep,hnext,hloop⟩ | ⟨p,other,next,hstep,hnext,hother,hloop⟩
        · exact .inl ⟨next,.reject hreject hstep,hnext,hloop⟩
        · exact .inr ⟨p,other,next,.reject hreject hstep,hnext,hother,hloop⟩

/-! ### Round robin and the hash data -/

/-- The calls that return leave the hash data of the request as it was. -/
def KeepsHash (call : Upstream → Request → Outcome) : Prop :=
  ∀ u r rc u' r', call u r = .ok (rc,u',r') → r'.iphp = r.iphp

theorem getRoundRobinInGroup_iphp {now : ℤ} {u u' : Upstream} {r r' : Request}
    (h : getRoundRobinInGroup now u r = .ok (some (u',r'))) : r'.iphp = r.iphp := by
  obtain ⟨g,-,h⟩ := bind_ok h
  split at h
  · obtain ⟨peer,-,h⟩ := bind_ok h
    split at h
    · cases h
    split at h
    · cases h
    cases h
    rfl
  · obtain ⟨got,-,h⟩ := bind_ok h
    cases got with
    | none => cases h
    | some found =>
      obtain ⟨peer,-,h⟩ := bind_ok h
      cases h
      rfl

theorem failed_keepsHash {again : Upstream → Request → Outcome} (hagain : KeepsHash again) :
    KeepsHash (failed again) := by
  intro u r rc u' r' h
  obtain ⟨g,-,h⟩ := bind_ok h
  split at h
  · obtain ⟨tried,-,h⟩ := bind_ok h
    obtain ⟨⟨rc₁,u₁,r₁⟩,hcall,h⟩ := bind_ok h
    have hkept := hagain _ _ _ _ _ hcall
    cases rc₁ <;> cases h <;> exact hkept
  · cases h
    rfl

theorem getRoundRobinPeerDepth_keepsHash (now : ℤ) (depth : ℕ) : KeepsHash (getRoundRobinPeerDepth now depth) := by
  induction depth with
  | zero => intro u r rc u' r' h; cases h
  | succ depth ih =>
    intro u r rc u' r' h
    obtain ⟨got,hgot,h⟩ := bind_ok h
    cases got with
    | none =>
      have hkept := failed_keepsHash ih _ _ _ _ _ h
      exact hkept
    | some found =>
      cases h
      have hkept := getRoundRobinInGroup_iphp hgot
      exact hkept

theorem getRoundRobinPeer_keepsHash (now : ℤ) : KeepsHash (getRoundRobinPeer now) :=
  getRoundRobinPeerDepth_keepsHash now 2

/-! ### One call -/

/-- A call makes one step of the walk, and saves where it has stopped. -/
theorem getIpHashPeer_walk {call : GetCall} {addr : List ℕ} {pos : Position} (hu : call.u.Sound)
    (hcov : Covers call.u call.r.rrp.tried) (hpeers : call.r.rrp.peers = .primary)
    (hseveral : call.u.primary.single = false) (hw : call.u.primary.totalWeight ≠ 0)
    (h : HashAt addr pos call.r.iphp) :
    ∃ taken next, Step (hashProbe (weights call.u.primary.peer) addr) 21 call.Accepts pos taken next ∧
      call.Returns taken ∧
      ∀ rc u' r', getIpHashPeer call.now call.u call.r = .ok (rc,u',r') → HashAt addr next r'.iphp := by
  obtain ⟨now,u,r⟩ := call
  obtain ⟨c,rejected⟩ := pos
  have hg : u.group r.rrp.peers = some u.primary := by rw [hpeers]; rfl
  have htries : r.iphp.tries = rejected := h.tries_eq
  have hle : rejected ≤ 21 := h.le
  by_cases hlimit : rejected = 21
  · subst hlimit
    have hcall := @getIpHashPeer_roundRobin now u u.primary r hg (by simp [htries])
    refine ⟨none,_,.stop,⟨r.iphp,hcall⟩,fun rc u' r' hreturn => ?_⟩
    rw [hcall] at hreturn
    rw [getRoundRobinPeer_keepsHash now u r rc u' r' hreturn]
    exact h
  · have hprobe : (decide (20 < r.iphp.tries) || u.primary.single) = false := by
      rw [htries,hseveral]
      simp only [Bool.or_false,decide_eq_false_iff_not]
      omega
    have hhash : r.iphp.hash = hashRounds addr c := h.hash_eq (by simp only; omega)
    have haddr : r.iphp.addr = addr := h.addr_eq
    rcases ipHashLoop_walk ⟨now,u,r⟩ addr (hu.group _ _ hg) hw (hcov _ _ hg) 21 c rejected (by omega) (by omega) with
      ⟨next,hstep,hnext,hloop⟩ | ⟨p,peer,next,hstep,hnext,hp,hloop⟩
    · have hcall : getIpHashPeer now u r = getRoundRobinPeer now u { r with iphp := { r.iphp with tries := 21 } } := by
        rw [← hhash,← haddr,← htries] at hloop
        simp only [getIpHashPeer,hg,hprobe,hloop,orFault,bind,Except.bind,Bool.false_eq_true,if_false]
        rfl
      refine ⟨none,next,hstep,⟨_,hcall⟩,fun rc u' r' hreturn => ?_⟩
      rw [hcall] at hreturn
      rw [getRoundRobinPeer_keepsHash now _ _ rc u' r' hreturn]
      exact ⟨haddr,hnext.symm,hnext.le,fun hlow => by omega⟩
    · have hlt : p < u.primary.number := (hu.group _ _ hg).lt_number hp
      obtain ⟨tried,hset,-⟩ := triedSet_eq (hcov _ _ hg) hlt
      have hcall : getIpHashPeer now u r =
          .ok (.ok,u.store r.rrp.peers (u.primary.peer.modify p fun peer => peer.hold.touch now),
            { r with
              pc := ({ r.pc with cached := false, connection := none } : PeerConnection).fill peer
              rrp := { r.rrp with current := some (r.rrp.peers,p), tried := tried }
              iphp := { r.iphp with hash := hashRounds addr next.consumed, tries := next.rejected } }) := by
        rw [← hhash,← haddr,← htries] at hloop
        simp only [getIpHashPeer,hg,hprobe,hloop,hset,orFault,bind,Except.bind,pure,Except.pure,
          Bool.false_eq_true,if_false]
        rw [haddr]
      refine ⟨some p,next,hstep,⟨_,_,hcall,by rw [hpeers]⟩,fun rc u' r' hreturn => ?_⟩
      rw [hcall] at hreturn
      cases hreturn
      exact ⟨haddr,rfl,by omega,fun _ => rfl⟩

end InsideNginx.HttpUpstream
