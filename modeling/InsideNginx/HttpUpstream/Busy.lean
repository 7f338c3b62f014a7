import InsideNginx.HttpUpstream.Eligibility

/-! When a selection is refused: NGX_BUSY is returned exactly when no peer of the current group
and no peer of its backup group may be chosen. -/
namespace InsideNginx.HttpUpstream
variable {κ : Type} [DecidableEq κ] {pcalloc : κ → ℕ → Bool}
  {resolve : String → ℕ → Option (List UpstreamAddr)} {conf : κ → UpstreamSrvConf}

theorem Chosen.not_exhausted {now : ℤ} {g : RrPeers} {tried : Tried} {p : ℕ} {peers : List RrPeer}
    (h : Chosen now g tried p peers) : ¬ g.Exhausted now tried := by
  obtain ⟨peer,hp,hserve⟩ := h.canServe
  intro hex
  rw [hex p peer hp] at hserve
  cases hserve

/-- After the switch the bitmap is empty as far as the backup group reads it. -/
theorem Switched.exhausted_iff {next : RrPeers} {rrp rrp' : RrPeerData} (h : Switched next rrp rrp')
    (hnext : next.Sound) (now : ℤ) : next.Exhausted now rrp'.tried ↔ next.Exhausted now [] := by
  have hserve : ∀ i peer, next.peer[i]? = some peer →
      next.canServe now rrp'.tried i peer = next.canServe now [] i peer := by
    intro i peer hi
    rw [List.getElem?_eq_some_iff] at hi
    have hlt := lt_triedWords (hnext.number ▸ hi.1 : i < next.number)
    have hbit : WordBitset.bit rrp'.tried i = WordBitset.bit ([] : Tried) i := by
      have : ¬ triedWords next.number ≤ i/64 := by omega
      rw [h.bit]
      simp [this,WordBitset.bit]
    simp only [RrPeers.canServe,eligible,hbit]
  exact forall₃_congr fun i peer hi => by rw [hserve i peer hi]

/-- What a call returns decides whether a peer could be chosen. -/
theorem Served.busy_iff {now : ℤ} {u u' : Upstream} {g : RrPeers} {rrp rrp' : RrPeerData} {rc : Rc}
    (h : Served now u rrp rc u' rrp') (hu : u.Sound) (hg : u.group rrp.peers = some g) :
    rc = .busy ↔ g.Exhausted now rrp.tried ∧
      ∀ next, u.next rrp.peers = some next → next.Exhausted now [] := by
  have hsound : ∀ {ptr : PeersPtr} {next : RrPeers}, u.next ptr = some next → next.Sound :=
    fun hnext => hu.group _ _ (Upstream.next_eq_some hnext).2
  cases h with
  | here group chosen took =>
    obtain rfl := Option.some.inj (group.symm.trans hg)
    simp [chosen.not_exhausted]
  | next group exhausted hnext switched chosen took =>
    have hnot := (switched.exhausted_iff (hsound hnext) now).not.mp chosen.not_exhausted
    simpa [hnext] using fun _ => hnot
  | busyNext group exhausted hnext switched exhaustedNext =>
    obtain rfl := Option.some.inj (group.symm.trans hg)
    simpa [hnext,exhausted] using (switched.exhausted_iff (hsound hnext) now).mp exhaustedNext
  | busy group exhausted hnext =>
    obtain rfl := Option.some.inj (group.symm.trans hg)
    simp [hnext,exhausted]

/-! ### The total weight -/

/-- What the configuration parser accepts (a weight is at least 1) and the resolver returns on
success (at least one address). -/
structure Parsed (resolve : String → ℕ → Option (List UpstreamAddr)) (us : UpstreamSrvConf) : Prop where
  weight : ∀ servers, us.servers = some servers → ∀ server ∈ servers, 1 ≤ server.weight
  resolved : ∀ addrs, resolve us.host us.port = some addrs → addrs ≠ []

lemma countServers_fst_le_snd (backup : Bool) {servers : List UpstreamServer}
    (h : ∀ server ∈ servers, 1 ≤ server.weight) {n w : ℕ} (hnw : n ≤ w) :
    (countServers backup servers n w).1 ≤ (countServers backup servers n w).2 := by
  induction servers generalizing n w with
  | nil => exact hnw
  | cons server servers ih =>
    have hrest := fun s hs => h s (List.mem_cons_of_mem _ hs)
    unfold countServers
    split
    · refine ih hrest ?_
      have := Nat.le_mul_of_pos_right server.addrs.length (h server List.mem_cons_self)
      omega
    · exact ih hrest hnw

/-- With a parsed configuration every group has a positive total weight. -/
theorem initRoundRobin_totalWeight {pcalloc : ℕ → Bool} {us : UpstreamSrvConf} {u : Upstream}
    (h : initRoundRobin pcalloc resolve us = .ok u) (hp : Parsed resolve us) {ptr : PeersPtr}
    {g : RrPeers} (hg : u.group ptr = some g) : g.totalWeight ≠ 0 := by
  unfold initRoundRobin at h
  cases hs : us.servers with
  | some servers =>
    have hle := fun backup => countServers_fst_le_snd backup (hp.weight servers hs) (le_refl 0)
    have hprimary := hle false
    have hbackup := hle true
    simp only [hs] at h
    split at h
    · cases h
    split at h
    · cases h
    split at h
    · cases h
      cases ptr <;> simp only [Upstream.group,Option.some.injEq,reduceCtorEq] at hg
      subst hg
      simp only
      omega
    split at h
    · cases h
    · cases h
      cases ptr <;> simp only [Upstream.group,Option.some.injEq] at hg <;> subst hg <;> simp only <;> omega
  | none =>
    simp only [hs] at h
    split at h
    · cases h
    split at h
    · cases h
    split at h
    · cases h
    · rename_i addrs hresolve _
      cases h
      cases ptr <;> simp only [Upstream.group,Option.some.injEq,reduceCtorEq] at hg
      subst hg
      simpa using hp.resolved addrs hresolve

/-- The total weights are those of the construction in every reachable state. -/
theorem reachable_totalWeight {w : World κ} (h : (balancing pcalloc resolve conf).Reachable w)
    (us : κ) (hp : Parsed resolve (conf us)) :
    ∀ ptr g, (w.ups us).group ptr = some g → g.totalWeight ≠ 0 := by
  refine h.invariant (I := fun w => ∀ ptr g, (w.ups us).group ptr = some g → g.totalWeight ≠ 0) ?_ ?_
  · rintro w ⟨-,hinit⟩ ptr g hg
    exact initRoundRobin_totalWeight (hinit us) hp hg
  · intro w a w' hreach ih hstep ptr g' hg'
    obtain ⟨g,hg,hshape⟩ := (World.step_sameShape (reachable_accounted hreach) hstep us).group hg'
    rw [(RrPeers.shape_eq_iff.mp hshape).2.1]
    exact ih ptr g hg

/-- NGX_BUSY is returned exactly when no peer of the current group and, with an empty bitmap, no
peer of its backup group may be chosen, and it leaves every peer as it was. -/
theorem busy_iff_exhausted {w : World κ} (h : (balancing pcalloc resolve conf).Reachable w)
    {s : Session κ} (hs : s ∈ w.sessions) (balancer : Balancer) (now : ℤ)
    (hparsed : balancer = .ipHash → Parsed resolve (conf s.us)) :
    ∃ g rc u req, (w.ups s.us).group s.req.rrp.peers = some g ∧
      balancer.get now (w.ups s.us) s.req = .ok (rc,u,req) ∧
      (rc = .busy ↔ g.Exhausted now s.req.rrp.tried ∧
        ∀ next, (w.ups s.us).next s.req.rrp.peers = some next → next.Exhausted now []) ∧
      (rc = .busy → u = w.ups s.us) := by
  have hacc := reachable_accounted h
  have hu := hacc.sound s.us
  obtain ⟨g,hg⟩ := hacc.group s hs
  rcases balancer.serves_or hu (hacc.covers s hs) hg now with
    ⟨rc,u,req,hcall,hserved⟩ | ⟨hip,hzero,-⟩
  · refine ⟨g,rc,u,req,hg,hcall,hserved.busy_iff hu hg,?_⟩
    rintro rfl
    exact hserved.busy_effect.1
  · exact absurd hzero (reachable_totalWeight h s.us (hparsed hip) _ g hg)

/-- A fresh request on the upstream of the load balancing note is not refused by ip_hash. -/
theorem busy_iff_exhausted_note : ∃ (w : World Unit) (s : Session Unit) (rc : Rc) (u : Upstream) (req : Request),
    (balancing (fun _ _ => true) (fun _ _ => none) fun _ => noteConf).Reachable w ∧ s ∈ w.sessions ∧
      Balancer.ipHash.get 0 (w.ups s.us) s.req = .ok (rc,u,req) ∧ rc ≠ .busy := by
  obtain ⟨w,hw⟩ : ∃ w, TransitionSystem.replay World.step ⟨fun _ => noteUpstream,[]⟩
    [.init () true []] = some w := ⟨_,rfl⟩
  have hreach : (balancing (fun _ _ => true) (fun _ _ => none) fun _ => noteConf).Reachable w :=
    .of_replay (.init ⟨rfl,fun _ => initRoundRobin_note⟩) hw
  cases hw
  have hparsed : Parsed (fun _ _ => none) noteConf := by
    refine ⟨?_,by simp⟩
    rintro servers ⟨⟩
    decide
  obtain ⟨g,rc,u,req,hg,hcall,hbusy,-⟩ :=
    busy_iff_exhausted hreach List.mem_cons_self .ipHash 0 fun _ => hparsed
  refine ⟨_,_,rc,u,req,hreach,List.mem_cons_self,hcall,fun hrc => ?_⟩
  cases hg
  have hfirst := (hbusy.mp hrc).1 0 _ rfl
  exact absurd hfirst (by decide)

end InsideNginx.HttpUpstream
