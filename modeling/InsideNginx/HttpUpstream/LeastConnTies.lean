import InsideNginx.HttpUpstream.LeastLoaded

/-! When all candidates have the same load, least_conn is round robin: the second pass starts at the
first candidate and makes the same updates. -/
namespace InsideNginx.HttpUpstream
open FirstLeast
variable {now : ℤ} {tried : Tried} {peers : List RrPeer}

/-- Round robin passes over the peers that it skips. -/
theorem charge_skip {xs ys : List RrPeer} {i : ℕ}
    (h : ∀ j peer, xs[j]? = some peer → eligible now tried (i+j) peer = false) (best : Option (ℕ × RrPeer)) :
    chargeAll now tried i (xs ++ ys) = xs ++ chargeAll now tried (i+xs.length) ys ∧
    chargeTotal now tried i (xs ++ ys) = chargeTotal now tried (i+xs.length) ys ∧
    chargeBest now tried i (xs ++ ys) best = chargeBest now tried (i+xs.length) ys best := by
  induction xs generalizing i with
  | nil => exact ⟨rfl,rfl,rfl⟩
  | cons peer xs ih =>
    have hpeer : eligible now tried i peer = false := h 0 peer rfl
    obtain ⟨hall,htotal,hbest⟩ := @ih (i+1) fun j other hj => by
      rw [Nat.add_assoc,Nat.add_comm 1 j]
      exact h (j+1) other (by simpa using hj)
    rw [Nat.add_assoc,Nat.add_comm 1] at hall htotal hbest
    simp only [List.cons_append,chargeAll,chargeTotal,chargeBest,hpeer,Bool.false_eq_true,if_false,zero_add,
      List.length_cons]
    exact ⟨by rw [hall],htotal,hbest⟩

/-- Where all candidates tie, the second pass of least_conn is the loop of round robin. -/
theorem leastConnTieLoop_eq {load : ℚ} {i p : ℕ} {c : RrPeer} {total : ℤ} (hfit : Fits tried (i + peers.length))
    (hweight : ∀ peer ∈ peers, 1 ≤ peer.weight) (hp : p < i) (hc : 1 ≤ c.weight) (hload : c.load = load)
    (htied : ∀ j peer, peers[j]? = some peer → eligible now tried (i+j) peer = true → peer.load = load) :
    ∃ best, chargeBest now tried i peers (some (p,c)) = some best ∧
      leastConnTieLoop now tried i peers total (p,c) =
        .ok (chargeAll now tried i peers,total + chargeTotal now tried i peers,best) := by
  induction peers generalizing i p c total with
  | nil => exact ⟨(p,c),rfl,by simp [leastConnTieLoop,chargeAll,chargeTotal]⟩
  | cons peer rest ih =>
    have htest := triedTest_eq hfit (show i < i + (peer::rest).length by simp)
    have hpeer : 1 ≤ peer.weight := hweight peer List.mem_cons_self
    have hfit' : Fits tried (i + 1 + rest.length) := by simpa [Nat.add_assoc,Nat.add_comm 1] using hfit
    have hweight' : ∀ other ∈ rest, 1 ≤ other.weight := fun other ho => hweight other (List.mem_cons_of_mem _ ho)
    have htied' : ∀ j other, rest[j]? = some other → eligible now tried (i+1+j) other = true →
        other.load = load := fun j other hj he => by
      rw [Nat.add_assoc,Nat.add_comm 1 j] at he
      exact htied (j+1) other (by simpa using hj) he
    cases he : eligible now tried i peer with
    | true =>
      have hsame : (peer.conns : ℤ)*c.weight = c.conns*peer.weight :=
        (load_eq hpeer hc).mp ((htied 0 peer rfl he).trans hload.symm)
      have hne : ¬ p = i := hp.ne
      by_cases hless : c.currentWeight < peer.charge.currentWeight
      · obtain ⟨best,hbest,hrun⟩ := @ih (i+1) i peer.charge (total + peer.effectiveWeight) hfit' hweight' (by omega)
          hpeer (htied 0 peer rfl he) htied'
        refine ⟨best,by simp only [chargeBest,he,if_true,if_pos hless,hbest],?_⟩
        simp only [chargeAll,chargeTotal,he,if_true,← add_assoc]
        exact leastConnTieLoop_charge _ htest he hsame (by rw [if_neg hne,if_pos hless]) hrun
      · obtain ⟨best,hbest,hrun⟩ := @ih (i+1) p c (total + peer.effectiveWeight) hfit' hweight' (by omega)
          hc hload htied'
        refine ⟨best,by simp only [chargeBest,he,if_true,if_neg hless,hbest],?_⟩
        simp only [chargeAll,chargeTotal,he,if_true,← add_assoc]
        exact leastConnTieLoop_charge _ htest he hsame (by rw [if_neg hne,if_neg hless]) hrun
    | false =>
      obtain ⟨best,hbest,hrun⟩ := @ih (i+1) p c total hfit' hweight' (by omega) hc hload htied'
      refine ⟨best,by simp only [chargeBest,he,Bool.false_eq_true,if_false,hbest],?_⟩
      simp only [chargeAll,chargeTotal,he,Bool.false_eq_true,if_false,zero_add]
      exact leastConnTieLoop_skip htest (by simp [he]) hrun

/-- The first pass stops at the first candidate when all candidates tie. -/
theorem no_candidate_before {p : ℕ} {b : RrPeer} (h : IsFirstLeast (Candidate now tried peers) RrPeer.load p b)
    (htied : ∀ i c, Candidate now tried peers i c → c.load = b.load) (j : ℕ) (peer : RrPeer)
    (hj : (peers.take p)[j]? = some peer) : eligible now tried (0+j) peer = false := by
  have hjp : j < p := by
    have := (List.getElem?_eq_some_iff.mp hj).1
    rw [List.length_take] at this
    omega
  rw [List.getElem?_take_of_lt hjp] at hj
  rw [Nat.zero_add,← Bool.not_eq_true]
  intro he
  have hless := h.first j peer ⟨hj,he⟩ hjp
  rw [htied j peer ⟨hj,he⟩] at hless
  exact lt_irrefl _ hless

/-- In the group, least_conn and round robin make the same selection. -/
theorem getLeastConnInGroup_eq {u : Upstream} {g : RrPeers} {r : Request} (hg : u.group r.rrp.peers = some g)
    (hseveral : g.single = false) (hfit : Fits r.rrp.tried g.peer.length)
    (hweight : ∀ peer ∈ g.peer, 1 ≤ peer.weight)
    (htwo : ∃ i j a b, i ≠ j ∧ Candidate now r.rrp.tried g.peer i a ∧ Candidate now r.rrp.tried g.peer j b)
    (htied : ∀ i j a b, Candidate now r.rrp.tried g.peer i a → Candidate now r.rrp.tried g.peer j b →
      a.load = b.load) :
    ∃ result, getLeastConnInGroup now g u r = .ok (some result) ∧
      getRoundRobinInGroup now u r = .ok (some result) := by
  obtain ⟨best,many,hloop,hseen⟩ := @leastConnLoop_least now r.rrp.tried [] g.peer none false
    (by simpa using hfit) hweight (fun q c hc => by simp [Candidate] at hc)
  rw [List.length_nil] at hloop
  rw [List.nil_append] at hseen
  obtain ⟨i,j,a,c,hij,ha,hc⟩ := htwo
  cases best with
  | none => exact absurd ha (hseen i a)
  | some pb =>
    obtain ⟨p,b⟩ := pb
    obtain ⟨hleast,hmany⟩ := hseen
    have hlt : p < g.peer.length := hleast.mem.lt
    have htie : Tied (Candidate now r.rrp.tried g.peer) RrPeer.load p b := by
      by_cases hip : i = p
      · exact ⟨j,c,by omega,hc,htied j p c b hc hleast.mem⟩
      · exact ⟨i,a,hip,ha,htied i p a b ha hleast.mem⟩
    obtain rfl : many = true := hmany.mpr htie
    -- the list, split at the first candidate
    have hsplit : g.peer = g.peer.take p ++ b::g.peer.drop (p+1) := by
      have hget : g.peer[p] = b := Option.some.inj ((List.getElem?_eq_getElem hlt).symm.trans hleast.mem.1)
      rw [← hget,← List.drop_eq_getElem_cons hlt,List.take_append_drop]
    have hbefore : (g.peer.take p).length = p := by rw [List.length_take]; omega
    have hskip := fun ys best => @charge_skip now r.rrp.tried (g.peer.take p) ys 0
      (no_candidate_before hleast fun i c hc => htied i p c b hc hleast.mem) best
    have hrest : p + 1 + (g.peer.drop (p+1)).length = g.peer.length := by rw [List.length_drop]; omega
    obtain ⟨⟨q,c⟩,hbest,htieloop⟩ := @leastConnTieLoop_eq now r.rrp.tried (g.peer.drop (p+1)) b.load (p+1) p b.charge
      (0 + b.effectiveWeight) (by rwa [hrest]) (fun peer hp => hweight peer (List.mem_of_mem_drop hp)) (by omega)
      (hweight b (List.mem_of_getElem? hleast.mem.1)) rfl fun j peer hj he => by
        rw [List.getElem?_drop] at hj
        exact htied _ p peer b ⟨hj,he⟩ hleast.mem
    have hfirst : leastConnTieLoop now r.rrp.tried p (g.peer.drop p) 0 (p,b) = .ok
        (b.charge::chargeAll now r.rrp.tried (p+1) (g.peer.drop (p+1)),
          0 + b.effectiveWeight + chargeTotal now r.rrp.tried (p+1) (g.peer.drop (p+1)),q,c) := by
      have hdrop : g.peer.drop p = b::g.peer.drop (p+1) := by
        conv_lhs => rw [hsplit]
        exact List.drop_left' hbefore
      rw [hdrop]
      exact leastConnTieLoop_charge _ (triedTest_eq hfit hlt) hleast.mem.2 rfl (by simp) htieloop
    -- the loop of round robin, split there too
    have hround : getPeerLoop now r.rrp.tried 0 g.peer 0 none = .ok
        (g.peer.take p ++ b.charge::chargeAll now r.rrp.tried (p+1) (g.peer.drop (p+1)),
          0 + b.effectiveWeight + chargeTotal now r.rrp.tried (p+1) (g.peer.drop (p+1)),some (q,c)) := by
      obtain ⟨hall,htotal,hchosen⟩ := hskip (b::g.peer.drop (p+1)) none
      rw [← hsplit,Nat.zero_add,hbefore] at hall htotal hchosen
      rw [getPeerLoop_eq now r.rrp.tried 0 g.peer 0 none (by simpa using hfit),hall,htotal,hchosen]
      simp only [chargeAll,chargeTotal,chargeBest,hleast.mem.2,if_true,hbest,add_assoc]
    have hq : q < g.peer.length := by
      have hchosen : chargeBest now r.rrp.tried (p+1) (g.peer.drop (p+1)) (some (p,b.charge)) = some (q,c) := hbest
      rcases chargeBest_mem hchosen with hpq | ⟨k,peer,hk,hpeer,-⟩
      · cases hpq
        exact hlt
      · have hklt := (List.getElem?_eq_some_iff.mp hpeer).1
        rw [List.length_drop] at hklt
        omega
    obtain ⟨tried,hset,-⟩ := triedSet_eq hfit hq
    set list := g.peer.take p ++ b.charge::chargeAll now r.rrp.tried (p+1) (g.peer.drop (p+1)) with hlist
    set total := 0 + b.effectiveWeight + chargeTotal now r.rrp.tried (p+1) (g.peer.drop (p+1))
    have hqlist : q < list.length := by
      have hlength : (chargeAll now r.rrp.tried (p+1) (g.peer.drop (p+1))).length = (g.peer.drop (p+1)).length := by
        simpa using congrArg List.length (chargeAll_map (·.config) config_charge now r.rrp.tried (p+1) (g.peer.drop (p+1)))
      rw [hlist,List.length_append,List.length_cons,hbefore,hlength]
      omega
    refine ⟨(u.store r.rrp.peers (list.modify q fun best => (best.settle now total).hold),
      { r with
        pc := r.pc.fill list[q]
        rrp := { r.rrp with current := some (r.rrp.peers,q), tried := tried } }),?_,?_⟩
    · simp [getLeastConnInGroup,hloop,hfirst,← hlist,hset,hqlist,orFault,bind,Except.bind,pure,Except.pure]
    · have hmodify : (list.modify q (·.settle now total)).modify q (·.hold) =
          list.modify q fun best => (best.settle now total).hold := by
        rw [List.modify_modify_eq]
        rfl
      simp [getRoundRobinInGroup,hg,hseveral,getPeer,hround,hset,hqlist,hmodify,orFault,bind,Except.bind,pure,Except.pure]
      rfl

/-- When all candidates have the same load, least_conn and round robin do the same. -/
theorem least_conn_eq_round_robin {u : Upstream} {g : RrPeers} {r : Request} (hg : u.group r.rrp.peers = some g)
    (hseveral : g.single = false) (hfit : Fits r.rrp.tried g.peer.length)
    (hweight : ∀ peer ∈ g.peer, 1 ≤ peer.weight)
    (htwo : ∃ i j a b, i ≠ j ∧ Candidate now r.rrp.tried g.peer i a ∧ Candidate now r.rrp.tried g.peer j b)
    (htied : ∀ i j a b, Candidate now r.rrp.tried g.peer i a → Candidate now r.rrp.tried g.peer j b →
      (a.conns : ℤ)*b.weight = b.conns*a.weight) :
    ∃ u' r', getLeastConnPeer now u r = .ok (.ok,u',r') ∧ getRoundRobinPeer now u r = .ok (.ok,u',r') := by
  have hpos : ∀ {i q}, Candidate now r.rrp.tried g.peer i q → 1 ≤ q.weight := fun hq =>
    hweight _ (List.mem_of_getElem? hq.1)
  obtain ⟨⟨u',r'⟩,hleast,hround⟩ := @getLeastConnInGroup_eq now u g
    { r with pc := { r.pc with cached := false, connection := none } } hg hseveral hfit hweight htwo
    fun i j a b ha hb => (load_eq (hpos ha) (hpos hb)).mpr (htied i j a b ha hb)
  refine ⟨u',r',getLeastConnPeer_inGroup hg hseveral hleast,?_⟩
  simp [getRoundRobinPeer,getRoundRobinPeerDepth,hround,bind,Except.bind,pure,Except.pure]

/-- Both primary servers of the load balancing note are idle. -/
theorem least_conn_eq_round_robin_note : ∃ u' r', getLeastConnPeer 0 noteUpstream noteRequest = .ok (.ok,u',r') ∧
    getRoundRobinPeer 0 noteUpstream noteRequest = .ok (.ok,u',r') := by
  have hidle : ∀ i a, Candidate 0 noteRequest.rrp.tried noteUpstream.primary.peer i a → a.conns = 0 := fun i a ha =>
    (show ∀ peer ∈ noteUpstream.primary.peer, peer.conns = 0 by decide) a (List.mem_of_getElem? ha.1)
  exact least_conn_eq_round_robin rfl rfl (by unfold Fits; decide) (by decide)
    ⟨0,1,_,_,by decide,⟨rfl,by decide⟩,⟨rfl,by decide⟩⟩ fun i j a b ha hb => by rw [hidle i a ha,hidle j b hb]; simp

end InsideNginx.HttpUpstream
