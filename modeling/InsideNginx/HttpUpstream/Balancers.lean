import InsideNginx.General.WeightedPick
import InsideNginx.HttpUpstream.Served

/-! least_conn and ip_hash meet the same specification as round robin. -/
namespace InsideNginx.HttpUpstream

/-! ### least_conn -/

/-- What the first loop keeps after an eligible peer. -/
def leastNext (i : ℕ) (peer : RrPeer) (best : Option (ℕ × RrPeer)) (many : Bool) : Option (ℕ × RrPeer) × Bool :=
  match best with
  | none => (some (i,peer),false)
  | some (p,b) =>
    if peer.conns*b.weight < b.conns*peer.weight then (some (i,peer),false)
    else (some (p,b),decide (peer.conns*b.weight = b.conns*peer.weight) || many)

theorem leastNext_fst (i : ℕ) (peer : RrPeer) (best : Option (ℕ × RrPeer)) (many : Bool) :
    (leastNext i peer best many).1 ≠ none ∧
      ((leastNext i peer best many).1 = some (i,peer) ∨ (leastNext i peer best many).1 = best) := by
  unfold leastNext
  cases best with
  | none => simp
  | some pb =>
    obtain ⟨p,b⟩ := pb
    by_cases hlt : peer.conns*b.weight < b.conns*peer.weight
    · simp [hlt]
    · simp [hlt]

/-- One iteration of the first loop. -/
theorem leastConnLoop_cons {now : ℤ} {tried : Tried} {i : ℕ} {peer : RrPeer} {rest : List RrPeer}
    {best : Option (ℕ × RrPeer)} {many : Bool} (htest : triedTest tried i = .ok (WordBitset.bit tried i)) :
    leastConnLoop now tried i (peer::rest) best many =
      if eligible now tried i peer then
        leastConnLoop now tried (i+1) rest (leastNext i peer best many).1 (leastNext i peer best many).2
      else leastConnLoop now tried (i+1) rest best many := by
  simp only [leastConnLoop,htest,bit_or_skip,bind,Except.bind]
  cases eligible now tried i peer with
  | false => rfl
  | true =>
    simp only [Bool.not_true,Bool.false_eq_true,if_false,if_true,leastNext]
    cases best with
    | none => rfl
    | some pb =>
      obtain ⟨p,b⟩ := pb
      simp only
      split_ifs with hlt heq
      · rfl
      · simp [heq]
      · simp [heq]

theorem leastConnLoop_spec (now : ℤ) (tried : Tried) (i : ℕ) (peers : List RrPeer)
    (best : Option (ℕ × RrPeer)) (many : Bool) (hfit : Fits tried (i + peers.length)) :
    ∃ best' many', leastConnLoop now tried i peers best many = .ok (best',many') ∧
      (best' = none → best = none ∧
        ∀ j peer, peers[j]? = some peer → eligible now tried (i+j) peer = false) ∧
      ∀ p b, best' = some (p,b) → best = some (p,b) ∨
        ∃ j, p = i + j ∧ peers[j]? = some b ∧ eligible now tried p b = true := by
  induction peers generalizing i best many with
  | nil => exact ⟨best,many,rfl,fun h => ⟨h,by simp⟩,fun p b h => .inl h⟩
  | cons peer rest ih =>
    have hrest : Fits tried (i + 1 + rest.length) := by
      simpa [Nat.add_comm,Nat.add_left_comm,Nat.add_assoc] using hfit
    have htest := triedTest_eq hfit (show i < i + (peer::rest).length by simp)
    rw [leastConnLoop_cons htest]
    cases he : eligible now tried i peer with
    | false =>
      obtain ⟨best',many',hcall,hnone,hsome⟩ := ih (i+1) best many hrest
      refine ⟨best',many',hcall,fun h => ⟨(hnone h).1,fun j other hj => ?_⟩,fun p b h => ?_⟩
      · cases j with
        | zero =>
          obtain rfl : peer = other := by simpa using hj
          exact he
        | succ j =>
          have hr := (hnone h).2 j other (by simpa using hj)
          rwa [Nat.add_assoc,Nat.add_comm 1 j] at hr
      · refine (hsome p b h).imp_right ?_
        rintro ⟨j,rfl,hj,hb⟩
        exact ⟨j+1,by omega,by simpa using hj,hb⟩
    | true =>
      obtain ⟨hne,hnext⟩ := leastNext_fst i peer best many
      obtain ⟨best',many',hcall,hnone,hsome⟩ :=
        ih (i+1) (leastNext i peer best many).1 (leastNext i peer best many).2 hrest
      refine ⟨best',many',hcall,fun h => absurd (hnone h).1 hne,fun p b h => ?_⟩
      rcases hsome p b h with hb | ⟨j,rfl,hj,hb⟩
      · rcases hnext with hi | hold
        · obtain ⟨rfl,rfl⟩ := Prod.mk.inj (Option.some.inj (hi.symm.trans hb))
          exact .inr ⟨0,rfl,rfl,he⟩
        · exact .inl (hold.symm.trans hb)
      · exact .inr ⟨j+1,by omega,by simpa using hj,hb⟩

/-- The best peer stays where it is or moves to the peer that is charged. -/
theorem chargedBest_fst (i : ℕ) (charged : RrPeer) (best : ℕ × RrPeer) :
    let next := if (if best.1 = i then (i,charged) else best).2.currentWeight < charged.currentWeight
      then (i,charged) else if best.1 = i then (i,charged) else best
    next.1 = best.1 ∨ next.1 = i := by
  split_ifs <;> simp

/-- An iteration of the second loop that charges an eligible peer with the load of the best one. -/
theorem leastConnTieLoop_charge {now : ℤ} {tried : Tried} {i : ℕ} {peer : RrPeer} {rest list : List RrPeer}
    {total total' : ℤ} {best best' : ℕ × RrPeer} (next : ℕ × RrPeer)
    (htest : triedTest tried i = .ok (WordBitset.bit tried i)) (he : eligible now tried i peer = true)
    (hsame : (peer.conns : ℤ)*best.2.weight = best.2.conns*peer.weight)
    (hnext : (if (if best.1 = i then (i,peer.charge) else best).2.currentWeight < peer.charge.currentWeight
      then (i,peer.charge) else if best.1 = i then (i,peer.charge) else best) = next)
    (hrun : leastConnTieLoop now tried (i+1) rest (total + peer.effectiveWeight) next = .ok (list,total',best')) :
    leastConnTieLoop now tried i (peer::rest) total best = .ok (peer.charge::list,total',best') := by
  have hgo : (WordBitset.bit tried i || peer.down ||
      decide ((peer.conns : ℤ)*best.2.weight ≠ best.2.conns*peer.weight) || peer.unavailable now || peer.atLimit) =
      false := by
    obtain ⟨hbit,hdown,havailable,hlimit⟩ := eligible_eq_true.mp he
    simp [hbit,hdown,havailable,hlimit,hsame]
  simp only [leastConnTieLoop,htest,bind,Except.bind,pure,Except.pure,hgo,Bool.false_eq_true,if_false,hnext,hrun]

/-- An iteration of the second loop that skips a peer. -/
theorem leastConnTieLoop_skip {now : ℤ} {tried : Tried} {i : ℕ} {peer : RrPeer} {rest list : List RrPeer}
    {total total' : ℤ} {best best' : ℕ × RrPeer} (htest : triedTest tried i = .ok (WordBitset.bit tried i))
    (hskip : ¬ (eligible now tried i peer = true ∧ (peer.conns : ℤ)*best.2.weight = best.2.conns*peer.weight))
    (hrun : leastConnTieLoop now tried (i+1) rest total best = .ok (list,total',best')) :
    leastConnTieLoop now tried i (peer::rest) total best = .ok (peer::list,total',best') := by
  have hstop : (WordBitset.bit tried i || peer.down ||
      decide ((peer.conns : ℤ)*best.2.weight ≠ best.2.conns*peer.weight) || peer.unavailable now || peer.atLimit) =
      true := by
    by_contra hgo
    simp only [Bool.not_eq_true,Bool.or_eq_false_iff,decide_eq_false_iff_not,not_not] at hgo
    obtain ⟨⟨⟨⟨hbit,hdown⟩,hsame⟩,havailable⟩,hlimit⟩ := hgo
    exact hskip ⟨eligible_eq_true.mpr ⟨hbit,hdown,havailable,hlimit⟩,hsame⟩
  simp only [leastConnTieLoop,htest,bind,Except.bind,pure,Except.pure,hstop,if_true,hrun]

/-- The second loop keeps the best peer or moves to a later eligible one, and changes no
connection count. -/
theorem leastConnTieLoop_spec (now : ℤ) (tried : Tried) (i : ℕ) (peers : List RrPeer) (total : ℤ)
    (best : ℕ × RrPeer) (hfit : Fits tried (i + peers.length)) :
    ∃ peers' total' p b, leastConnTieLoop now tried i peers total best = .ok (peers',total',p,b) ∧
      peers'.map (·.config) = peers.map (·.config) ∧ peers'.map (·.conns) = peers.map (·.conns) ∧
      (p = best.1 ∨ ∃ j peer, p = i + j ∧ peers[j]? = some peer ∧ eligible now tried p peer = true) := by
  induction peers generalizing i total best with
  | nil => exact ⟨[],total,best.1,best.2,rfl,rfl,rfl,.inl rfl⟩
  | cons peer rest ih =>
    have hrest : Fits tried (i + 1 + rest.length) := by
      simpa [Nat.add_comm,Nat.add_left_comm,Nat.add_assoc] using hfit
    have htest := triedTest_eq hfit (show i < i + (peer::rest).length by simp)
    have hstep : ∀ p, (∃ j other, p = i + 1 + j ∧ rest[j]? = some other ∧ eligible now tried p other = true) →
        ∃ j other, p = i + j ∧ (peer::rest)[j]? = some other ∧ eligible now tried p other = true := by
      rintro p ⟨j,other,hp,hj,he⟩
      exact ⟨j+1,other,by omega,by simpa using hj,he⟩
    by_cases hgo : eligible now tried i peer = true ∧ (peer.conns : ℤ)*best.2.weight = best.2.conns*peer.weight
    · obtain ⟨he,hsame⟩ := hgo
      obtain ⟨peers',total',p,b,hcall,hconfig,hconns,hp⟩ := ih (i+1) (total + peer.effectiveWeight) _ hrest
      refine ⟨peer.charge::peers',total',p,b,leastConnTieLoop_charge _ htest he hsame rfl hcall,
        by simp [hconfig],by simp [hconns],?_⟩
      rcases hp with hp | hp
      · rcases chargedBest_fst i peer.charge best with hb | hb
        · exact .inl (hp.trans hb)
        · exact .inr ⟨0,peer,by omega,rfl,by rw [hp,hb]; exact he⟩
      · exact .inr (hstep p hp)
    · obtain ⟨peers',total',p,b,hcall,hconfig,hconns,hp⟩ := ih (i+1) total best hrest
      exact ⟨peer::peers',total',p,b,leastConnTieLoop_skip htest hgo hcall,by simp [hconfig],by simp [hconns],
        hp.imp_right (hstep p)⟩

theorem getLeastConnInGroup_spec (now : ℤ) {u : Upstream} {g : RrPeers} (r : Request) (hu : u.Sound)
    (hcov : Covers u r.rrp.tried) (hg : u.group r.rrp.peers = some g) (hs : g.single = false) :
    ∃ result, getLeastConnInGroup now g u r = .ok result ∧ InGroup now u g r.rrp result := by
  have hfit : Fits r.rrp.tried g.peer.length := (hu.group _ _ hg).number ▸ hcov _ _ hg
  obtain ⟨best,many,hloop,hnone,hsome⟩ :=
    leastConnLoop_spec now r.rrp.tried 0 g.peer none false (by simpa using hfit)
  cases best with
  | none =>
    refine ⟨none,?_,.failed fun i peer hi => ?_⟩
    · simp [getLeastConnInGroup,hloop,bind,Except.bind,pure,Except.pure]
    · rw [eligible_of_several hs]
      simpa using (hnone rfl).2 i peer hi
  | some pb =>
    obtain ⟨p,b⟩ := pb
    obtain ⟨hp,he⟩ : g.peer[p]? = some b ∧ eligible now r.rrp.tried p b = true := by
      rcases hsome p b rfl with h | ⟨j,rfl,hj,he⟩
      · cases h
      · exact ⟨by simpa using hj,he⟩
    -- both ways of settling the tie end in a list and a position like these
    have hfinish : ∀ (list : List RrPeer) (total : ℤ) (q : ℕ), list.map (·.config) = g.peer.map (·.config) →
        list.map (·.conns) = g.peer.map (·.conns) →
        (∃ peer, g.peer[q]? = some peer ∧ eligible now r.rrp.tried q peer = true) →
        (getLeastConnInGroup now g u r = do
          let best ← orFault .nullDeref list[q]?
          let tried ← triedSet r.rrp.tried q
          return some (u.store r.rrp.peers (list.modify q fun best => (best.settle now total).hold),
            { r with
              pc := r.pc.fill best
              rrp := { r.rrp with current := some (r.rrp.peers,q), tried := tried } })) →
        ∃ result, getLeastConnInGroup now g u r = .ok result ∧ InGroup now u g r.rrp result := by
      rintro list total q hconfig hconns ⟨peer,hq,heq⟩ hrun
      have hlt : q < g.peer.length := by rw [List.getElem?_eq_some_iff] at hq; exact hq.1
      have hlist : q < list.length := by
        have hl := congrArg List.length hconfig
        simp only [List.length_map] at hl
        omega
      obtain ⟨tried,hset,hlength,hbit⟩ := triedSet_eq hfit hlt
      refine ⟨some (u.store r.rrp.peers (list.modify q fun best => (best.settle now total).hold),
        { r with
          pc := r.pc.fill list[q]
          rrp := { r.rrp with current := some (r.rrp.peers,q), tried := tried } }),?_,?_⟩
      · rw [hrun]
        simp [hset,hlist,orFault,bind,Except.bind,pure,Except.pure]
      · refine .chosen ⟨⟨peer,hq,by rw [eligible_of_several hs]; exact heq⟩,?_,?_⟩
          ⟨rfl,rfl,hlength,by simp [hs],fun _ => hbit⟩
        · exact (map_modify_eq _ (fun peer => (peer.settle now total).hold) (fun _ => rfl) _ _).trans hconfig
        · rw [map_conns_modify _ (· + 1) (fun _ => rfl),hconns]
    cases hm : many with
    | false =>
      refine hfinish g.peer 0 p rfl rfl ⟨b,hp,he⟩ ?_
      simp [getLeastConnInGroup,hloop,hm,bind,Except.bind,pure,Except.pure]
    | true =>
      have hlt : p < g.peer.length := by rw [List.getElem?_eq_some_iff] at hp; exact hp.1
      obtain ⟨rest,total,q,b',htie,hconfig,hconns,hq⟩ :=
        leastConnTieLoop_spec now r.rrp.tried p (g.peer.drop p) 0 (p,b)
          (by rw [List.length_drop]; unfold Fits at hfit ⊢; omega)
      refine hfinish (g.peer.take p ++ rest) total q ?_ ?_ ?_ ?_
      · rw [List.map_append,hconfig,← List.map_append,List.take_append_drop]
      · rw [List.map_append,hconns,← List.map_append,List.take_append_drop]
      · rcases hq with rfl | ⟨j,peer,rfl,hj,hje⟩
        · exact ⟨b,hp,he⟩
        · exact ⟨peer,by simpa [List.getElem?_drop] using hj,hje⟩
      · simp [getLeastConnInGroup,hloop,hm,htie,bind,Except.bind,pure,Except.pure]

theorem getLeastConnPeerDepth_serves {now : ℤ} {u : Upstream} {depth : ℕ} {g : RrPeers} {r : Request}
    (hu : u.Sound) (hcov : Covers u r.rrp.tried) (hg : u.group r.rrp.peers = some g)
    (hagain : ServesNext now (getLeastConnPeerDepth now depth) u r.rrp) :
    Serves now (getLeastConnPeerDepth now (depth+1)) u r := by
  cases hs : g.single with
  | true =>
    obtain ⟨rc,u',r',hcall,hserved⟩ := getRoundRobinPeer_serves now r hu hcov hg
    refine ⟨rc,u',r',?_,hserved⟩
    simpa [getLeastConnPeerDepth,hg,hs,orFault,bind,Except.bind] using hcall
  | false =>
    obtain ⟨result,hcall,hin⟩ := getLeastConnInGroup_spec now
      { r with pc := { r.pc with cached := false, connection := none } } hu hcov hg hs
    refine serves_of_inGroup hcov hg hin hagain { r.pc with cached := false, connection := none } ?_
    simp only [getLeastConnPeerDepth,hg,hs,hcall,orFault,bind,Except.bind,pure,Except.pure]
    cases result <;> rfl

theorem getLeastConnPeer_serves {now : ℤ} {u : Upstream} {g : RrPeers} {r : Request} (hu : u.Sound)
    (hcov : Covers u r.rrp.tried) (hg : u.group r.rrp.peers = some g) :
    Serves now (getLeastConnPeer now) u r :=
  getLeastConnPeerDepth_serves hu hcov hg fun _ _ hn hsw =>
    getLeastConnPeerDepth_serves hu (hcov.of_length hsw.length)
      (hsw.peers ▸ (Upstream.next_eq_some hn).2) (servesNext_backup hsw.peers)

/-! ### ip_hash -/

/-- The weights of a list of peers. -/
def weights (peers : List RrPeer) : List ℤ := peers.map (·.weight)

/-- The walk of the source makes the subtractions of `WeightedPick.pick`. -/
theorem weightWalk_eq (w : ℤ) (i : ℕ) (peers : List RrPeer) :
    (weightWalk w i peers).toOption = (WeightedPick.pick w (weights peers)).bind fun p =>
      peers[p]?.map fun peer => (i+p,peer) := by
  induction peers generalizing w i with
  | nil => rfl
  | cons peer rest ih =>
    by_cases h : peer.weight ≤ w
    · rw [weightWalk,if_pos h,ih]
      simp [weights,WeightedPick.pick,h,Option.bind_map,Nat.add_assoc,Nat.add_comm 1]
    · simp [weights,WeightedPick.pick,weightWalk,h,Except.toOption]

/-- The probe of a hash value is the pick of its residue. -/
theorem ipHashProbe_pick {g : RrPeers} (hg : g.Sound) (hw : g.totalWeight ≠ 0) (hash : ℕ) :
    ∃ p peer, WeightedPick.pick ((hash%g.totalWeight : ℕ) : ℤ) (weights g.peer) = some p ∧
      g.peer[p]? = some peer ∧ ipHashProbe hash g = .ok (p,peer) := by
  have hlt := Nat.mod_lt hash (Nat.pos_of_ne_zero hw)
  have htotal : (g.totalWeight : ℤ) = (weights g.peer).sum := hg.totalWeight
  obtain ⟨p,hpick⟩ := WeightedPick.exists_pick (w := ((hash%g.totalWeight : ℕ) : ℤ)) (by omega)
    (show _ < (weights g.peer).sum by omega)
  have hlength := (WeightedPick.pick_owns (by omega) hpick).lt_length
  have hp : p < g.peer.length := by simpa [weights] using hlength
  have hwalk := weightWalk_eq ((hash%g.totalWeight : ℕ) : ℤ) 0 g.peer
  rw [hpick,Option.bind_some,List.getElem?_eq_getElem hp,Option.map_some,Nat.zero_add] at hwalk
  exact ⟨p,g.peer[p],hpick,List.getElem?_eq_getElem hp,by rw [ipHashProbe,if_neg hw]; exact toOption_ok hwalk⟩

/-- One round of the probe loop. -/
theorem ipHashLoop_succ (now : ℤ) {tried : Tried} {g : RrPeers} (hg : g.Sound) (hfit : Fits tried g.number)
    (addr : List ℕ) (fuel hash : ℕ) {tries p : ℕ} {peer : RrPeer} (htries : tries ≤ 20) (hp : g.peer[p]? = some peer)
    (hprobe : ipHashProbe (hashAddr hash addr) g = .ok (p,peer)) :
    ipHashLoop now tried g addr (fuel+1) hash tries =
      if eligible now tried p peer then .ok (some (p,peer,hashAddr hash addr),tries)
      else if tries = 20 then .ok (none,21)
      else ipHashLoop now tried g addr fuel (hashAddr hash addr) (tries+1) := by
  have htest := triedTest_eq hfit (hg.lt_number hp)
  have hskip : (WordBitset.bit tried p || peer.skip now) = !eligible now tried p peer := by simp [eligible]
  simp only [ipHashLoop,hprobe,htest,hskip,bind,Except.bind,pure,Except.pure]
  cases eligible now tried p peer with
  | true => rfl
  | false =>
    simp only [Bool.not_false,if_true]
    rw [Nat.mod_eq_of_lt (by omega),if_neg Bool.false_ne_true]
    by_cases hlast : tries = 20
    · rw [if_pos hlast,if_pos (by omega),hlast]
    · rw [if_neg hlast,if_neg (by omega)]

/-- The probe loop stops at an eligible peer or gives up after its twenty-first probe. -/
theorem ipHashLoop_spec (now : ℤ) {tried : Tried} {g : RrPeers} (hg : g.Sound) (hw : g.totalWeight ≠ 0)
    (hfit : Fits tried g.number) (addr : List ℕ) (fuel hash tries : ℕ) (hfuel : 21 ≤ fuel + tries)
    (htries : tries ≤ 20) :
    ∃ result tries', ipHashLoop now tried g addr fuel hash tries = .ok (result,tries') ∧
      ∀ p peer hash', result = some (p,peer,hash') →
        g.peer[p]? = some peer ∧ eligible now tried p peer = true := by
  induction fuel generalizing hash tries with
  | zero => omega
  | succ fuel ih =>
    obtain ⟨p,peer,-,hp,hprobe⟩ := ipHashProbe_pick hg hw (hashAddr hash addr)
    rw [ipHashLoop_succ now hg hfit addr fuel hash htries hp hprobe]
    split
    · rename_i he
      refine ⟨_,_,rfl,fun q other hash' h => ?_⟩
      cases h
      exact ⟨hp,he⟩
    · split
      · exact ⟨none,_,rfl,by simp⟩
      · exact ih (hashAddr hash addr) (tries+1) (by omega) (by omega)

/-- `totalWeight` is the divisor of the hash: with it different from zero ip_hash meets the
specification too. -/
theorem getIpHashPeer_serves {now : ℤ} {u : Upstream} {g : RrPeers} {r : Request} (hu : u.Sound)
    (hcov : Covers u r.rrp.tried) (hg : u.group r.rrp.peers = some g) (hw : g.totalWeight ≠ 0) :
    Serves now (getIpHashPeer now) u r := by
  by_cases hrr : (decide (20 < r.iphp.tries) || g.single) = true
  · obtain ⟨rc,u',r',hcall,hserved⟩ := getRoundRobinPeer_serves now r hu hcov hg
    refine ⟨rc,u',r',?_,hserved⟩
    simpa [getIpHashPeer,hg,hrr,orFault,bind,Except.bind] using hcall
  · have hs : g.single = false ∧ r.iphp.tries ≤ 20 := by
      simp only [Bool.or_eq_true,decide_eq_true_eq,not_or] at hrr
      exact ⟨by simpa using hrr.2,by omega⟩
    obtain ⟨result,tries,hloop,hresult⟩ := ipHashLoop_spec now (hu.group _ _ hg) hw
      (hcov _ _ hg) r.iphp.addr 21 r.iphp.hash r.iphp.tries (by omega) hs.2
    cases result with
    | none =>
      obtain ⟨rc,u',r',hcall,hserved⟩ := getRoundRobinPeer_serves now
        { r with
          pc := { r.pc with cached := false, connection := none }
          iphp := { r.iphp with tries := tries } } hu hcov hg
      refine ⟨rc,u',r',?_,hserved⟩
      simpa [getIpHashPeer,hg,hrr,hloop,orFault,bind,Except.bind] using hcall
    | some found =>
      obtain ⟨p,peer,hash⟩ := found
      obtain ⟨hp,he⟩ := hresult p peer hash rfl
      obtain ⟨tried,hset,hlength,hbit⟩ := triedSet_eq (hcov _ _ hg) ((hu.group _ _ hg).lt_number hp)
      refine ⟨.ok,u.store r.rrp.peers (g.peer.modify p fun peer => peer.hold.touch now),
        { r with
          pc := ({ r.pc with cached := false, connection := none } : PeerConnection).fill peer
          rrp := { r.rrp with current := some (r.rrp.peers,p), tried := tried }
          iphp := { r.iphp with hash := hash, tries := tries } },?_,.here hg ⟨?_,?_,?_⟩
        ⟨rfl,rfl,hlength,by simp [hs.1],fun _ => hbit⟩⟩
      · simp [getIpHashPeer,hg,hrr,hloop,hset,orFault,bind,Except.bind,pure,Except.pure]
      · exact ⟨peer,hp,by rw [eligible_of_several hs.1]; exact he⟩
      · exact map_modify_eq _ (fun peer => peer.hold.touch now) (fun _ => rfl) _ _
      · exact map_conns_modify _ (· + 1) (fun _ => rfl) _ _

end InsideNginx.HttpUpstream
