import InsideNginx.General.FirstLeast
import InsideNginx.HttpUpstream.Requests

/-! Which peer least_conn picks: the first pass finds the first peer with the fewest connections
for its weight and whether others tie with it, the second one the first of the tied peers with the
greatest credit. -/
namespace InsideNginx.HttpUpstream
open FirstLeast
variable {now : ℤ} {tried : Tried} {pre peers : List RrPeer} {peer : RrPeer} {i : ℕ}

/-- A peer that a selection loop does not skip. -/
def Candidate (now : ℤ) (tried : Tried) (peers : List RrPeer) (i : ℕ) (peer : RrPeer) : Prop :=
  peers[i]? = some peer ∧ eligible now tried i peer = true

/-- The connections for one unit of weight. -/
def RrPeer.load (peer : RrPeer) : ℚ := peer.conns/peer.weight

/-- The current weight after the charge, the greater the lower. -/
def RrPeer.debt (peer : RrPeer) : ℤ := -(peer.currentWeight + peer.effectiveWeight)

theorem load_lt {a b : RrPeer} (ha : 1 ≤ a.weight) (hb : 1 ≤ b.weight) :
    a.load < b.load ↔ a.conns*b.weight < b.conns*a.weight := by
  have ha' : (0 : ℚ) < a.weight := by exact_mod_cast ha
  have hb' : (0 : ℚ) < b.weight := by exact_mod_cast hb
  rw [RrPeer.load,RrPeer.load,div_lt_div_iff₀ ha' hb']
  exact_mod_cast Iff.rfl

theorem load_eq {a b : RrPeer} (ha : 1 ≤ a.weight) (hb : 1 ≤ b.weight) :
    a.load = b.load ↔ a.conns*b.weight = b.conns*a.weight := by
  have ha' : (a.weight : ℚ) ≠ 0 := by exact_mod_cast (by omega : a.weight ≠ 0)
  have hb' : (b.weight : ℚ) ≠ 0 := by exact_mod_cast (by omega : b.weight ≠ 0)
  rw [RrPeer.load,RrPeer.load,div_eq_div_iff ha' hb']
  exact_mod_cast Iff.rfl

theorem currentWeight_charge (peer : RrPeer) : peer.charge.currentWeight = -peer.debt := by
  simp [RrPeer.charge,RrPeer.debt]

/-! ### One more peer -/

theorem candidate_concat {q : ℕ} {c : RrPeer} : Candidate now tried (pre ++ [peer]) q c ↔
    Candidate now tried pre q c ∨ (q = pre.length ∧ c = peer) ∧ eligible now tried pre.length peer = true := by
  unfold Candidate
  rcases lt_trichotomy q pre.length with hlt | rfl | hgt
  · rw [List.getElem?_append_left hlt]
    simp [hlt.ne]
  · have hnone : pre[pre.length]? = none := List.getElem?_eq_none le_rfl
    rw [hnone]
    constructor
    · rintro ⟨hq,he⟩
      obtain rfl : peer = c := by simpa using hq
      exact .inr ⟨⟨rfl,rfl⟩,he⟩
    · rintro (⟨hq,-⟩ | ⟨⟨-,rfl⟩,he⟩)
      · cases hq
      · exact ⟨by simp,he⟩
  · have hnone : pre[q]? = none := List.getElem?_eq_none hgt.le
    have hnone' : (pre ++ [peer])[q]? = none := List.getElem?_eq_none (by simp; omega)
    rw [hnone,hnone']
    simp [hgt.ne']

theorem Candidate.lt {q : ℕ} {c : RrPeer} (h : Candidate now tried pre q c) : q < pre.length :=
  (List.getElem?_eq_some_iff.mp h.1).1

/-- An eligible peer is one candidate more. -/
theorem candidate_extends (he : eligible now tried pre.length peer = true) :
    Extends (Candidate now tried pre) (Candidate now tried (pre ++ [peer])) pre.length peer :=
  ⟨fun q c => by rw [candidate_concat]; simp [he],fun q c h => h.lt⟩

theorem candidate_skip (he : eligible now tried pre.length peer = false) :
    Candidate now tried (pre ++ [peer]) = Candidate now tried pre := by
  funext q c
  simp [candidate_concat,he]

/-! ### The first pass -/

/-- What the first pass knows about the peers that it has seen. -/
def LeastSeen (now : ℤ) (tried : Tried) (pre : List RrPeer) : Option (ℕ × RrPeer) → Bool → Prop
  | none,_ => ∀ q c, ¬ Candidate now tried pre q c
  | some (p,b),many => IsFirstLeast (Candidate now tried pre) RrPeer.load p b ∧
      (many = true ↔ Tied (Candidate now tried pre) RrPeer.load p b)

/-- What is known after an eligible peer. -/
theorem LeastSeen.next {best : Option (ℕ × RrPeer)} {many : Bool} (h : LeastSeen now tried pre best many)
    (hweight : ∀ other ∈ pre, 1 ≤ other.weight) (hpeer : 1 ≤ peer.weight)
    (he : eligible now tried pre.length peer = true) :
    LeastSeen now tried (pre ++ [peer]) (leastNext pre.length peer best many).1
      (leastNext pre.length peer best many).2 := by
  have hext := candidate_extends he
  cases best with
  | none =>
    obtain ⟨hleast,hties⟩ : IsFirstLeast _ RrPeer.load pre.length peer ∧ ¬ Tied _ RrPeer.load pre.length peer :=
      hext.single h
    exact ⟨hleast,iff_of_false Bool.false_ne_true hties⟩
  | some pb =>
    obtain ⟨p,b⟩ := pb
    obtain ⟨hleast,hties⟩ := h
    have hbest : 1 ≤ b.weight := hweight b (List.mem_of_getElem? hleast.mem.1)
    have hlt := load_lt hpeer hbest
    have heq := load_eq hpeer hbest
    rcases lt_trichotomy peer.load b.load with hload | hload | hload
    · obtain ⟨hleast',hties'⟩ := hext.below hleast hload
      simp only [leastNext,if_pos (hlt.mp hload)]
      exact ⟨hleast',iff_of_false Bool.false_ne_true hties'⟩
    · simp only [leastNext,if_neg (mt hlt.mpr hload.not_lt),decide_eq_true (heq.mp hload),Bool.true_or]
      exact ⟨hext.keep hleast hload.ge,iff_of_true rfl (hext.tied hleast hload)⟩
    · simp only [leastNext,if_neg (mt hlt.mpr hload.not_gt),decide_eq_false (mt heq.mpr hload.ne'),Bool.false_or]
      exact ⟨hext.keep hleast hload.le,hties.trans (hext.tied_iff hload).symm⟩

/-- The first pass finds the first candidate with the least load, and the flag is exact. -/
theorem leastConnLoop_least {best : Option (ℕ × RrPeer)} {many : Bool}
    (hfit : Fits tried (pre.length + peers.length)) (hweight : ∀ peer ∈ pre ++ peers, 1 ≤ peer.weight)
    (h : LeastSeen now tried pre best many) :
    ∃ best' many', leastConnLoop now tried pre.length peers best many = .ok (best',many') ∧
      LeastSeen now tried (pre ++ peers) best' many' := by
  induction peers generalizing pre best many with
  | nil => exact ⟨best,many,rfl,by rwa [List.append_nil]⟩
  | cons peer rest ih =>
    have htest := triedTest_eq hfit (show pre.length < pre.length + (peer::rest).length by simp)
    have hrest : ∀ next tied, LeastSeen now tried (pre ++ [peer]) next tied →
        ∃ best' many', leastConnLoop now tried (pre.length+1) rest next tied = .ok (best',many') ∧
          LeastSeen now tried (pre ++ peer::rest) best' many' := by
      intro next tied hseen
      have h := @ih (pre ++ [peer]) next tied (by simpa [Nat.add_assoc,Nat.add_comm 1] using hfit)
        (by simpa using hweight) hseen
      rw [List.length_append,List.append_assoc] at h
      exact h
    rw [leastConnLoop_cons htest]
    cases he : eligible now tried pre.length peer with
    | true =>
      rw [if_pos rfl]
      exact hrest _ _ (h.next (fun other ho => hweight other (List.mem_append_left _ ho)) (hweight peer (by simp)) he)
    | false =>
      rw [if_neg Bool.false_ne_true]
      refine hrest best many ?_
      unfold LeastSeen
      rw [candidate_skip he]
      exact h

/-! ### The second pass -/

/-- A candidate with the given load. -/
def Ties (now : ℤ) (tried : Tried) (peers : List RrPeer) (load : ℚ) (i : ℕ) (peer : RrPeer) : Prop :=
  Candidate now tried peers i peer ∧ peer.load = load

/-- The second pass charges the tied peers. -/
def chargeTied (now : ℤ) (tried : Tried) (load : ℚ) (i : ℕ) (peer : RrPeer) : RrPeer :=
  if eligible now tried i peer = true ∧ peer.load = load then peer.charge else peer

theorem ties_extends {load : ℚ} (he : eligible now tried pre.length peer = true) (hload : peer.load = load) :
    Extends (Ties now tried pre load) (Ties now tried (pre ++ [peer]) load) pre.length peer := by
  refine ⟨fun q c => ?_,fun q c h => h.1.lt⟩
  unfold Ties
  rw [candidate_concat]
  constructor
  · rintro ⟨hc | ⟨hc,-⟩,hl⟩
    · exact .inl ⟨hc,hl⟩
    · exact .inr hc
  · rintro (⟨hc,hl⟩ | ⟨rfl,rfl⟩)
    · exact ⟨.inl hc,hl⟩
    · exact ⟨.inr ⟨⟨rfl,rfl⟩,he⟩,hload⟩

theorem ties_skip {load : ℚ} (h : ¬ (eligible now tried pre.length peer = true ∧ peer.load = load)) :
    Ties now tried (pre ++ [peer]) load = Ties now tried pre load := by
  funext q c
  unfold Ties
  rw [candidate_concat,eq_iff_iff]
  constructor
  · rintro ⟨hc | ⟨⟨rfl,rfl⟩,he⟩,hl⟩
    · exact ⟨hc,hl⟩
    · exact absurd ⟨he,hl⟩ h
  · exact fun ⟨hc,hl⟩ => ⟨.inl hc,hl⟩

/-- The second pass, once it has charged the first of the tied peers: it moves to the first one
with the greatest credit. -/
theorem leastConnTieLoop_first {load : ℚ} {total : ℤ} {p : ℕ} {c : RrPeer}
    (hfit : Fits tried (pre.length + peers.length)) (hweight : ∀ peer ∈ pre ++ peers, 1 ≤ peer.weight)
    (h : IsFirstLeast (Ties now tried pre load) RrPeer.debt p c) :
    ∃ list total' p' c', leastConnTieLoop now tried pre.length peers total (p,c.charge) =
        .ok (list,total',p',c'.charge) ∧
      IsFirstLeast (Ties now tried (pre ++ peers) load) RrPeer.debt p' c' ∧
      list = peers.mapIdx fun j => chargeTied now tried load (pre.length+j) := by
  induction peers generalizing pre total p c with
  | nil => exact ⟨[],total,p,c,rfl,by rwa [List.append_nil],rfl⟩
  | cons peer rest ih =>
    have htest := triedTest_eq hfit (show pre.length < pre.length + (peer::rest).length by simp)
    have hpeer : 1 ≤ peer.weight := hweight peer (by simp)
    have hbest : 1 ≤ c.weight := hweight c (List.mem_append_left _ (List.mem_of_getElem? h.mem.1.1))
    have heq : peer.load = load ↔ (peer.conns : ℤ)*c.weight = c.conns*peer.weight := by
      rw [← h.mem.2,load_eq hpeer hbest]
    have hfit' : Fits tried ((pre ++ [peer]).length + rest.length) := by
      simpa [Nat.add_assoc,Nat.add_comm 1] using hfit
    have hweight' : ∀ other ∈ (pre ++ [peer]) ++ rest, 1 ≤ other.weight := by simpa using hweight
    have hlist : ∀ first : RrPeer, first = chargeTied now tried load pre.length peer →
        first::(rest.mapIdx fun j => chargeTied now tried load ((pre ++ [peer]).length+j)) =
          (peer::rest).mapIdx fun j => chargeTied now tried load (pre.length+j) := by
      rintro first rfl
      simp [List.mapIdx_cons,Nat.add_assoc,Nat.add_comm 1]
    have hlength : (pre ++ [peer]).length = pre.length+1 := by simp
    by_cases htie : eligible now tried pre.length peer = true ∧ peer.load = load
    · -- the peer is charged, and becomes the best one when its credit is greater
      have hsame : (peer.conns : ℤ)*c.charge.weight = c.charge.conns*peer.weight := heq.mp htie.2
      have hne : p ≠ pre.length := h.mem.1.lt.ne
      have hext := ties_extends htie.1 htie.2
      by_cases hless : peer.debt < c.debt
      · obtain ⟨list,total',p',c',hrun,hfirst,rfl⟩ := @ih (pre ++ [peer]) (total + peer.effectiveWeight)
          pre.length peer hfit' hweight' (hext.below h hless).1
        have hgreater : c.charge.currentWeight < peer.charge.currentWeight := by
          rw [currentWeight_charge,currentWeight_charge]; omega
        refine ⟨_,total',p',c',?_,by simpa using hfirst,hlist peer.charge ?_⟩
        · rw [hlength] at hrun ⊢
          exact leastConnTieLoop_charge _ htest htie.1 hsame (by rw [if_neg hne,if_pos hgreater]) hrun
        · rw [chargeTied,if_pos htie]
      · obtain ⟨list,total',p',c',hrun,hfirst,rfl⟩ := @ih (pre ++ [peer]) (total + peer.effectiveWeight)
          p c hfit' hweight' (hext.keep h (not_lt.mp hless))
        have hnot : ¬ c.charge.currentWeight < peer.charge.currentWeight := by
          rw [currentWeight_charge,currentWeight_charge]; omega
        refine ⟨_,total',p',c',?_,by simpa using hfirst,hlist peer.charge ?_⟩
        · rw [hlength] at hrun ⊢
          exact leastConnTieLoop_charge _ htest htie.1 hsame (by rw [if_neg hne,if_neg hnot]) hrun
        · rw [chargeTied,if_pos htie]
    · obtain ⟨list,total',p',c',hrun,hfirst,rfl⟩ := @ih (pre ++ [peer]) total p c hfit' hweight' (ties_skip htie ▸ h)
      refine ⟨_,total',p',c',?_,by simpa using hfirst,hlist peer ?_⟩
      · rw [hlength] at hrun ⊢
        exact leastConnTieLoop_skip htest (fun hgo => htie ⟨hgo.1,heq.mpr hgo.2⟩) hrun
      · rw [chargeTied,if_neg htie]

/-! ### The selection -/

/-- Up to the first least loaded peer, only that peer has its load. -/
theorem ties_take {p : ℕ} {b : RrPeer} (h : IsFirstLeast (Candidate now tried peers) RrPeer.load p b) :
    IsFirstLeast (Ties now tried (peers.take (p+1)) b.load) RrPeer.debt p b := by
  have honly : ∀ q c, Ties now tried (peers.take (p+1)) b.load q c → q = p ∧ c = b := by
    rintro q c ⟨⟨hq,he⟩,hload⟩
    have hlt : q < p+1 := by
      have := (List.getElem?_eq_some_iff.mp hq).1
      rw [List.length_take] at this
      omega
    rw [List.getElem?_take_of_lt hlt] at hq
    have hqp : q = p := by
      by_contra hne
      have := h.first q c ⟨hq,he⟩ (by omega)
      rw [hload] at this
      exact lt_irrefl _ this
    subst hqp
    exact ⟨rfl,Option.some.inj (hq.symm.trans h.mem.1)⟩
  refine ⟨⟨⟨?_,h.mem.2⟩,rfl⟩,fun q c hc => ?_,fun q c hc hlt => ?_⟩
  · rw [List.getElem?_take_of_lt (Nat.lt_succ_self p)]
    exact h.mem.1
  · rw [(honly q c hc).2]
  · exact absurd (honly q c hc).1 hlt.ne

/-- The peers of a group when position `p` has been selected, before it pays for the round. -/
structure LeastPicked (now : ℤ) (tried : Tried) (peers : List RrPeer) (p : ℕ) (b : RrPeer) (list : List RrPeer) :
    Prop where
  candidate : Candidate now tried peers p b
  least : ∀ q c, Candidate now tried peers q c → b.load ≤ c.load
  first : Tied (Candidate now tried peers) RrPeer.load p b →
    IsFirstLeast (Ties now tried peers b.load) RrPeer.debt p b
  untied : ∀ (i : ℕ) (peer : RrPeer), peers[i]? = some peer → ¬ Ties now tried peers b.load i peer →
    list[i]? = some peer
  length : list.length = peers.length

/-- The second pass on the whole list. -/
theorem leastConnTieLoop_picked {p : ℕ} {b : RrPeer} (hfit : Fits tried peers.length)
    (hweight : ∀ peer ∈ peers, 1 ≤ peer.weight)
    (h : IsFirstLeast (Candidate now tried peers) RrPeer.load p b) :
    ∃ list total q c, leastConnTieLoop now tried p (peers.drop p) 0 (p,b) = .ok (list,total,q,c.charge) ∧
      LeastPicked now tried peers q c (peers.take p ++ list) := by
  have hlt : p < peers.length := h.mem.lt
  have htake : (peers.take (p+1)).length = p+1 := by rw [List.length_take]; omega
  have hrest : (peers.take (p+1)).length + (peers.drop (p+1)).length = peers.length := by
    rw [htake,List.length_drop]; omega
  obtain ⟨list,total,q,c,htie,hfirst,rfl⟩ := @leastConnTieLoop_first now tried (peers.take (p+1))
    (peers.drop (p+1)) b.load (0 + b.effectiveWeight) p b (by rwa [hrest]) (by rwa [List.take_append_drop])
    (ties_take h)
  rw [htake] at htie
  rw [List.take_append_drop] at hfirst
  -- the first iteration charges `b`, which stays the best peer
  have htest := triedTest_eq hfit hlt
  have hget : peers[p] = b := Option.some.inj ((List.getElem?_eq_getElem hlt).symm.trans h.mem.1)
  have hloop : leastConnTieLoop now tried p (peers.drop p) 0 (p,b) =
      .ok (b.charge::((peers.drop (p+1)).mapIdx fun j => chargeTied now tried b.load (p+1+j)),total,q,c.charge) := by
    rw [List.drop_eq_getElem_cons hlt,hget]
    exact leastConnTieLoop_charge _ htest h.mem.2 rfl (by simp) htie
  have hload : c.load = b.load := hfirst.mem.2
  have hbefore : (peers.take p).length = p := by rw [List.length_take]; omega
  refine ⟨_,total,q,c,hloop,hfirst.mem.1,fun i peer hi => ?_,fun _ => ?_,fun i peer hi huntied => ?_,?_⟩
  · rw [hload]
    exact h.least i peer hi
  · rw [hload]
    exact hfirst
  · rw [hload] at huntied
    rcases lt_trichotomy i p with hip | rfl | hip
    · rw [List.getElem?_append_left (by omega),List.getElem?_take_of_lt hip]
      exact hi
    · obtain rfl := Option.some.inj (hi.symm.trans h.mem.1)
      exact absurd ⟨h.mem,rfl⟩ huntied
    · obtain ⟨j,rfl⟩ : ∃ j, i = p + 1 + j := ⟨i - (p + 1),by omega⟩
      have hdropped : (peers.drop (p+1))[j]? = some peer := by rw [List.getElem?_drop]; exact hi
      rw [List.getElem?_append_right (by omega),hbefore,show p + 1 + j - p = j + 1 by omega,
        List.getElem?_cons_succ,List.getElem?_mapIdx,hdropped,Option.map_some,chargeTied,
        if_neg fun htie => huntied ⟨⟨hi,htie.1⟩,htie.2⟩]
  · simp only [List.length_append,hbefore,List.length_cons,List.length_mapIdx,List.length_drop]
    omega

/-- The selection of least_conn in a group that has a candidate. -/
theorem getLeastConnInGroup_least (u : Upstream) {g : RrPeers} {r : Request}
    (hfit : Fits r.rrp.tried g.peer.length) (hweight : ∀ peer ∈ g.peer, 1 ≤ peer.weight)
    (hsome : ∃ i peer, Candidate now r.rrp.tried g.peer i peer) :
    ∃ p b list total r', getLeastConnInGroup now g u r =
        .ok (some (u.store r.rrp.peers (list.modify p fun best => (best.settle now total).hold),r')) ∧
      r'.rrp.current = some (r.rrp.peers,p) ∧ LeastPicked now r.rrp.tried g.peer p b list := by
  obtain ⟨best,many,hloop,hseen⟩ := @leastConnLoop_least now r.rrp.tried [] g.peer none false
    (by simpa using hfit) hweight (fun q c hc => by simp [Candidate] at hc)
  rw [List.length_nil] at hloop
  rw [List.nil_append] at hseen
  cases best with
  | none =>
    obtain ⟨i,peer,hc⟩ := hsome
    exact absurd hc (hseen i peer)
  | some pb =>
    obtain ⟨p,b⟩ := pb
    obtain ⟨hleast,hmany⟩ := hseen
    -- the code after the loops, on the peers that they leave
    have hfinish : ∀ (list : List RrPeer) (total : ℤ) (q : ℕ) (c : RrPeer),
        LeastPicked now r.rrp.tried g.peer q c list →
        (getLeastConnInGroup now g u r = do
          let best ← orFault .nullDeref list[q]?
          let tried ← triedSet r.rrp.tried q
          return some (u.store r.rrp.peers (list.modify q fun best => (best.settle now total).hold),
            { r with
              pc := r.pc.fill best
              rrp := { r.rrp with current := some (r.rrp.peers,q), tried := tried } })) →
        ∃ p b list total r', getLeastConnInGroup now g u r =
            .ok (some (u.store r.rrp.peers (list.modify p fun best => (best.settle now total).hold),r')) ∧
          r'.rrp.current = some (r.rrp.peers,p) ∧ LeastPicked now r.rrp.tried g.peer p b list := by
      intro list total q c hpicked hrun
      have hq : q < g.peer.length := hpicked.candidate.lt
      have hlist : q < list.length := by rw [hpicked.length]; exact hq
      obtain ⟨tried,hset,-⟩ := triedSet_eq hfit hq
      rw [List.getElem?_eq_getElem hlist,hset] at hrun
      exact ⟨q,c,list,total,_,hrun,rfl,hpicked⟩
    cases hm : many with
    | false =>
      refine hfinish g.peer 0 p b ⟨hleast.mem,hleast.least,fun htied => ?_,fun i peer hi _ => hi,rfl⟩ ?_
      · rw [hm] at hmany
        cases hmany.mpr htied
      · simp [getLeastConnInGroup,hloop,hm,bind,Except.bind,pure,Except.pure]
    | true =>
      obtain ⟨list,total,q,c,htie,hpicked⟩ := leastConnTieLoop_picked hfit hweight hleast
      refine hfinish (g.peer.take p ++ list) total q c hpicked ?_
      simp [getLeastConnInGroup,hloop,hm,htie,bind,Except.bind,pure,Except.pure]

/-- In a group of several peers with a candidate, a call of least_conn is the selection there. -/
theorem getLeastConnPeer_inGroup {u u' : Upstream} {g : RrPeers} {r r' : Request}
    (hg : u.group r.rrp.peers = some g) (hseveral : g.single = false)
    (h : getLeastConnInGroup now g u { r with pc := { r.pc with cached := false, connection := none } } =
      .ok (some (u',r'))) : getLeastConnPeer now u r = .ok (.ok,u',r') := by
  simp [getLeastConnPeer,getLeastConnPeerDepth,hg,hseveral,h,orFault,bind,Except.bind,pure,Except.pure]

/-- The selected peer is least loaded. Among tied peers it is the first with the greatest credit,
and the peers outside the tie are left alone. -/
theorem least_conn_least {u : Upstream} {g : RrPeers} {r : Request} (hg : u.group r.rrp.peers = some g)
    (hseveral : g.single = false) (hfit : Fits r.rrp.tried g.peer.length)
    (hweight : ∀ peer ∈ g.peer, 1 ≤ peer.weight) (hsome : ∃ i peer, Candidate now r.rrp.tried g.peer i peer) :
    ∃ p b u' r', getLeastConnPeer now u r = .ok (.ok,u',r') ∧ r'.rrp.current = some (r.rrp.peers,p) ∧
      Candidate now r.rrp.tried g.peer p b ∧
      (∀ i q, Candidate now r.rrp.tried g.peer i q → (b.conns : ℤ)*q.weight ≤ q.conns*b.weight) ∧
      ((∃ i q, i ≠ p ∧ Candidate now r.rrp.tried g.peer i q ∧ (q.conns : ℤ)*b.weight = b.conns*q.weight) →
        ∀ i q, Candidate now r.rrp.tried g.peer i q → (q.conns : ℤ)*b.weight = b.conns*q.weight →
          q.currentWeight + q.effectiveWeight ≤ b.currentWeight + b.effectiveWeight ∧
          (i < p → q.currentWeight + q.effectiveWeight < b.currentWeight + b.effectiveWeight)) ∧
      ∀ ptr q, u.peerAt ptr = some q → ¬ (ptr.1 = r.rrp.peers ∧ Candidate now r.rrp.tried g.peer ptr.2 q ∧
        (q.conns : ℤ)*b.weight = b.conns*q.weight) → u'.peerAt ptr = some q := by
  obtain ⟨p,b,list,total,r',hcall,hcurrent,hb⟩ := @getLeastConnInGroup_least now u g
    { r with pc := { r.pc with cached := false, connection := none } } hfit hweight hsome
  have hpos : ∀ {i q}, Candidate now r.rrp.tried g.peer i q → 1 ≤ q.weight := fun hq =>
    hweight _ (List.mem_of_getElem? hq.1)
  have hbpos : 1 ≤ b.weight := hpos hb.candidate
  refine ⟨p,b,_,r',getLeastConnPeer_inGroup hg hseveral hcall,hcurrent,hb.candidate,fun i q hq => ?_,?_,?_⟩
  · rw [← not_lt,← load_lt (hpos hq) hbpos,not_lt]
    exact hb.least i q hq
  · rintro ⟨j,c,hne,hc,htied⟩ i q hq hsame
    have hfirst := hb.first ⟨j,c,hne,hc,(load_eq (hpos hc) hbpos).mpr htied⟩
    have hties : Ties now r.rrp.tried g.peer b.load i q := ⟨hq,(load_eq (hpos hq) hbpos).mpr hsame⟩
    have hle := hfirst.least i q hties
    have hlt := hfirst.first i q hties
    unfold RrPeer.debt at hle hlt
    exact ⟨by omega,fun hip => by have := hlt hip; omega⟩
  · rintro ⟨ptr,i⟩ q hq huntied
    by_cases hptr : ptr = r.rrp.peers
    · subst hptr
      have hi : g.peer[i]? = some q := by simpa [Upstream.peerAt,hg] using hq
      have huntied' : ¬ Ties now r.rrp.tried g.peer b.load i q := fun ht =>
        huntied ⟨rfl,ht.1,(load_eq (hpos ht.1) hbpos).mp ht.2⟩
      have hip : p ≠ i := fun he => by
        subst he
        obtain rfl := Option.some.inj (hi.symm.trans hb.candidate.1)
        exact huntied' ⟨hb.candidate,rfl⟩
      simp only [Upstream.peerAt,Upstream.group_store hg,Option.bind_some,List.getElem?_modify_ne _ _ hip]
      exact hb.untied i q hi huntied'
    · simpa [Upstream.peerAt,Upstream.group_store_ne hptr] using hq

/-- A request that has tried no peer yet. -/
def noteRequest : Request := ⟨⟨false,none,none,0,none,3⟩,⟨0,.primary,none,[0]⟩,⟨89,[10,0,0],0⟩⟩

/-- Both primary servers of the load balancing note are idle, and the first has the greater weight. -/
theorem least_conn_least_note : ∃ p b u' r', getLeastConnPeer 0 noteUpstream noteRequest = .ok (.ok,u',r') ∧
    r'.rrp.current = some (.primary,p) ∧ Candidate 0 noteRequest.rrp.tried noteUpstream.primary.peer p b ∧
    ∀ i q, Candidate 0 noteRequest.rrp.tried noteUpstream.primary.peer i q → (b.conns : ℤ)*q.weight ≤ q.conns*b.weight := by
  obtain ⟨p,b,u',r',hcall,hcurrent,hb,hleast,-⟩ := @least_conn_least 0 noteUpstream noteUpstream.primary noteRequest
    rfl rfl (by unfold Fits; decide) (by decide) ⟨0,_,rfl,by decide⟩
  exact ⟨p,b,u',r',hcall,hcurrent,hb,hleast⟩

end InsideNginx.HttpUpstream
