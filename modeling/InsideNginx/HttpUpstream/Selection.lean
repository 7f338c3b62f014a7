import InsideNginx.HttpUpstream.LeastConn
import InsideNginx.HttpUpstream.IpHash

/-! What the three selection functions have in common: each chooses an eligible peer, counts
one more connection on it and records it as tried, and otherwise changes only weights and
check times. Everything that is proved about runs rests on this. -/
namespace InsideNginx.HttpUpstream

/-- A peer of a group of several peers may be chosen: not tried yet and not skipped. -/
def eligible (now : ℤ) (tried : Tried) (i : ℕ) (peer : RrPeer) : Bool :=
  !WordBitset.bit tried i && !peer.skip now

theorem eligible_eq_true {now : ℤ} {tried : Tried} {i : ℕ} {peer : RrPeer} : eligible now tried i peer = true ↔
    WordBitset.bit tried i = false ∧ peer.down = false ∧ peer.unavailable now = false ∧ peer.atLimit = false := by
  simp [eligible,RrPeer.skip,and_assoc]

/-- The test of a selection loop. -/
theorem bit_or_skip (now : ℤ) (tried : Tried) (i : ℕ) (peer : RrPeer) :
    (WordBitset.bit tried i || peer.skip now) = !eligible now tried i peer := by
  simp [eligible]

/-- A peer of a group may be chosen. A single peer is only tested for `down` and `max_conns`. -/
def RrPeers.canServe (g : RrPeers) (now : ℤ) (tried : Tried) (i : ℕ) (peer : RrPeer) : Bool :=
  if g.single then !peer.down && !peer.atLimit else eligible now tried i peer

/-- No peer of the group may be chosen. -/
def RrPeers.Exhausted (g : RrPeers) (now : ℤ) (tried : Tried) : Prop :=
  ∀ i peer, g.peer[i]? = some peer → g.canServe now tried i peer = false

/-- The fields of a peer that come from the configuration. -/
def RrPeer.config (peer : RrPeer) : ℤ × ℕ × ℕ × ℤ × Bool :=
  (peer.weight,peer.maxConns,peer.maxFails,peer.failTimeout,peer.down)

@[simp] theorem config_charge (peer : RrPeer) : peer.charge.config = peer.config := rfl
@[simp] theorem config_settle (peer : RrPeer) (now total : ℤ) :
    (peer.settle now total).config = peer.config := rfl
@[simp] theorem config_hold (peer : RrPeer) : peer.hold.config = peer.config := rfl
@[simp] theorem config_release (peer : RrPeer) : peer.release.config = peer.config := rfl
@[simp] theorem config_account (peer : RrPeer) (now : ℤ) (peerFailed : Bool) :
    (peer.account now peerFailed).config = peer.config := by
  unfold RrPeer.account; split_ifs <;> rfl

@[simp] theorem conns_charge (peer : RrPeer) : peer.charge.conns = peer.conns := rfl
@[simp] theorem conns_settle (peer : RrPeer) (now total : ℤ) :
    (peer.settle now total).conns = peer.conns := rfl
@[simp] theorem conns_hold (peer : RrPeer) : peer.hold.conns = peer.conns + 1 := rfl
@[simp] theorem conns_release (peer : RrPeer) : peer.release.conns = uintPred peer.conns := rfl
@[simp] theorem conns_account (peer : RrPeer) (now : ℤ) (peerFailed : Bool) :
    (peer.account now peerFailed).conns = peer.conns := by
  unfold RrPeer.account; split_ifs <;> rfl

/-- The bitmap has a word for every peer of the list. -/
def Fits (tried : Tried) (n : ℕ) : Prop := n ≤ 64*tried.length

theorem triedTest_eq {tried : Tried} {i n : ℕ} (hfit : Fits tried n) (hi : i < n) :
    triedTest tried i = .ok (WordBitset.bit tried i) := by
  have hword : i/64 < tried.length := by unfold Fits at hfit; omega
  simp [triedTest,WordBitset.test?_eq hword,orFault]

theorem triedSet_eq {tried : Tried} {i n : ℕ} (hfit : Fits tried n) (hi : i < n) :
    ∃ tried', triedSet tried i = .ok tried' ∧ tried'.length = tried.length ∧
      ∀ j, WordBitset.bit tried' j = (WordBitset.bit tried j || decide (j = i)) := by
  have hword : i/64 < tried.length := by unfold Fits at hfit; omega
  obtain ⟨tried',hs,hlength,hbit⟩ := WordBitset.set?_eq hword (by decide)
  exact ⟨tried',by simp [triedSet,hs,orFault],hlength,hbit⟩

theorem triedClear_eq {tried : Tried} {n : ℕ} (hfit : Fits tried n) :
    ∃ tried', triedClear tried n = .ok tried' ∧ tried'.length = tried.length ∧
      ∀ j, WordBitset.bit tried' j = (decide (triedWords n ≤ j/64) && WordBitset.bit tried j) := by
  have hwords : triedWords n ≤ tried.length := by unfold Fits at hfit; unfold triedWords; omega
  obtain ⟨tried',hc,hlength,hbit⟩ := WordBitset.clear?_eq hwords
  exact ⟨tried',by simp [triedClear,hc,orFault],hlength,hbit⟩

/-! ### The loop of round robin -/

/-- The peers after the loop: the eligible ones are charged. -/
def chargeAll (now : ℤ) (tried : Tried) : ℕ → List RrPeer → List RrPeer
  | _,[] => []
  | i,peer::rest =>
    (if eligible now tried i peer then peer.charge else peer)::chargeAll now tried (i+1) rest

/-- The total effective weight of the eligible peers. -/
def chargeTotal (now : ℤ) (tried : Tried) : ℕ → List RrPeer → ℤ
  | _,[] => 0
  | i,peer::rest =>
    (if eligible now tried i peer then peer.effectiveWeight else 0) + chargeTotal now tried (i+1) rest

/-- The first of the eligible peers with the greatest current weight after the charge. -/
def chargeBest (now : ℤ) (tried : Tried) : ℕ → List RrPeer → Option (ℕ × RrPeer) → Option (ℕ × RrPeer)
  | _,[],best => best
  | i,peer::rest,best =>
    chargeBest now tried (i+1) rest <|
      if eligible now tried i peer then
        match best with
        | none => some (i,peer.charge)
        | some (p,b) =>
          if b.currentWeight < peer.charge.currentWeight then some (i,peer.charge) else some (p,b)
      else best

/-- Inside the bitmap the loop computes these three. -/
theorem getPeerLoop_eq (now : ℤ) (tried : Tried) (i : ℕ) (peers : List RrPeer) (total : ℤ)
    (best : Option (ℕ × RrPeer)) (hfit : Fits tried (i + peers.length)) :
    getPeerLoop now tried i peers total best = .ok (chargeAll now tried i peers,
      total + chargeTotal now tried i peers,chargeBest now tried i peers best) := by
  induction peers generalizing i total best with
  | nil => simp [getPeerLoop,chargeAll,chargeTotal,chargeBest]
  | cons peer rest ih =>
    have hrest : Fits tried (i + 1 + rest.length) := by
      simpa [Nat.add_comm,Nat.add_left_comm,Nat.add_assoc] using hfit
    have htest := triedTest_eq hfit (show i < i + (peer::rest).length by simp)
    simp only [getPeerLoop,htest]
    cases he : eligible now tried i peer with
    | true =>
      cases best <;>
        simp only [bind,Except.bind,pure,Except.pure,bit_or_skip,ih _ _ _ hrest,chargeAll,chargeTotal,chargeBest,
          he,Bool.not_true,if_true,Bool.false_eq_true,if_false,add_assoc]
    | false =>
      simp only [bind,Except.bind,pure,Except.pure,bit_or_skip,ih _ _ _ hrest,chargeAll,chargeTotal,chargeBest,he,
        Bool.not_false,if_true,Bool.false_eq_true,if_false,zero_add]

theorem chargeBest_mem {now : ℤ} {tried : Tried} {i p : ℕ} {peers : List RrPeer} {b : RrPeer}
    {best : Option (ℕ × RrPeer)} (h : chargeBest now tried i peers best = some (p,b)) :
    best = some (p,b) ∨ ∃ j peer, p = i + j ∧ peers[j]? = some peer ∧
      eligible now tried p peer = true ∧ b = peer.charge := by
  induction peers generalizing i best with
  | nil => exact .inl h
  | cons peer rest ih =>
    rcases ih h with hb | ⟨j,other,hp,hj,he,hc⟩
    · by_cases he : eligible now tried i peer = true
      · have hhead : (p,b) = (i,peer.charge) → ∃ j other, p = i + j ∧ (peer::rest)[j]? = some other ∧
            eligible now tried p other = true ∧ b = other.charge := by
          rintro ⟨rfl,rfl⟩; exact ⟨0,peer,rfl,rfl,he,rfl⟩
        simp only [he,if_true] at hb
        split at hb
        · exact .inr (hhead (Option.some.inj hb).symm)
        · split at hb
          · exact .inr (hhead (Option.some.inj hb).symm)
          · exact .inl hb
      · simp only [he] at hb
        exact .inl hb
    · exact .inr ⟨j+1,other,by omega,by simpa using hj,he,hc⟩

theorem chargeBest_ge {now : ℤ} {tried : Tried} {i p : ℕ} {peers : List RrPeer} {b : RrPeer}
    {best : Option (ℕ × RrPeer)} (h : chargeBest now tried i peers best = some (p,b)) :
    (∀ q c, best = some (q,c) → c.currentWeight ≤ b.currentWeight) ∧
    ∀ j peer, peers[j]? = some peer → eligible now tried (i+j) peer = true →
      peer.charge.currentWeight ≤ b.currentWeight := by
  induction peers generalizing i best with
  | nil => exact ⟨fun q c hb => by simp [chargeBest,hb] at h; simp [h],by simp⟩
  | cons peer rest ih =>
    obtain ⟨hbest,hrest⟩ := ih h
    by_cases he : eligible now tried i peer = true
    · have hboth : peer.charge.currentWeight ≤ b.currentWeight ∧
          ∀ q c, best = some (q,c) → c.currentWeight ≤ b.currentWeight := by
        simp only [he,if_true] at hbest
        cases best with
        | none => exact ⟨hbest _ _ rfl,by simp⟩
        | some qc =>
          obtain ⟨q,c⟩ := qc
          simp only at hbest
          split at hbest
          · have hc := hbest _ _ rfl
            exact ⟨hc,by rintro _ _ ⟨⟩; omega⟩
          · have hc := hbest _ _ rfl
            exact ⟨by omega,by rintro _ _ ⟨⟩; exact hc⟩
      refine ⟨hboth.2,fun j other hj hel => ?_⟩
      cases j with
      | zero => simp only [List.getElem?_cons_zero,Option.some.injEq] at hj; exact hj ▸ hboth.1
      | succ j => exact hrest j other (by simpa using hj) (by rwa [Nat.add_assoc,Nat.add_comm 1 j])
    · simp only [he] at hbest
      refine ⟨hbest,fun j other hj hel => ?_⟩
      cases j with
      | zero => simp only [List.getElem?_cons_zero,Option.some.injEq] at hj; exact absurd (hj ▸ hel) he
      | succ j => exact hrest j other (by simpa using hj) (by rwa [Nat.add_assoc,Nat.add_comm 1 j])

theorem chargeBest_none {now : ℤ} {tried : Tried} {i : ℕ} {peers : List RrPeer}
    {best : Option (ℕ × RrPeer)} (h : chargeBest now tried i peers best = none) :
    best = none ∧ ∀ j peer, peers[j]? = some peer → eligible now tried (i+j) peer = false := by
  induction peers generalizing i best with
  | nil => exact ⟨h,by simp⟩
  | cons peer rest ih =>
    obtain ⟨hbest,hrest⟩ := ih h
    by_cases he : eligible now tried i peer = true
    · simp only [he,if_true] at hbest
      split at hbest
      · simp at hbest
      · split at hbest <;> simp at hbest
    · simp only [he] at hbest
      refine ⟨hbest,fun j other hj => ?_⟩
      cases j with
      | zero =>
        simp only [List.getElem?_cons_zero,Option.some.injEq] at hj
        exact hj ▸ Bool.eq_false_of_not_eq_true he
      | succ j =>
        have hr := hrest j other (by simpa using hj)
        rwa [Nat.add_assoc,Nat.add_comm 1 j] at hr

theorem chargeAll_map {α : Type} (f : RrPeer → α) (hf : ∀ peer : RrPeer, f peer.charge = f peer)
    (now : ℤ) (tried : Tried) (i : ℕ) (peers : List RrPeer) :
    (chargeAll now tried i peers).map f = peers.map f := by
  induction peers generalizing i with
  | nil => rfl
  | cons peer rest ih =>
    simp only [chargeAll,List.map_cons,ih]
    split <;> simp [hf]

end InsideNginx.HttpUpstream
