import Mathlib

/-! Times as words that wrap. In a window of less than half of the range, the signed difference of two
words is the difference of the times that they stand for. -/
namespace WrappedClock
variable {w : ℕ} {b x y : BitVec w}

/-- The time from `b` to `x`. -/
def since (b x : BitVec w) : ℕ := (x - b).toNat

/-- The time is in the half of the range that begins at `b`. -/
def Within (b x : BitVec w) : Prop := since b x < 2^(w - 1)

instance : Decidable (Within b x) := inferInstanceAs (Decidable (_ < _))

theorem toInt_sub_eq (hx : Within b x) (hy : Within b y) : (x - y).toInt = (since b x : ℤ) - since b y := by
  unfold Within since at *
  have hdouble : 2*2^(w - 1) ≤ 2^w ∨ w = 0 := by
    rcases Nat.eq_zero_or_pos w with hw | hw
    · exact .inr hw
    · exact .inl (by rw [← pow_succ',Nat.sub_add_cancel hw])
  rcases hdouble with hdouble | rfl
  · rw [← sub_sub_sub_cancel_right x y b,BitVec.toInt_sub,BitVec.toInt_eq_toNat_of_lt (by omega),
      BitVec.toInt_eq_toNat_of_lt (by omega)]
    refine Int.bmod_eq_of_le ?_ ?_
    · omega
    · omega
  · rw [Subsingleton.elim x y,Subsingleton.elim y b]
    simp

theorem toInt_sub_neg_iff (hx : Within b x) (hy : Within b y) : (x - y).toInt < 0 ↔ since b x < since b y := by
  rw [toInt_sub_eq hx hy]
  omega

theorem toInt_sub_nonneg_iff (hx : Within b x) (hy : Within b y) : 0 ≤ (x - y).toInt ↔ since b y ≤ since b x := by
  rw [toInt_sub_eq hx hy]
  omega

/-- Of several times one is the earliest. -/
theorem exists_earliest {s : Multiset (BitVec w)} (hs : s ≠ 0) (hwithin : ∀ x ∈ s, Within b x) :
    ∃ x ∈ s, ∀ y ∈ s, 0 ≤ (y - x).toInt := by
  obtain ⟨x,hx,hleast⟩ := s.toFinset.exists_min_image (since b) (by simpa [Finset.nonempty_iff_ne_empty] using hs)
  refine ⟨x,Multiset.mem_toFinset.mp hx,fun y hy => ?_⟩
  rw [toInt_sub_nonneg_iff (hwithin y hy) (hwithin x (Multiset.mem_toFinset.mp hx))]
  exact hleast y (Multiset.mem_toFinset.mpr hy)

end WrappedClock
