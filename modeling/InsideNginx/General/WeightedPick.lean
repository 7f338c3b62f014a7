import Mathlib

/-! A value below the total of a list of weights belongs to the entry in whose interval it falls. The
walk that subtracts the weights one after the other finds that entry. -/
namespace WeightedPick
variable {α : Type*} [AddCommGroup α] [LinearOrder α] {weights : List α} {w : α} {p q : ℕ}

/-- The value `w` falls into the interval of entry `p`. -/
structure Owns (weights : List α) (w : α) (p : ℕ) : Prop where
  lt_length : p < weights.length
  le : (weights.take p).sum ≤ w
  lt : w < (weights.take (p+1)).sum

instance (weights : List α) (w : α) (p : ℕ) : Decidable (Owns weights w p) :=
  decidable_of_iff (p < weights.length ∧ (weights.take p).sum ≤ w ∧ w < (weights.take (p+1)).sum)
    ⟨fun h => ⟨h.1,h.2.1,h.2.2⟩,fun h => ⟨h.lt_length,h.le,h.lt⟩⟩

/-- Subtract the weights one after the other, as long as they fit. -/
def pick : α → List α → Option ℕ
  | _,[] => none
  | w,x::xs => if x ≤ w then (pick (w - x) xs).map (· + 1) else some 0

variable [IsOrderedAddMonoid α]

/-- The walk ends at the owner. -/
theorem pick_owns (hw : 0 ≤ w) (h : pick w weights = some p) : Owns weights w p := by
  induction weights generalizing w p with
  | nil => cases h
  | cons x xs ih =>
    rw [pick] at h
    by_cases hx : x ≤ w
    · rw [if_pos hx] at h
      obtain ⟨p,hp,rfl⟩ := Option.map_eq_some_iff.mp h
      obtain ⟨hlength,hle,hlt⟩ := ih (sub_nonneg.mpr hx) hp
      refine ⟨by simpa using hlength,?_,?_⟩
      · rw [List.take_succ_cons,List.sum_cons]
        exact le_sub_iff_add_le'.mp hle
      · rw [List.take_succ_cons,List.sum_cons]
        exact sub_lt_iff_lt_add'.mp hlt
    · rw [if_neg hx] at h
      obtain rfl := Option.some.inj h
      exact ⟨by simp,by simpa using hw,by simpa using hx⟩

/-- Below the total, the walk does not leave the list. -/
theorem exists_pick (hw : 0 ≤ w) (hlt : w < weights.sum) : ∃ p, pick w weights = some p := by
  induction weights generalizing w with
  | nil => exact absurd hlt (by simpa using hw)
  | cons x xs ih =>
    rw [pick]
    by_cases hx : x ≤ w
    · rw [List.sum_cons,← sub_lt_iff_lt_add'] at hlt
      obtain ⟨p,hp⟩ := ih (sub_nonneg.mpr hx) hlt
      exact ⟨p+1,by rw [if_pos hx,hp]; rfl⟩
    · exact ⟨0,if_neg hx⟩

theorem sum_take_mono (hpos : ∀ x ∈ weights, 0 ≤ x) (h : p ≤ q) :
    (weights.take p).sum ≤ (weights.take q).sum := by
  obtain ⟨rest,hrest⟩ : weights.take p <+: weights.take q := List.take_prefix_take_left h
  rw [← hrest,List.sum_append]
  refine le_add_of_nonneg_right (List.sum_nonneg fun x hx => hpos x ?_)
  exact List.mem_of_mem_take (hrest ▸ List.mem_append_right _ hx)

/-- Intervals of different entries are apart. -/
theorem Owns.unique (hpos : ∀ x ∈ weights, 0 ≤ x) (hp : Owns weights w p) (hq : Owns weights w q) : p = q := by
  rcases lt_trichotomy p q with h | h | h
  · exact absurd (hp.lt.trans_le ((sum_take_mono hpos h).trans hq.le)) (lt_irrefl _)
  · exact h
  · exact absurd (hq.lt.trans_le ((sum_take_mono hpos h).trans hp.le)) (lt_irrefl _)

theorem pick_eq_some_iff (hpos : ∀ x ∈ weights, 0 ≤ x) (hw : 0 ≤ w) : pick w weights = some p ↔ Owns weights w p := by
  refine ⟨pick_owns hw,fun h => ?_⟩
  have hlt : w < weights.sum := by
    have hmono := sum_take_mono hpos (Nat.succ_le_of_lt h.lt_length)
    rw [List.take_length] at hmono
    exact h.lt.trans_le hmono
  obtain ⟨q,hq⟩ := exists_pick hw hlt
  rw [hq,(pick_owns hw hq).unique hpos h]

/-! ### The numbers below a bound -/

section Counting
variable {weights : List ℤ} {x : ℤ}

theorem filter_owns (hpos : ∀ x ∈ weights, 0 ≤ x) (hp : p < weights.length) (bound : ℕ) :
    ((Finset.range bound).filter fun r : ℕ => Owns weights (r : ℤ) p) =
      Finset.Ico (weights.take p).sum.toNat (min bound (weights.take (p+1)).sum.toNat) := by
  have hlow : 0 ≤ (weights.take p).sum := List.sum_nonneg fun y hy => hpos y (List.mem_of_mem_take hy)
  ext r
  rw [Finset.mem_filter,Finset.mem_range,Finset.mem_Ico]
  constructor
  · rintro ⟨hr,h⟩
    have := h.le
    have := h.lt
    omega
  · intro h
    exact ⟨by omega,hp,by omega,by omega⟩

theorem sum_take_add_one (hx : weights[p]? = some x) : (weights.take (p+1)).sum = (weights.take p).sum + x := by
  rw [List.take_add_one,hx]
  simp

/-- Below a bound that reaches the total, every entry owns as many numbers as its weight says. -/
theorem card_owned (hpos : ∀ x ∈ weights, 0 ≤ x) {bound : ℕ} (hbound : weights.sum ≤ bound) (hx : weights[p]? = some x) :
    (((Finset.range bound).filter fun r : ℕ => Owns weights (r : ℤ) p).card : ℤ) = x := by
  have hp := (List.getElem?_eq_some_iff.mp hx).1
  have hstep := sum_take_add_one hx
  have hnonneg := hpos x (List.mem_of_getElem? hx)
  have hlow : 0 ≤ (weights.take p).sum := List.sum_nonneg fun y hy => hpos y (List.mem_of_mem_take hy)
  have hmono := sum_take_mono hpos (show p + 1 ≤ weights.length by omega)
  rw [List.take_length] at hmono
  rw [filter_owns hpos hp,Nat.card_Ico]
  omega

/-- When every entry owns as many numbers below a bound as its weight says, the bound reaches the total. -/
theorem sum_le_of_card_owned (hpos : ∀ x ∈ weights, 0 < x) {bound : ℕ}
    (h : ∀ p x, weights[p]? = some x →
      (((Finset.range bound).filter fun r : ℕ => Owns weights (r : ℤ) p).card : ℤ) = x) : weights.sum ≤ bound := by
  rcases eq_or_ne weights [] with rfl | hne
  · simp
  -- the last entry owns the numbers up to the total
  have hlength := List.length_pos_iff.mpr hne
  have hlast : weights.length - 1 < weights.length := by omega
  have hx := List.getElem?_eq_getElem hlast
  have hstep := sum_take_add_one hx
  rw [Nat.sub_add_cancel hlength,List.take_length] at hstep
  have hcard := h _ _ hx
  rw [filter_owns (fun y hy => (hpos y hy).le) hlast,Nat.card_Ico,Nat.sub_add_cancel hlength,List.take_length] at hcard
  have := hpos _ (List.getElem_mem hlast)
  omega

end Counting

end WeightedPick
