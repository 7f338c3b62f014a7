import Mathlib

/-! Fair sharing by credits. In every round each member receives its weight, and a member
with the greatest credit is chosen and pays the total weight. The credits sum to zero and
none falls to minus the total, so the choices stay proportional to the weights. -/
namespace SmoothCredits
variable {ι : Type*} [DecidableEq ι]

/-- The weight that is paid in a round. -/
def total (s : Finset ι) (w : ι → ℤ) : ℤ := ∑ i ∈ s, w i

/-- The credit of a member after a sequence of choices: what it received less what it paid. -/
def credit (s : Finset ι) (w : ι → ℤ) (chosen : List ι) (i : ι) : ℤ :=
  chosen.length*w i - chosen.count i*total s w

/-- Sequences of choices in which every choice had the greatest credit after the payment. -/
inductive FairRun (s : Finset ι) (w : ι → ℤ) : List ι → Prop
  | nil : FairRun s w []
  | next {chosen p} (before : FairRun s w chosen) (hp : p ∈ s)
      (best : ∀ i ∈ s, credit s w chosen i + w i ≤ credit s w chosen p + w p) :
      FairRun s w (chosen ++ [p])

variable {s : Finset ι} {w : ι → ℤ} {chosen : List ι}

@[simp] theorem credit_nil (i : ι) : credit s w [] i = 0 := by simp [credit]

/-- One round on the credit of one member. -/
theorem credit_append (p i : ι) :
    credit s w (chosen ++ [p]) i = credit s w chosen i + w i - if i = p then total s w else 0 := by
  by_cases h : i = p
  · subst h; simp [credit]; ring
  · simp [credit,h,Ne.symm h]; ring

theorem FairRun.sum_credit (h : FairRun s w chosen) : ∑ i ∈ s, credit s w chosen i = 0 := by
  induction h with
  | nil => simp
  | @next chosen p before hp best ih =>
    simp only [credit_append,Finset.sum_sub_distrib,Finset.sum_add_distrib,ih]
    simp [hp,total]

/-- The greatest credit is positive after the payment, because the sum is. -/
theorem FairRun.best_pos (h : FairRun s w chosen) (hw : 0 < total s w) {p : ι}
    (best : ∀ i ∈ s, credit s w chosen i + w i ≤ credit s w chosen p + w p) :
    0 < credit s w chosen p + w p := by
  by_contra hn
  have hle : ∑ i ∈ s, (credit s w chosen i + w i) ≤ 0 :=
    Finset.sum_nonpos fun i hi => (best i hi).trans (not_lt.mp hn)
  rw [Finset.sum_add_distrib,h.sum_credit,zero_add] at hle
  exact absurd hw (not_lt.mpr hle)

/-- No credit falls to minus the total weight. -/
theorem FairRun.credit_gt (h : FairRun s w chosen) (hw : 0 < total s w) (hpos : ∀ i ∈ s, 0 ≤ w i)
    {i : ι} (hi : i ∈ s) : -total s w < credit s w chosen i := by
  induction h with
  | nil => simpa using hw
  | @next chosen p before hp best ih =>
    rw [credit_append]
    split
    · rename_i he
      subst he
      have := before.best_pos hw best
      omega
    · have := hpos i hi
      omega

/-- No member is ahead of its share by a whole total weight. -/
theorem FairRun.count_mul_lt (h : FairRun s w chosen) (hw : 0 < total s w) (hpos : ∀ i ∈ s, 0 ≤ w i)
    {i : ι} (hi : i ∈ s) : chosen.count i*total s w < chosen.length*w i + total s w := by
  have hc := h.credit_gt hw hpos hi
  unfold credit at hc
  omega

/-- After a whole number of periods every credit is zero. -/
theorem FairRun.credit_eq_zero (h : FairRun s w chosen) (hw : 0 < total s w) (hpos : ∀ i ∈ s, 0 ≤ w i)
    (hk : total s w ∣ chosen.length) {i : ι} (hi : i ∈ s) : credit s w chosen i = 0 := by
  have hnonneg : ∀ j ∈ s, 0 ≤ credit s w chosen j := by
    intro j hj
    have hd : total s w ∣ credit s w chosen j :=
      dvd_sub (hk.mul_right _) (dvd_mul_left _ _)
    obtain ⟨c,hc⟩ := hd
    have hgt := h.credit_gt hw hpos hj
    rw [hc] at hgt ⊢
    have : -1 < c := by nlinarith
    exact mul_nonneg hw.le (by omega)
  exact (Finset.sum_eq_zero_iff_of_nonneg hnonneg).mp h.sum_credit i hi

/-- After a whole number of periods every member has had exactly its share. -/
theorem FairRun.count_eq (h : FairRun s w chosen) (hw : 0 < total s w) (hpos : ∀ i ∈ s, 0 ≤ w i)
    (hk : total s w ∣ chosen.length) {i : ι} (hi : i ∈ s) :
    (chosen.count i : ℤ) = chosen.length/total s w*w i := by
  have hc := h.credit_eq_zero hw hpos hk hi
  obtain ⟨m,hm⟩ := hk
  unfold credit at hc
  rw [hm] at hc ⊢
  rw [Int.mul_ediv_cancel_left _ hw.ne']
  have : total s w*(m*w i - chosen.count i) = 0 := by linarith [hc]
  have := (mul_eq_zero.mp this).resolve_left hw.ne'
  linarith

end SmoothCredits
