import Mathlib

/-! Sets of small numbers stored in the bits of machine words. Every access names its word
first, so an access outside the stored words is visible as `none`. -/
namespace WordBitset
variable {w : ℕ}

/-- Membership, with the words that are not stored read as zero. -/
def bit (s : List (BitVec w)) (i : ℕ) : Bool := (s.getD (i/w) 0).getLsbD (i%w)

/-- Test bit `i % w` of word `i / w` with a mask. -/
def test? (s : List (BitVec w)) (i : ℕ) : Option Bool :=
  s[i/w]?.map fun word => word &&& (1#w <<< (i%w)) != 0#w

/-- Set bit `i % w` of word `i / w` with a mask. -/
def set? (s : List (BitVec w)) (i : ℕ) : Option (List (BitVec w)) :=
  s[i/w]?.map fun word => s.set (i/w) (word ||| (1#w <<< (i%w)))

/-- Store zero in the first `n` words. -/
def clear? (s : List (BitVec w)) (n : ℕ) : Option (List (BitVec w)) :=
  if n ≤ s.length then some (List.replicate n 0 ++ s.drop n) else none

lemma getLsbD_mask (k j : ℕ) : (1#w <<< k).getLsbD j = (decide (j < w) && decide (j = k)) := by
  rw [BitVec.getLsbD_shiftLeft,BitVec.getLsbD_one]
  by_cases hj : j < w <;> by_cases hk : j = k <;> simp [hj,hk] <;> omega

lemma and_mask_ne_zero (word : BitVec w) {k : ℕ} (hk : k < w) :
    (word &&& (1#w <<< k) != 0#w) = word.getLsbD k := by
  rw [Bool.eq_iff_iff,bne_iff_ne]
  constructor
  · intro h
    by_contra hn
    apply h
    apply BitVec.eq_of_getLsbD_eq
    intro j hj
    rw [BitVec.getLsbD_and,getLsbD_mask]
    by_cases he : j = k
    · subst j; simp [Bool.eq_false_of_not_eq_true hn]
    · simp [he]
  · intro h hz
    have hb := congrArg (fun v : BitVec w => v.getLsbD k) hz
    simp only [BitVec.getLsbD_and,getLsbD_mask,h,hk,BitVec.getLsbD_zero] at hb
    simp at hb

/-- Inside the stored words the masked test is membership. -/
theorem test?_eq {s : List (BitVec w)} {i : ℕ} (hi : i/w < s.length) (hw : 0 < w) :
    test? s i = some (bit s i) := by
  simp [test?,bit,List.getElem?_eq_getElem hi,and_mask_ne_zero _ (Nat.mod_lt i hw)]

lemma div_mod_ext {i j : ℕ} (hd : i/w = j/w) (hm : i%w = j%w) : i = j := by
  rw [← Nat.div_add_mod i w,← Nat.div_add_mod j w,hd,hm]

theorem set?_eq {s : List (BitVec w)} {i : ℕ} (hi : i/w < s.length) (hw : 0 < w) :
    ∃ s', set? s i = some s' ∧ s'.length = s.length ∧
      ∀ j, bit s' j = (bit s j || decide (j = i)) := by
  refine ⟨s.set (i/w) (s[i/w] ||| (1#w <<< (i%w))),by simp [set?,hi],by simp,?_⟩
  intro j
  have hj := Nat.mod_lt j hw
  by_cases hd : i/w = j/w
  · have hj' : j/w < s.length := hd ▸ hi
    have he : decide (j%w = i%w) = decide (j = i) := by
      rw [decide_eq_decide]
      exact ⟨fun hm => div_mod_ext hd.symm hm,fun h => by rw [h]⟩
    have hg : (s.set (j/w) (s[j/w] ||| (1#w <<< (i%w)))).getD (j/w) 0 =
        s[j/w] ||| (1#w <<< (i%w)) := by simp [hj']
    have hs : s.getD (j/w) 0 = s[j/w] := by simp [hj']
    simp only [bit,hd,hg,hs,BitVec.getLsbD_or,getLsbD_mask,hj,he,decide_true,Bool.true_and]
  · have hne : j ≠ i := fun h => hd (by rw [h])
    simp [bit,hd,hne]

theorem clear?_eq {s : List (BitVec w)} {n : ℕ} (hn : n ≤ s.length) :
    ∃ s', clear? s n = some s' ∧ s'.length = s.length ∧
      ∀ j, bit s' j = (decide (n ≤ j/w) && bit s j) := by
  refine ⟨_,if_pos hn,by simp; omega,?_⟩
  intro j
  by_cases hj : n ≤ j/w
  · simp [bit,hj,List.getElem?_append_right,Nat.add_sub_cancel' hj]
  · have hj' : j/w < n := by omega
    simp [bit,hj,List.getElem?_append_left,hj']

@[simp] theorem bit_replicate_zero (n i : ℕ) : bit (List.replicate n (0 : BitVec w)) i = false := by
  by_cases h : i/w < n <;> simp [bit,h]

end WordBitset
