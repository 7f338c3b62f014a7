import Mathlib

/-! The first candidate with the least value, when candidates are looked at from left to right, and
whether another one ties with it. -/
namespace FirstLeast
variable {α β : Type*} [LinearOrder β] {P Q : ℕ → α → Prop} {f : α → β} {p n : ℕ} {a b : α}

/-- The candidate `a` at position `p` is the first with the least value. -/
structure IsFirstLeast (P : ℕ → α → Prop) (f : α → β) (p : ℕ) (a : α) : Prop where
  mem : P p a
  least : ∀ q c, P q c → f a ≤ f c
  first : ∀ q c, P q c → q < p → f a < f c

/-- A candidate at another position has the value of `a`. -/
def Tied (P : ℕ → α → Prop) (f : α → β) (p : ℕ) (a : α) : Prop := ∃ q c, q ≠ p ∧ P q c ∧ f c = f a

/-- `Q` has one candidate more than `P`, after all others. -/
structure Extends (P Q : ℕ → α → Prop) (n : ℕ) (b : α) : Prop where
  iff : ∀ q c, Q q c ↔ P q c ∨ q = n ∧ c = b
  later : ∀ q c, P q c → q < n

/-- The first candidate. -/
theorem Extends.single (h : Extends P Q n b) (hnone : ∀ q c, ¬ P q c) :
    IsFirstLeast Q f n b ∧ ¬ Tied Q f n b := by
  have honly : ∀ q c, Q q c → q = n ∧ c = b := fun q c hq =>
    ((h.iff q c).mp hq).resolve_left (hnone q c)
  refine ⟨⟨(h.iff n b).mpr (.inr ⟨rfl,rfl⟩),fun q c hq => ?_,fun q c hq hlt => ?_⟩,?_⟩
  · rw [(honly q c hq).2]
  · exact absurd (honly q c hq).1 (by omega)
  · rintro ⟨q,c,hne,hq,-⟩
    exact hne (honly q c hq).1

/-- A candidate below all others takes over. -/
theorem Extends.below (h : Extends P Q n b) (ha : IsFirstLeast P f p a) (hlt : f b < f a) :
    IsFirstLeast Q f n b ∧ ¬ Tied Q f n b := by
  have hold : ∀ q c, P q c → f b < f c := fun q c hq => hlt.trans_le (ha.least q c hq)
  refine ⟨⟨(h.iff n b).mpr (.inr ⟨rfl,rfl⟩),fun q c hq => ?_,fun q c hq hqn => ?_⟩,?_⟩
  · rcases (h.iff q c).mp hq with hq | ⟨-,rfl⟩
    · exact (hold q c hq).le
    · exact le_rfl
  · rcases (h.iff q c).mp hq with hq | ⟨rfl,-⟩
    · exact hold q c hq
    · exact absurd hqn (Nat.lt_irrefl _)
  · rintro ⟨q,c,hne,hq,heq⟩
    rcases (h.iff q c).mp hq with hq | ⟨rfl,-⟩
    · exact (hold q c hq).ne' heq
    · exact hne rfl

/-- A later candidate that is not below the first least one leaves it where it is. -/
theorem Extends.keep (h : Extends P Q n b) (ha : IsFirstLeast P f p a) (hle : f a ≤ f b) :
    IsFirstLeast Q f p a where
  mem := (h.iff p a).mpr (.inl ha.mem)
  least q c hq := by
    rcases (h.iff q c).mp hq with hq | ⟨-,rfl⟩
    · exact ha.least q c hq
    · exact hle
  first q c hq hqp := by
    rcases (h.iff q c).mp hq with hq | ⟨rfl,-⟩
    · exact ha.first q c hq hqp
    · have := h.later p a ha.mem
      omega

/-- A later candidate with the same value ties. -/
theorem Extends.tied (h : Extends P Q n b) (ha : IsFirstLeast P f p a) (heq : f b = f a) : Tied Q f p a := by
  have hlt := h.later p a ha.mem
  exact ⟨n,b,by omega,(h.iff n b).mpr (.inr ⟨rfl,rfl⟩),heq⟩

/-- A later candidate with a greater value makes no tie. -/
theorem Extends.tied_iff (h : Extends P Q n b) (hlt : f a < f b) : Tied Q f p a ↔ Tied P f p a := by
  constructor
  · rintro ⟨q,c,hne,hq,heq⟩
    rcases (h.iff q c).mp hq with hq | ⟨-,rfl⟩
    · exact ⟨q,c,hne,hq,heq⟩
    · exact absurd heq hlt.ne'
  · rintro ⟨q,c,hne,hq,heq⟩
    exact ⟨q,c,hne,(h.iff q c).mpr (.inl hq),heq⟩

end FirstLeast
