import Mathlib.Data.List.Basic

/-! Calls that walk along one sequence of probes. A call takes the first probe that it accepts among
those that no call has consumed. Once a given number of probes has been rejected the calls take
none. -/
namespace ProbeWalk
variable {π γ δ : Type*} {probe : ℕ → π} {limit : ℕ}

/-- How many probes the calls have consumed, and how many of these they have rejected. -/
structure Position where
  consumed : ℕ
  rejected : ℕ
  deriving DecidableEq, Repr

/-- One call of the walk with what it takes. -/
inductive Step (probe : ℕ → π) (limit : ℕ) (accepts : π → Prop) : Position → Option π → Position → Prop
  | taken {c r : ℕ} (m : ℕ) (below : r + m < limit) (rejected : ∀ k < m, ¬ accepts (probe (c+k)))
      (accepted : accepts (probe (c+m))) :
      Step probe limit accepts ⟨c,r⟩ (some (probe (c+m))) ⟨c+m+1,r+m⟩
  | exhausted {c r : ℕ} (m : ℕ) (reached : r + m = limit) (rejected : ∀ k < m, ¬ accepts (probe (c+k))) :
      Step probe limit accepts ⟨c,r⟩ none ⟨c+m,limit⟩

/-- A list of calls with what they take. -/
inductive Walk (probe : ℕ → π) (limit : ℕ) (accepts : γ → π → Prop) :
    Position → List γ → List (Option π) → Position → Prop
  | nil (pos : Position) : Walk probe limit accepts pos [] [] pos
  | cons {pos next last : Position} {call : γ} {calls : List γ} {taken : Option π} {rest : List (Option π)}
      (head : Step probe limit (accepts call) pos taken next) (tail : Walk probe limit accepts next calls rest last) :
      Walk probe limit accepts pos (call::calls) (taken::rest) last

/-- The calls of the second list judge every probe that the first list consumes like the calls of
the first list do. -/
inductive Alike (probe : ℕ → π) (limit : ℕ) (accepts : γ → π → Prop) (accepts' : δ → π → Prop) :
    Position → List γ → List δ → Prop
  | nil (pos : Position) : Alike probe limit accepts accepts' pos [] []
  | cons {pos next : Position} {call : γ} {call' : δ} {calls : List γ} {calls' : List δ} {taken : Option π}
      (head : Step probe limit (accepts call) pos taken next)
      (same : ∀ k, pos.consumed ≤ k → k < next.consumed → (accepts call (probe k) ↔ accepts' call' (probe k)))
      (tail : Alike probe limit accepts accepts' next calls calls') :
      Alike probe limit accepts accepts' pos (call::calls) (call'::calls')

section Step
variable {accepts accepts' : π → Prop} {pos next next' : Position} {c r : ℕ} {taken taken' : Option π}

/-- The next probe is accepted. -/
theorem Step.accept (hbelow : r < limit) (h : accepts (probe c)) :
    Step probe limit accepts ⟨c,r⟩ (some (probe c)) ⟨c+1,r⟩ :=
  .taken 0 hbelow (fun _ hk => absurd hk (Nat.not_lt_zero _)) h

/-- The limit is reached. -/
theorem Step.stop : Step probe limit accepts ⟨c,limit⟩ none ⟨c,limit⟩ :=
  .exhausted 0 rfl fun _ hk => absurd hk (Nat.not_lt_zero _)

/-- The next probe is rejected. -/
theorem Step.reject (h : ¬ accepts (probe c)) (hrest : Step probe limit accepts ⟨c+1,r+1⟩ taken next) :
    Step probe limit accepts ⟨c,r⟩ taken next := by
  have hall : ∀ {m}, (∀ k < m, ¬ accepts (probe (c+1+k))) → ∀ k < m+1, ¬ accepts (probe (c+k)) := by
    intro m hm k hk
    cases k with
    | zero => exact h
    | succ k =>
      have := hm k (Nat.lt_of_succ_lt_succ hk)
      rwa [Nat.add_assoc,Nat.add_comm 1] at this
  have hshift : ∀ a m : ℕ, a + 1 + m = a + (m+1) := fun a m => by omega
  cases hrest with
  | taken m below rejected accepted =>
    rw [hshift c] at accepted ⊢
    rw [hshift r] at below ⊢
    exact .taken (m+1) below (hall rejected) accepted
  | exhausted m reached rejected =>
    rw [hshift r] at reached
    rw [hshift c]
    exact .exhausted (m+1) reached (hall rejected)

/-- Two calls from one position that judge the consumed probes alike take the same. -/
theorem Step.agree (h : Step probe limit accepts pos taken next) (h' : Step probe limit accepts' pos taken' next')
    (hsame : ∀ k, pos.consumed ≤ k → k < next.consumed → (accepts (probe k) ↔ accepts' (probe k))) :
    taken = taken' ∧ next = next' := by
  cases h with
  | @taken c r m below rejected accepted =>
    have hsame' : ∀ k ≤ m, (accepts (probe (c+k)) ↔ accepts' (probe (c+k))) := fun k hk =>
      hsame (c+k) (Nat.le_add_right c k) (by simp only; omega)
    cases h' with
    | taken m' below' rejected' accepted' =>
      rcases Nat.lt_trichotomy m m' with hlt | rfl | hlt
      · exact absurd ((hsame' m (Nat.le_refl m)).mp accepted) (rejected' m hlt)
      · exact ⟨rfl,rfl⟩
      · exact absurd ((hsame' m' (Nat.le_of_lt hlt)).mpr accepted') (rejected m' hlt)
    | exhausted m' reached' rejected' =>
      exact absurd ((hsame' m (Nat.le_refl m)).mp accepted) (rejected' m (by omega))
  | @exhausted c r m reached rejected =>
    cases h' with
    | taken m' below' rejected' accepted' =>
      have hlt : m' < m := by omega
      have hsame' := hsame (c+m') (Nat.le_add_right c m') (by simp only; omega)
      exact absurd (hsame'.mpr accepted') (rejected m' hlt)
    | exhausted m' reached' rejected' =>
      obtain rfl : m = m' := by omega
      exact ⟨rfl,rfl⟩

end Step

variable {accepts : γ → π → Prop} {accepts' : δ → π → Prop} {pos last last' : Position}
  {calls : List γ} {calls' : List δ} {taken taken' : List (Option π)}

/-- Two walks whose calls judge alike take the same. -/
theorem Walk.agree (h : Walk probe limit accepts pos calls taken last)
    (h' : Walk probe limit accepts' pos calls' taken' last')
    (halike : Alike probe limit accepts accepts' pos calls calls') : taken = taken' ∧ last = last' := by
  induction halike generalizing taken taken' with
  | nil pos =>
    cases h
    cases h'
    exact ⟨rfl,rfl⟩
  | cons head same _ ih =>
    cases h with
    | cons first rest =>
      cases h' with
      | cons first' rest' =>
        obtain ⟨rfl,rfl⟩ := head.agree first fun _ _ _ => Iff.rfl
        obtain ⟨rfl,rfl⟩ := head.agree first' same
        obtain ⟨rfl,rfl⟩ := ih rest rest'
        exact ⟨rfl,rfl⟩

end ProbeWalk
