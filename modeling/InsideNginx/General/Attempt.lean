import Mathlib.Order.Basic

/-! Computations on a state that may fail, and then fail in a state too: pre- and postconditions,
one of these for the end and one for a failure. -/

abbrev Attempt (σ : Type*) := σ → Except σ σ

namespace Attempt
variable {σ : Type*} {P Q R E : σ → Prop} {f g : Attempt σ}

def andThen (f g : Attempt σ) : Attempt σ := fun s =>
  match f s with
  | .ok s => g s
  | .error s => .error s

/-- `n` rounds from the index `i` on, until one fails. -/
def loop (f : ℕ → Attempt σ) : ℕ → ℕ → Attempt σ
  | _,0 => .ok
  | i,n+1 => (f i).andThen (loop f (i+1) n)

/-- A computation that cannot fail. -/
def always (f : σ → σ) : Attempt σ := fun s => .ok (f s)

/-- From `P` the computation ends in `Q` or fails in `E`. -/
def Triple (P : σ → Prop) (f : Attempt σ) (Q E : σ → Prop) : Prop :=
  ∀ s, P s → (∀ s', f s = .ok s' → Q s') ∧ ∀ s', f s = .error s' → E s'

theorem Triple.andThen (hf : Triple P f Q E) (hg : Triple Q g R E) : Triple P (f.andThen g) R E := by
  intro s hs
  obtain ⟨hok,herror⟩ := hf s hs
  unfold Attempt.andThen
  cases h : f s with
  | ok t => exact hg t (hok t h)
  | error t => exact ⟨by simp,fun s' hs' => by cases hs'; exact herror t h⟩

/-- The rule for a loop: every round keeps the invariant of its index. -/
theorem Triple.loop {f : ℕ → Attempt σ} {I : ℕ → σ → Prop} {i n : ℕ}
    (h : ∀ k, i ≤ k → k < i + n → Triple (I k) (f k) (I (k+1)) E) : Triple (I i) (Attempt.loop f i n) (I (i+n)) E := by
  induction n generalizing i with
  | zero => exact fun s hs => ⟨fun s' hs' => by cases hs'; exact hs,fun s' hs' => by cases hs'⟩
  | succ n ih =>
    have hrest := ih (i := i+1) fun k hlo hhi => h k (by omega) (by omega)
    rw [Nat.add_right_comm] at hrest
    exact (h i (Nat.le_refl i) (by omega)).andThen hrest

theorem Triple.always {f : σ → σ} (h : ∀ s, P s → Q (f s)) : Triple P (Attempt.always f) Q E :=
  fun s hs => ⟨fun s' hs' => by cases hs'; exact h s hs,fun s' hs' => by cases hs'⟩

theorem Triple.weaken {P' Q' E' : σ → Prop} (h : Triple P f Q E) (hP : ∀ s, P' s → P s) (hQ : ∀ s, Q s → Q' s)
    (hE : ∀ s, E s → E' s) : Triple P' f Q' E' := fun s hs =>
  ⟨fun s' hs' => hQ s' ((h s (hP s hs)).1 s' hs'),fun s' hs' => hE s' ((h s (hP s hs)).2 s' hs')⟩

theorem Triple.onSuccess (h : Triple P f Q E) : Triple P f Q (fun _ => True) :=
  h.weaken (fun _ h => h) (fun _ h => h) fun _ _ => trivial

theorem Triple.and {P' Q' E' : σ → Prop} (h : Triple P f Q E) (h' : Triple P' f Q' E') :
    Triple (fun s => P s ∧ P' s) f (fun s => Q s ∧ Q' s) (fun s => E s ∧ E' s) := fun s hs =>
  ⟨fun s' hs' => ⟨(h s hs.1).1 s' hs',(h' s hs.2).1 s' hs'⟩,fun s' hs' => ⟨(h s hs.1).2 s' hs',(h' s hs.2).2 s' hs'⟩⟩

/-! ### What a computation leaves alone -/

variable {β : Type*} {v : σ → β}

/-- The state in the end, or at the failure. -/
def ends : Except σ σ → σ
  | .ok s => s
  | .error s => s

/-- The computation leaves a part of the state alone, also when it fails. -/
def Keeps (f : Attempt σ) (v : σ → β) : Prop := ∀ s, v (ends (f s)) = v s

theorem Keeps.triple (h : Keeps f v) (b : β) : Triple (v · = b) f (v · = b) (v · = b) := fun s hs =>
  ⟨fun s' hs' => by rw [← hs,← h s,hs']; rfl,fun s' hs' => by rw [← hs,← h s,hs']; rfl⟩

theorem Keeps.of_triple (h : ∀ b, Triple (v · = b) f (v · = b) (v · = b)) : Keeps f v := by
  intro s
  obtain ⟨hok,herror⟩ := h (v s) s rfl
  cases hs : f s with
  | ok s' => exact hok s' hs
  | error s' => exact herror s' hs

theorem Keeps.andThen (hf : Keeps f v) (hg : Keeps g v) : Keeps (f.andThen g) v :=
  .of_triple fun b => (hf.triple b).andThen (hg.triple b)

theorem Keeps.loop {f : ℕ → Attempt σ} (h : ∀ k, Keeps (f k) v) (i n : ℕ) : Keeps (Attempt.loop f i n) v :=
  .of_triple fun b => Triple.loop (I := fun _ => (v · = b)) fun k _ _ => (h k).triple b

theorem Keeps.always {f : σ → σ} (h : ∀ s, v (f s) = v s) : Keeps (Attempt.always f) v := h

end Attempt
