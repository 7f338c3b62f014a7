import Mathlib.Data.Nat.Notation
import Mathlib.Logic.Relation

/-! Labelled transition systems: reachable states, invariants, and runs whose steps all
meet a guard. The labels carry everything that the environment decides in one step. -/

/-- Initial states and labelled steps. A label that is not enabled has no step. -/
structure TransitionSystem (σ α : Type*) where
  init : σ → Prop
  step : σ → α → σ → Prop

namespace TransitionSystem
variable {σ α : Type*} (T : TransitionSystem σ α)

/-- A state is reachable when a finite run from an initial state ends in it. -/
inductive Reachable : σ → Prop
  | init {s} (h : T.init s) : Reachable s
  | step {s a s'} (before : Reachable s) (h : T.step s a s') : Reachable s'

variable {T}

/-- The invariant rule: one step from a reachable state keeps `I`. -/
theorem Reachable.invariant {I : σ → Prop} (hinit : ∀ s, T.init s → I s)
    (hstep : ∀ s a s', T.Reachable s → I s → T.step s a s' → I s')
    {s : σ} (h : T.Reachable s) : I s := by
  induction h with
  | init h => exact hinit _ h
  | step before h ih => exact hstep _ _ _ before ih h

variable (T)

/-- The same system with only those steps that meet the guard. -/
def restrict (guard : σ → α → Prop) : TransitionSystem σ α where
  init := T.init
  step s a s' := guard s a ∧ T.step s a s'

variable {T}

/-- A run whose steps all meet the guard is a run. -/
theorem Reachable.of_restrict {guard : σ → α → Prop} {s : σ}
    (h : (T.restrict guard).Reachable s) : T.Reachable s := by
  induction h with
  | init h => exact .init h
  | step _ h ih => exact .step ih h.2

/-- A weaker guard leaves all runs. -/
theorem Reachable.restrict_mono {guard weaker : σ → α → Prop} (hweaker : ∀ s a, guard s a → weaker s a) {s : σ}
    (h : (T.restrict guard).Reachable s) : (T.restrict weaker).Reachable s := by
  induction h with
  | init h => exact .init h
  | step _ h ih => exact .step ih ⟨hweaker _ _ h.1,h.2⟩

/-- The system of an executable step function; a label without a result is not enabled. -/
def ofFunction (init : σ → Prop) (step : σ → α → Option σ) : TransitionSystem σ α where
  init := init
  step s a s' := step s a = some s'

/-- Replay a list of labels. -/
def replay (step : σ → α → Option σ) : σ → List α → Option σ
  | s,[] => some s
  | s,a::as => (step s a).bind fun s' => replay step s' as

/-- The end of a replay is reachable, where the system makes the steps of its labels. -/
theorem Reachable.of_replay_of_step {step : σ → α → Option σ} {s s' : σ} {as : List α} (hs : T.Reachable s)
    (hstep : ∀ a ∈ as, ∀ s s', step s a = some s' → T.step s a s') (h : replay step s as = some s') :
    T.Reachable s' := by
  induction as generalizing s with
  | nil => cases h; exact hs
  | cons a as ih =>
    obtain ⟨hhead,htail⟩ := List.forall_mem_cons.mp hstep
    obtain ⟨t,ht,hrest⟩ := Option.bind_eq_some_iff.mp h
    exact ih (.step hs (hhead s t ht)) htail hrest

theorem Reachable.of_replay {init : σ → Prop} {step : σ → α → Option σ} {s s' : σ} {as : List α}
    (hs : (ofFunction init step).Reachable s) (h : replay step s as = some s') :
    (ofFunction init step).Reachable s' := hs.of_replay_of_step (fun _ _ _ _ h => h) h

/-- The end of a replay whose steps all meet a guard is reachable by such steps. -/
theorem Reachable.of_guarded_replay {init : σ → Prop} {step : σ → α → Option σ} {guard : σ → α → Prop}
    [∀ s a, Decidable (guard s a)] {s s' : σ} {as : List α}
    (hs : ((ofFunction init step).restrict guard).Reachable s)
    (h : replay (fun s a => if guard s a then step s a else none) s as = some s') :
    ((ofFunction init step).restrict guard).Reachable s' := by
  induction as generalizing s with
  | nil => cases h; exact hs
  | cons a as ih =>
    obtain ⟨t,ht,hrest⟩ := Option.bind_eq_some_iff.mp h
    rw [Option.ite_none_right_eq_some] at ht
    exact ih (.step hs ht) hrest

/-- One step of a run with the states around it. -/
structure Move (σ α : Type*) where
  before : σ
  label : α
  after : σ

variable (T)

/-- A run from one state to another with all its moves. -/
inductive Run : σ → List (Move σ α) → σ → Prop
  | nil (s) : Run s [] s
  | cons {s a t moves s'} (h : T.step s a t) (rest : Run t moves s') : Run s (⟨s,a,t⟩::moves) s'

variable {T}

theorem Run.append_inv {s s' : σ} {xs ys : List (Move σ α)} (h : T.Run s (xs ++ ys) s') :
    ∃ t, T.Run s xs t ∧ T.Run t ys s' := by
  induction xs generalizing s with
  | nil => exact ⟨s,.nil s,h⟩
  | cons m xs ih =>
    cases h with
    | cons hstep rest =>
      obtain ⟨t,hxs,hys⟩ := ih rest
      exact ⟨t,.cons hstep hxs,hys⟩

theorem Run.append {s t s' : σ} {xs ys : List (Move σ α)} (h : T.Run s xs t) (h' : T.Run t ys s') :
    T.Run s (xs ++ ys) s' := by
  induction h with
  | nil => exact h'
  | cons hstep _ ih => exact .cons hstep (ih h')

theorem Run.reachable {s s' : σ} {moves : List (Move σ α)} (h : T.Run s moves s')
    (hs : T.Reachable s) : T.Reachable s' := by
  induction h with
  | nil => exact hs
  | cons hstep _ ih => exact ih (.step hs hstep)

/-- The end of a run is its start or the end of one of its moves. -/
theorem Run.end_mem {s s' : σ} {moves : List (Move σ α)} (h : T.Run s moves s') :
    s' = s ∨ ∃ m ∈ moves, m.after = s' := by
  induction h with
  | nil => exact .inl rfl
  | @cons s a t moves s' hstep rest ih =>
    rcases ih with rfl | ⟨m,hm,hafter⟩
    · exact .inr ⟨_,List.mem_cons_self,rfl⟩
    · exact .inr ⟨m,List.mem_cons_of_mem _ hm,hafter⟩

/-- The invariant rule for a run: every move that satisfies `P` keeps `I`. -/
theorem Run.invariant {I : σ → Prop} {P : Move σ α → Prop}
    (hstep : ∀ m, P m → T.step m.before m.label m.after → I m.before → I m.after)
    {s s' : σ} {moves : List (Move σ α)} (h : T.Run s moves s') (hmoves : ∀ m ∈ moves, P m) (hs : I s) :
    I s' := by
  induction h with
  | nil => exact hs
  | cons h _ ih =>
    obtain ⟨hhead,htail⟩ := List.forall_mem_cons.mp hmoves
    exact ih htail (hstep _ hhead h hs)

/-- The invariant rule with a counter: every move that satisfies `P` keeps `I` for the number of the
moves up to it that count. -/
theorem Run.count_invariant {I : ℕ → σ → Prop} {P : Move σ α → Prop} {c : Move σ α → Bool}
    (hstep : ∀ n m, P m → T.step m.before m.label m.after → I n m.before →
      I (n + if c m then 1 else 0) m.after)
    {s s' : σ} {moves : List (Move σ α)} (h : T.Run s moves s') (hmoves : ∀ m ∈ moves, P m) {n : ℕ} (hs : I n s) :
    I (n + moves.countP c) s' := by
  induction h generalizing n with
  | nil => exact hs
  | cons h _ ih =>
    obtain ⟨hhead,htail⟩ := List.forall_mem_cons.mp hmoves
    have hrest := ih htail (hstep n _ hhead h hs)
    rwa [List.countP_cons,Nat.add_comm (List.countP _ _),← Nat.add_assoc]

/-- The moves of a replay, as far as the labels are enabled. -/
def moves (step : σ → α → Option σ) : σ → List α → List (Move σ α)
  | _,[] => []
  | s,a::as =>
    match step s a with
    | none => []
    | some t => ⟨s,a,t⟩::moves step t as

theorem label_mem {step : σ → α → Option σ} {s : σ} {as : List α} {m : Move σ α} (h : m ∈ moves step s as) :
    m.label ∈ as := by
  induction as generalizing s with
  | nil => cases h
  | cons a as ih =>
    unfold moves at h
    split at h
    · cases h
    · rcases List.mem_cons.mp h with rfl | h
      · exact List.mem_cons_self
      · exact List.mem_cons_of_mem _ (ih h)

theorem Run.of_replay (init : σ → Prop) {step : σ → α → Option σ} {s s' : σ} {as : List α}
    (h : replay step s as = some s') : (ofFunction init step).Run s (moves step s as) s' := by
  induction as generalizing s with
  | nil => cases h; exact .nil _
  | cons a as ih =>
    obtain ⟨t,ht,hrest⟩ := Option.bind_eq_some_iff.mp h
    simp only [moves,ht]
    exact .cons ht (ih hrest)

end TransitionSystem
