import Mathlib

/-! Receivers that handle their messages in the order in which these were sent, and what a receiver
knows once it has handled all of them. -/

/-- A receiver: its state, and what it has not handled yet, the oldest message first. -/
structure Mailbox (σ μ : Type*) where
  state : σ
  inbox : List μ

namespace Mailbox
variable {σ μ τ : Type*} (apply : σ → μ → σ) (b : Mailbox σ μ) (m : μ)

def send : Mailbox σ μ := { b with inbox := b.inbox ++ [m] }

/-- Handle the oldest message. -/
def read : Mailbox σ μ :=
  match b.inbox with
  | [] => b
  | m::ms => ⟨apply b.state m,ms⟩

/-- Change the state between two messages. -/
def modify (f : σ → σ) : Mailbox σ μ := { b with state := f b.state }

/-- The state once every message has been handled. -/
def settled : σ := b.inbox.foldl apply b.state

@[simp] theorem settled_send : (b.send m).settled apply = apply (b.settled apply) m := by
  simp [settled,send]

@[simp] theorem settled_read : (b.read apply).settled apply = b.settled apply := by
  obtain ⟨s,_ | ⟨m,ms⟩⟩ := b <;> rfl

variable {apply b}

/-- A view that each message updates by itself settles by itself. -/
theorem settled_view {v : σ → τ} {g : τ → μ → τ} (h : ∀ s m, v (apply s m) = g (v s) m) :
    v (b.settled apply) = b.inbox.foldl g (v b.state) := by
  obtain ⟨s,ms⟩ := b
  induction ms generalizing s with
  | nil => rfl
  | cons m ms ih =>
    refine (ih (apply s m)).trans ?_
    rw [List.foldl_cons,h]

/-- A change of the state that a view does not see is not seen later either. -/
theorem settled_modify {v : σ → τ} {g : τ → μ → τ} {f : σ → σ} (h : ∀ s m, v (apply s m) = g (v s) m)
    (hf : ∀ s, v (f s) = v s) : v ((b.modify f).settled apply) = v (b.settled apply) := by
  rw [settled_view h,settled_view h]
  exact congrArg (b.inbox.foldl g) (hf b.state)

/-- A flag that messages may set and never clear. -/
theorem settled_flag {flag : σ → Bool} {sets : μ → Bool} (h : ∀ s m, flag (apply s m) = (flag s || sets m)) :
    flag (b.settled apply) = (flag b.state || b.inbox.any sets) := by
  refine (settled_view (g := fun x m => x || sets m) h).trans ?_
  obtain ⟨s,ms⟩ := b
  generalize flag s = x
  induction ms generalizing x with
  | nil => simp
  | cons m ms ih =>
    rw [List.foldl_cons,ih,List.any_cons,Bool.or_assoc]

end Mailbox
