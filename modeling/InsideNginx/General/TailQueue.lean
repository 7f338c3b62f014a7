import Mathlib

/-! Intrusive singly linked queues with a pointer to the link after the last element. A link is
the root of a queue or the `next` field of an element; the memory holds what each link points
to, so several queues may share the elements' one link. -/

/-- The address of a link. -/
inductive Link (ρ τ : Type*)
  | root (r : ρ)
  | next (t : τ)
  deriving DecidableEq, Repr

namespace TailQueue
variable {ρ τ : Type*}

/-- From the pointer `p` the links lead through exactly these elements. -/
def Path (m : Link ρ τ → Option τ) : Option τ → List τ → Prop
  | p,[] => p = none
  | p,x::xs => p = some x ∧ Path m (m (.next x)) xs

/-- The link after the last element of a queue that starts at `l`. -/
def lastLink (l : Link ρ τ) : List τ → Link ρ τ
  | [] => l
  | x::xs => lastLink (.next x) xs

@[simp] theorem lastLink_nil (l : Link ρ τ) : lastLink l [] = l := rfl

theorem lastLink_concat (l : Link ρ τ) (xs : List τ) (t : τ) : lastLink l (xs ++ [t]) = .next t := by
  induction xs generalizing l with
  | nil => rfl
  | cons x xs ih => exact ih (.next x)

theorem lastLink_cons (l l' : Link ρ τ) (x : τ) (xs : List τ) (h : xs ≠ []) :
    lastLink l (x::xs) = lastLink l' xs := by
  cases xs with
  | nil => exact absurd rfl h
  | cons y xs => rfl

/-- The link after the last element is the root or belongs to an element. -/
theorem lastLink_mem (l : Link ρ τ) (xs : List τ) : lastLink l xs = l ∨ ∃ x ∈ xs, lastLink l xs = .next x := by
  induction xs generalizing l with
  | nil => exact .inl rfl
  | cons x xs ih =>
    rcases ih (.next x) with h | ⟨y,hy,h⟩
    · exact .inr ⟨x,List.mem_cons_self,h⟩
    · exact .inr ⟨y,List.mem_cons_of_mem _ hy,h⟩

variable {m m' : Link ρ τ → Option τ}

/-- A path depends on the links of its elements only. -/
theorem Path.congr {p : Option τ} {xs : List τ} (h : Path m p xs)
    (hm : ∀ x ∈ xs, m' (.next x) = m (.next x)) : Path m' p xs := by
  induction xs generalizing p with
  | nil => exact h
  | cons x xs ih =>
    obtain ⟨hp,hrest⟩ := h
    refine ⟨hp,?_⟩
    rw [hm x List.mem_cons_self]
    exact ih hrest fun y hy => hm y (List.mem_cons_of_mem _ hy)

theorem Path.head {p : Option τ} {xs : List τ} (h : Path m p xs) : p = xs.head? := by
  cases xs with
  | nil => exact h
  | cons x xs => exact h.1

/-- The links determine the elements. -/
theorem Path.unique {p : Option τ} {xs ys : List τ} (h : Path m p xs) (h' : Path m p ys) : xs = ys := by
  induction xs generalizing p ys with
  | nil =>
    obtain rfl : p = none := h
    exact (List.head?_eq_none_iff.mp h'.head.symm).symm
  | cons x xs ih =>
    obtain ⟨rfl,hrest⟩ := h
    cases ys with
    | nil => cases h'
    | cons y ys =>
      obtain ⟨hxy,hrest'⟩ := h'
      cases hxy
      exact congrArg _ (ih hrest hrest')

/-- Storing an element in the link after the last one appends it. -/
theorem Path.concat {l : Link ρ τ} {xs : List τ} {t : τ} (h : Path m (m l) xs)
    (hl : l ∉ xs.map Link.next) (hnodup : xs.Nodup) (ht : m' (.next t) = none)
    (hlast : m' (lastLink l xs) = some t)
    (hm : ∀ k, k ≠ .next t → k ≠ lastLink l xs → m' k = m k) (hnew : t ∉ xs) (hne : l ≠ .next t) :
    Path m' (m' l) (xs ++ [t]) := by
  induction xs generalizing l with
  | nil => exact ⟨hlast,ht⟩
  | cons x xs ih =>
    obtain ⟨hp,hrest⟩ := h
    obtain ⟨hx,hxs⟩ := List.nodup_cons.mp hnodup
    have hxt : x ≠ t := fun h => hnew (h ▸ List.mem_cons_self)
    refine ⟨?_,ih hrest ?_ hxs hlast hm (fun h => hnew (List.mem_cons_of_mem _ h)) ?_⟩
    · refine (hm l hne fun heq => hl ?_).trans hp
      rcases lastLink_mem (.next x) xs with h | ⟨y,hy,h⟩
      · rw [heq,lastLink,h]
        simp
      · rw [heq,lastLink,h]
        simp [hy]
    · simpa using hx
    · simpa using hxt

end TailQueue
