import Mathlib

/-! Binary linked structures: the node that a path of turns leads to, and how all the walks
change when one child pointer is stored. -/

namespace LinkedTree
variable {Addr : Type*}

/-- Follow the turns of a path from a pointer. -/
def walk (child : Addr → Bool → Option Addr) : Option Addr → List Bool → Option Addr
  | a,[] => a
  | none,_::_ => none
  | some a,b::bs => walk child (child a b) bs

variable (child : Addr → Bool → Option Addr)

@[simp] theorem walk_nil (a : Option Addr) : walk child a [] = a := by cases a <;> rfl

@[simp] theorem walk_none (p : List Bool) : walk child none p = none := by cases p <;> rfl

theorem walk_append (a : Option Addr) (p q : List Bool) :
    walk child a (p ++ q) = walk child (walk child a p) q := by
  induction p generalizing a with
  | nil => simp
  | cons b bs ih => cases a <;> simp [walk,ih]

theorem walk_concat (a : Option Addr) (p : List Bool) (b : Bool) :
    walk child a (p ++ [b]) = (walk child a p).bind fun c => child c b := by
  rw [walk_append]
  cases walk child a p <;> simp [walk]

variable {child}

/-- A path that leads to a node leads through the node of its last but one turn. -/
theorem walk_concat_eq_some {a : Option Addr} {p : List Bool} {b : Bool} {c : Addr}
    (h : walk child a (p ++ [b]) = some c) : ∃ d, walk child a p = some d ∧ child d b = some c := by
  rw [walk_concat] at h
  exact Option.bind_eq_some_iff.mp h

/-- Beyond a missing node there is nothing. -/
theorem walk_eq_none_below {a : Option Addr} {p q : List Bool} (h : walk child a p = none)
    (hpq : p <+: q) : walk child a q = none := by
  obtain ⟨r,rfl⟩ := hpq
  rw [walk_append,h,walk_none]

/-- Store a leaf or NULL at the end of a path below which there was at most one node: no
other path changes. Pointers of nodes that are reached by no other path may change too. -/
theorem walk_store {child' : Addr → Bool → Option Addr} {root : Option Addr} {p : List Bool} {a : Addr}
    {b : Bool} {r : Option Addr} (hp : walk child root p = some a) (hnew : child' a b = r)
    (hleaf : ∀ c, r = some c → ∀ x, child' c x = none)
    (hold : ∀ x, walk child root (p ++ [b] ++ [x]) = none)
    (hframe : ∀ q c x, walk child root q = some c → q ≠ p ++ [b] → (q,x) ≠ (p,b) →
      child' c x = child c x) (q : List Bool) :
    walk child' root q = if q = p ++ [b] then r else walk child root q := by
  induction q using List.reverseRecOn with
  | nil => simp
  | append_singleton q x ih =>
    rw [walk_concat,ih]
    by_cases hq : q = p ++ [b]
    · subst hq
      have hne : p ++ [b] ++ [x] ≠ p ++ [b] := by simp
      rw [if_pos rfl,if_neg hne,hold x]
      cases hr : r with
      | none => rfl
      | some c => exact hleaf c hr x
    · rw [if_neg hq]
      by_cases hqx : (q,x) = (p,b)
      · obtain ⟨rfl,rfl⟩ := Prod.mk.inj hqx
        rw [if_pos rfl,hp]
        exact hnew
      · have hne : q ++ [x] ≠ p ++ [b] := fun he => by
          obtain ⟨rfl,hx⟩ := List.append_inj' he rfl
          exact hqx (by rw [List.cons.inj hx |>.1])
        rw [if_neg hne,walk_concat]
        cases hc : walk child root q with
        | none => rfl
        | some c => exact hframe q c x hc hq hqx

end LinkedTree
