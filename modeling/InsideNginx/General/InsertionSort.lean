import Mathlib.Data.List.Nodup
import Mathlib.Data.List.Perm.Basic

/-! Insertion sort by moves from the end of a sorted sequence, as a relation: whatever the comparisons
say, it permutes, and when they come from a total preorder, it sorts and keeps ties in order. -/
namespace InsertionSort
variable {α : Type*} {stop pass le : α → α → Prop} {q : α} {xs ys zs rest : List α}

/-- `q` has passed the elements of the right part of a sequence, and has stopped behind the left part. -/
def Inserts (stop pass : α → α → Prop) (q : α) (xs zs : List α) : Prop :=
  ∃ left right, xs = left ++ right ∧ zs = left ++ q::right ∧ (∀ p ∈ right, pass p q) ∧ ∀ p ∈ left.getLast?, stop p q

/-- The elements of `rest` are inserted one after the other. -/
inductive Sorts (stop pass : α → α → Prop) : List α → List α → List α → Prop
  | nil (xs : List α) : Sorts stop pass xs [] xs
  | cons {xs zs : List α} {q : α} {rest ys : List α} (h : Inserts stop pass q xs zs) (hrest : Sorts stop pass zs rest ys) :
    Sorts stop pass xs (q::rest) ys

theorem Inserts.perm (h : Inserts stop pass q xs zs) : zs.Perm (xs ++ [q]) := by
  obtain ⟨left,right,rfl,rfl,-⟩ := h
  rw [List.append_assoc]
  exact (List.perm_append_singleton q right).symm.append_left left

theorem Sorts.perm (h : Sorts stop pass xs rest ys) : ys.Perm (xs ++ rest) := by
  induction h with
  | nil xs => rw [List.append_nil]
  | @cons xs zs q rest ys h _ ih =>
    have hperm := h.perm.append_right rest
    rw [List.append_assoc] at hperm
    exact ih.trans hperm

/-- Only comparisons between the elements matter. -/
theorem Sorts.imp_of_mem {stop' pass' : α → α → Prop} (h : Sorts stop pass xs rest ys)
    (hstop : ∀ p ∈ xs ++ rest, ∀ q ∈ xs ++ rest, stop p q → stop' p q)
    (hpass : ∀ p ∈ xs ++ rest, ∀ q ∈ xs ++ rest, pass p q → pass' p q) : Sorts stop' pass' xs rest ys := by
  induction h with
  | nil xs => exact .nil xs
  | @cons xs zs q rest ys h _ ih =>
    have hperm : (zs ++ rest).Perm (xs ++ q::rest) := by
      rw [List.append_cons]
      exact h.perm.append_right rest
    have hmem : ∀ p ∈ zs ++ rest, p ∈ xs ++ q::rest := fun p hp => hperm.mem_iff.mp hp
    refine .cons ?_ (ih (fun p hp r hr => hstop p (hmem p hp) r (hmem r hr))
      fun p hp r hr => hpass p (hmem p hp) r (hmem r hr))
    obtain ⟨left,right,rfl,rfl,hright,hleft⟩ := h
    have hq : q ∈ left ++ right ++ q::rest := by simp
    refine ⟨left,right,rfl,rfl,fun p hp => hpass p (by simp [hp]) q hq (hright p hp),fun p hp => ?_⟩
    exact hstop p (by simp [List.mem_of_getLast? hp]) q hq (hleft p hp)

section
variable (hstop : ∀ p q, stop p q → le p q) (hpass : ∀ p q, pass p q → ¬ le p q)
include hpass

/-- An element that was before another one, and not above it, stays before it. -/
theorem Inserts.stable {x y : α} (h : Inserts stop pass q xs zs) (hle : le x y)
    (hsub : [x,y].Sublist (xs ++ [q])) : [x,y].Sublist zs := by
  obtain ⟨left,right,rfl,rfl,hright,-⟩ := h
  have hold : (left ++ right).Sublist (left ++ q::right) := (List.sublist_cons_self q right).append_left left
  obtain ⟨l,r,hlr,hl,hr⟩ := List.sublist_append_iff.mp hsub
  rcases List.sublist_singleton.mp hr with rfl | rfl
  · rw [List.append_nil] at hlr
    exact hlr ▸ hl.trans hold
  · -- the later of the two comes in
    obtain ⟨rfl,hy⟩ := List.append_inj' (show [x] ++ [y] = l ++ [q] from hlr) rfl
    obtain rfl : y = q := List.singleton_inj.mp hy
    rcases List.mem_append.mp (List.singleton_sublist.mp hl) with hx | hx
    · exact (List.singleton_sublist.mpr hx).append (List.singleton_sublist.mpr List.mem_cons_self)
    · exact absurd hle (hpass x y (hright x hx))

theorem Sorts.stable {x y : α} (h : Sorts stop pass xs rest ys) (hle : le x y)
    (hsub : [x,y].Sublist (xs ++ rest)) : [x,y].Sublist ys := by
  induction h with
  | nil xs => rwa [List.append_nil] at hsub
  | @cons xs zs q rest ys h _ ih =>
    refine ih ?_
    rw [List.append_cons] at hsub
    obtain ⟨l,r,hlr,hl,hr⟩ := List.sublist_append_iff.mp hsub
    rw [hlr]
    refine List.Sublist.append ?_ hr
    rcases l with - | ⟨a,- | ⟨b,l⟩⟩
    · exact List.nil_sublist _
    · exact List.singleton_sublist.mpr (h.perm.mem_iff.mpr (List.singleton_sublist.mp hl))
    · obtain ⟨rfl,hrest⟩ := List.cons.inj hlr
      obtain ⟨rfl,hnil⟩ := List.cons.inj hrest
      obtain ⟨rfl,-⟩ := List.append_eq_nil_iff.mp hnil.symm
      exact h.stable hpass hle hl

include hstop
variable (htotal : ∀ a b, le a b ∨ le b a) (htrans : ∀ a b c, le a b → le b c → le a c)
include htotal htrans

theorem Inserts.pairwise (h : Inserts stop pass q xs zs) (hxs : xs.Pairwise le) : zs.Pairwise le := by
  obtain ⟨left,right,rfl,rfl,hright,hleft⟩ := h
  obtain ⟨hl,hr,hcross⟩ := List.pairwise_append.mp hxs
  have hbelow : ∀ p ∈ left, le p q := by
    rcases left.eq_nil_or_concat' with rfl | ⟨l,b,rfl⟩
    · simp
    · have hb : le b q := hstop b q (hleft b (by simp))
      intro p hp
      rcases List.mem_append.mp hp with hp | hp
      · exact htrans p b q ((List.pairwise_append.mp hl).2.2 p hp b (by simp)) hb
      · exact List.mem_singleton.mp hp ▸ hb
  have habove : ∀ p ∈ right, le q p := fun p hp => (htotal q p).resolve_right (hpass p q (hright p hp))
  refine List.pairwise_append.mpr ⟨hl,List.pairwise_cons.mpr ⟨habove,hr⟩,fun a ha b hb => ?_⟩
  rcases List.mem_cons.mp hb with rfl | hb
  · exact hbelow a ha
  · exact hcross a ha b hb

theorem Sorts.pairwise (h : Sorts stop pass xs rest ys) (hxs : xs.Pairwise le) : ys.Pairwise le := by
  induction h with
  | nil xs => exact hxs
  | cons h _ ih => exact ih (h.pairwise hstop hpass htotal htrans hxs)

end
end InsertionSort
