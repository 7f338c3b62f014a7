import Mathlib

/-! Longest-prefix match: what the longest stored prefix of a string holds, and the scan
that finds it prefix by prefix. -/

namespace LongestMatch
variable {V : Type*} {stored : List Bool → Option V} {bits : List Bool} {n : ℕ} {o : Option V}

/-- `o` is what the longest stored prefix of `bits` holds, `none` when no prefix is stored. -/
def IsLongest (stored : List Bool → Option V) (bits : List Bool) : Option V → Prop
  | some v => ∃ p, p <+: bits ∧ stored p = some v ∧
      ∀ q, q <+: bits → stored q ≠ none → q.length ≤ p.length
  | none => ∀ q, q <+: bits → stored q = none

theorem IsLongest.unique {o o' : Option V} (h : IsLongest stored bits o) (h' : IsLongest stored bits o') :
    o = o' := by
  cases o with
  | none =>
    cases o' with
    | none => rfl
    | some v' =>
      obtain ⟨p',hp',hv',-⟩ := h'
      rw [h p' hp'] at hv'
      cases hv'
  | some v =>
    obtain ⟨p,hp,hv,hmax⟩ := h
    cases o' with
    | none =>
      rw [h' p hp] at hv
      cases hv
    | some v' =>
      obtain ⟨p',hp',hv',hmax'⟩ := h'
      have hle : p.length ≤ p'.length := hmax' p hp (by simp [hv])
      have hge : p'.length ≤ p.length := hmax p' hp' (by simp [hv'])
      obtain rfl : p = p' := (List.prefix_of_prefix_length_le hp hp' hle).eq_of_length (le_antisymm hle hge)
      exact hv.symm.trans hv'

/-- The same among the prefixes shorter than `n`. -/
def Scanned (stored : List Bool → Option V) (bits : List Bool) (n : ℕ) : Option V → Prop
  | some v => ∃ p, p <+: bits ∧ p.length < n ∧ stored p = some v ∧
      ∀ q, q <+: bits → q.length < n → stored q ≠ none → q.length ≤ p.length
  | none => ∀ q, q <+: bits → q.length < n → stored q = none

theorem Scanned.zero : Scanned stored bits 0 none := fun _ _ h => absurd h (Nat.not_lt_zero _)

lemma prefix_eq_take {q : List Bool} (hq : q <+: bits) (hlength : q.length = n) : q = bits.take n := by
  rw [← hlength]
  exact List.prefix_iff_eq_take.mp hq

/-- Scan the prefix of length `n`. -/
theorem Scanned.succ (h : Scanned stored bits n o) (hn : n ≤ bits.length) :
    Scanned stored bits (n+1) ((stored (bits.take n)).or o) := by
  have htake : (bits.take n).length = n := by simp [hn]
  cases hs : stored (bits.take n) with
  | some v =>
    exact ⟨bits.take n,List.take_prefix n bits,by omega,hs,fun q _ hlt _ => by omega⟩
  | none =>
    have hlast : ∀ q, q <+: bits → q.length < n+1 → stored q ≠ none → q.length < n := by
      intro q hq hlt hne
      by_contra hge
      exact hne (prefix_eq_take hq (show q.length = n by omega) ▸ hs)
    cases o with
    | some v =>
      obtain ⟨p,hp,hlt,hv,hmax⟩ := h
      exact ⟨p,hp,by omega,hv,fun q hq hq' hne => hmax q hq (hlast q hq hq' hne) hne⟩
    | none =>
      intro q hq hlt
      by_contra hne
      exact hne (h q hq (hlast q hq hlt hne))

/-- When no longer prefix is stored the scan is over. -/
theorem Scanned.finish (h : Scanned stored bits n o)
    (hrest : ∀ q, q <+: bits → n ≤ q.length → stored q = none) : IsLongest stored bits o := by
  have hlt : ∀ q, q <+: bits → stored q ≠ none → q.length < n := by
    intro q hq hne
    by_contra hge
    exact hne (hrest q hq (by omega))
  cases o with
  | some v =>
    obtain ⟨p,hp,-,hv,hmax⟩ := h
    exact ⟨p,hp,hv,fun q hq hne => hmax q hq (hlt q hq hne) hne⟩
  | none =>
    intro q hq
    by_contra hne
    exact hne (h q hq (hlt q hq hne))

end LongestMatch
