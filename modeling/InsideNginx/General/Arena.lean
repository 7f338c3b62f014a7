import Mathlib

/-! Regions handed out from arenas. An arena hands out addresses upwards, from `last` to `hi`;
what it has handed out lies between `lo` and `last`. -/

structure Region where
  addr : ℕ
  size : ℕ
  deriving DecidableEq, Repr

/-- Two regions do not overlap; an empty one overlaps nothing. -/
def Region.Apart (r s : Region) : Prop :=
  r.size = 0 ∨ s.size = 0 ∨ r.addr + r.size ≤ s.addr ∨ s.addr + s.size ≤ r.addr

theorem Region.Apart.symm {r s : Region} (h : r.Apart s) : s.Apart r := by
  unfold Region.Apart at h ⊢
  omega

theorem Region.Apart.mono {r s : Region} (h : r.Apart s) {addr size : ℕ} (hlo : r.addr ≤ addr)
    (hhi : addr + size ≤ r.addr + r.size) : Region.Apart ⟨addr,size⟩ s := by
  unfold Region.Apart at h ⊢
  simp only
  omega

structure Arena where
  lo : ℕ
  last : ℕ
  hi : ℕ
  deriving DecidableEq, Repr

namespace Arena

def Apart (a b : Arena) : Prop := a.hi ≤ b.lo ∨ b.hi ≤ a.lo

theorem Apart.symm {a b : Arena} (h : a.Apart b) : b.Apart a := Or.symm h

/-- The region lies in what the arena has handed out. -/
def Holds (a : Arena) (r : Region) : Prop := a.lo ≤ r.addr ∧ r.addr + r.size ≤ a.last

/-- Arenas that do not overlap, with regions in them that do not overlap. -/
structure Layout (arenas : List Arena) (regions : List Region) : Prop where
  ordered : ∀ a ∈ arenas, a.lo ≤ a.last ∧ a.last ≤ a.hi
  apart : arenas.Pairwise Apart
  inside : ∀ r ∈ regions, ∃ a ∈ arenas, a.Holds r
  disjoint : regions.Pairwise Region.Apart

variable {arenas : List Arena} {regions regions' : List Region}

theorem Layout.perm (h : Layout arenas regions) (hp : regions'.Perm regions) : Layout arenas regions' where
  ordered := h.ordered
  apart := h.apart
  inside r hr := h.inside r (hp.subset hr)
  disjoint := (hp.pairwise_iff fun hrs => hrs.symm).mpr h.disjoint

/-- Regions may be forgotten. -/
theorem Layout.sublist (h : Layout arenas regions) (hs : regions'.Sublist regions) : Layout arenas regions' where
  ordered := h.ordered
  apart := h.apart
  inside r hr := h.inside r (hs.subset hr)
  disjoint := h.disjoint.sublist hs

/-- Arenas at different positions do not overlap. -/
theorem Layout.apart_of_ne (h : Layout arenas regions) {i j : ℕ} {a b : Arena} (hij : i ≠ j)
    (ha : arenas[i]? = some a) (hb : arenas[j]? = some b) : a.Apart b := by
  rw [List.getElem?_eq_some_iff] at ha hb
  obtain ⟨hi,rfl⟩ := ha
  obtain ⟨hj,rfl⟩ := hb
  rcases Nat.lt_or_gt_of_ne hij with hlt | hgt
  · exact List.pairwise_iff_getElem.mp h.apart i j hi hj hlt
  · exact (List.pairwise_iff_getElem.mp h.apart j i hj hi hgt).symm

/-- Arenas with the same limits overlap as little. -/
theorem pairwise_apart_congr {arenas' : List Arena} (hlength : arenas'.length = arenas.length)
    (hsame : ∀ (i : ℕ) (a a' : Arena), arenas[i]? = some a → arenas'[i]? = some a' → a'.lo = a.lo ∧ a'.hi = a.hi)
    (h : arenas.Pairwise Apart) : arenas'.Pairwise Apart := by
  refine List.pairwise_iff_getElem.mpr fun i j hi hj hij => ?_
  have hab := List.pairwise_iff_getElem.mp h i j (hlength ▸ hi) (hlength ▸ hj) hij
  obtain ⟨hlo,hhi⟩ := hsame i _ _ (List.getElem?_eq_getElem (hlength ▸ hi)) (List.getElem?_eq_getElem hi)
  obtain ⟨hlo',hhi'⟩ := hsame j _ _ (List.getElem?_eq_getElem (hlength ▸ hj)) (List.getElem?_eq_getElem hj)
  unfold Apart at hab ⊢
  omega

/-- A new arena that overlaps none of the others. -/
theorem Layout.append (h : Layout arenas regions) {a : Arena} (ha : a.lo ≤ a.last ∧ a.last ≤ a.hi)
    (hapart : ∀ b ∈ arenas, b.Apart a) : Layout (arenas ++ [a]) regions where
  ordered b hb := by
    rcases List.mem_append.mp hb with hb | hb
    · exact h.ordered b hb
    · rw [List.mem_singleton] at hb; exact hb ▸ ha
  apart := List.pairwise_append.mpr ⟨h.apart,List.pairwise_singleton ..,by simpa using hapart⟩
  inside r hr := by
    obtain ⟨b,hb,hr⟩ := h.inside r hr
    exact ⟨b,List.mem_append_left _ hb,hr⟩
  disjoint := h.disjoint

/-- An arena hands out a region at or after its `last`. -/
theorem Layout.take (h : Layout arenas regions) {i m size : ℕ} {a : Arena} (ha : arenas[i]? = some a)
    (hm : a.last ≤ m) (hend : m + size ≤ a.hi) :
    Layout (arenas.set i { a with last := m + size }) (⟨m,size⟩::regions) := by
  obtain ⟨hlo,-⟩ := h.ordered a (List.mem_of_getElem? ha)
  have hi : i < arenas.length := (List.getElem?_eq_some_iff.mp ha).1
  have hself : (arenas.set i { a with last := m + size })[i]? = some { a with last := m + size } := by
    simp [hi]
  refine ⟨fun b hb => ?_,?_,fun r hr => ?_,List.pairwise_cons.mpr ⟨fun r hr => ?_,h.disjoint⟩⟩
  · rcases List.mem_or_eq_of_mem_set hb with hb | rfl
    · exact h.ordered b hb
    · exact ⟨by simp only; omega,hend⟩
  · refine pairwise_apart_congr (by simp) (fun j b b' hb hb' => ?_) h.apart
    by_cases hij : i = j
    · subst hij
      rw [ha] at hb
      rw [hself] at hb'
      cases hb; cases hb'
      exact ⟨rfl,rfl⟩
    · rw [List.getElem?_set_ne hij,hb] at hb'
      cases hb'
      exact ⟨rfl,rfl⟩
  · rcases List.mem_cons.mp hr with rfl | hr
    · exact ⟨_,List.mem_of_getElem? hself,by unfold Holds; simp only; omega⟩
    · obtain ⟨b,hb,hlo',hlast'⟩ := h.inside r hr
      obtain ⟨j,hj⟩ := List.mem_iff_getElem?.mp hb
      by_cases hij : i = j
      · subst hij
        obtain rfl := Option.some.inj (ha.symm.trans hj)
        exact ⟨_,List.mem_of_getElem? hself,hlo',by simp only; omega⟩
      · exact ⟨b,List.mem_of_getElem? (by rw [List.getElem?_set_ne hij]; exact hj),hlo',hlast'⟩
  · obtain ⟨b,hb,hlo',hlast'⟩ := h.inside r hr
    obtain ⟨j,hj⟩ := List.mem_iff_getElem?.mp hb
    obtain ⟨-,hhi⟩ := h.ordered b hb
    unfold Region.Apart
    by_cases hij : i = j
    · subst hij
      obtain rfl := Option.some.inj (ha.symm.trans hj)
      exact .inr (.inr (.inr (by simp only; omega)))
    · rcases h.apart_of_ne hij ha hj with hab | hba
      · exact .inr (.inr (.inl (by simp only; omega)))
      · exact .inr (.inr (.inr (by simp only; omega)))

/-- The last region of an arena is given back. Empty regions may lie anywhere, so there are none. -/
theorem Layout.giveBack {r : Region} (h : Layout arenas (r::regions)) {i : ℕ} {a : Arena}
    (ha : arenas[i]? = some a) (hr : a.Holds r) (hend : r.addr + r.size = a.last)
    (hsolid : ∀ s ∈ r::regions, 0 < s.size) : Layout (arenas.set i { a with last := r.addr }) regions := by
  obtain ⟨hlo,-⟩ := hr
  obtain ⟨hlast,hhi⟩ := h.ordered a (List.mem_of_getElem? ha)
  have hi : i < arenas.length := (List.getElem?_eq_some_iff.mp ha).1
  have hself : (arenas.set i { a with last := r.addr })[i]? = some { a with last := r.addr } := by simp [hi]
  have hpairs := List.pairwise_cons.mp h.disjoint
  refine ⟨fun b hb => ?_,?_,fun s hs => ?_,hpairs.2⟩
  · rcases List.mem_or_eq_of_mem_set hb with hb | rfl
    · exact h.ordered b hb
    · exact ⟨hlo,by simp only; omega⟩
  · refine pairwise_apart_congr (by simp) (fun j b b' hb hb' => ?_) h.apart
    by_cases hij : i = j
    · subst hij
      rw [ha] at hb
      rw [hself] at hb'
      cases hb; cases hb'
      exact ⟨rfl,rfl⟩
    · rw [List.getElem?_set_ne hij,hb] at hb'
      cases hb'
      exact ⟨rfl,rfl⟩
  · obtain ⟨b,hb,hlo',hlast'⟩ := h.inside s (List.mem_cons_of_mem _ hs)
    obtain ⟨j,hj⟩ := List.mem_iff_getElem?.mp hb
    by_cases hij : i = j
    · subst hij
      obtain rfl := Option.some.inj (ha.symm.trans hj)
      refine ⟨_,List.mem_of_getElem? hself,hlo',?_⟩
      have hapart := hpairs.1 s hs
      have hpos := hsolid r List.mem_cons_self
      have hpos' := hsolid s (List.mem_cons_of_mem _ hs)
      unfold Region.Apart at hapart
      simp only
      omega
    · exact ⟨b,List.mem_of_getElem? (by rw [List.getElem?_set_ne hij]; exact hj),hlo',hlast'⟩

/-- A region is seen as two. -/
theorem Layout.divide {m n k : ℕ} (h : Layout arenas (⟨m,n + k⟩::regions)) :
    Layout arenas (⟨m,n⟩::⟨m + n,k⟩::regions) := by
  obtain ⟨a,ha,hlo,hlast⟩ := h.inside _ List.mem_cons_self
  have hpairs := List.pairwise_cons.mp h.disjoint
  simp only at hlo hlast
  refine ⟨h.ordered,h.apart,fun s hs => ?_,List.pairwise_cons.mpr ⟨fun s hs => ?_,List.pairwise_cons.mpr ⟨fun s hs => ?_,hpairs.2⟩⟩⟩
  · rcases List.mem_cons.mp hs with rfl | hs
    · exact ⟨a,ha,hlo,by simp only; omega⟩
    rcases List.mem_cons.mp hs with rfl | hs
    · exact ⟨a,ha,by simp only; omega,by simp only; omega⟩
    · exact h.inside s (List.mem_cons_of_mem _ hs)
  · rcases List.mem_cons.mp hs with rfl | hs
    · exact .inr (.inr (.inl le_rfl))
    · have hapart := hpairs.1 s hs
      unfold Region.Apart at hapart ⊢
      simp only at hapart ⊢
      omega
  · have hapart := hpairs.1 s hs
    unfold Region.Apart at hapart ⊢
    simp only at hapart ⊢
    omega

end Arena
