import Mathlib

/-! Sequences that are stored in parts, each with the number of its entries. Only the last part has room,
and only the first one may be empty. -/
namespace PartChain
variable {τ α σ ρ : Type*}

/-- The entries of a part from the index `i` on. -/
def partFrom (count : τ → ℕ) (entry : τ → ℕ → α) (p : τ) (i : ℕ) : List α :=
  (List.range' i (count p - i)).map (entry p)

/-- The entries of all parts in order. -/
def entries (count : τ → ℕ) (entry : τ → ℕ → α) (parts : List τ) : List α :=
  parts.flatMap fun p => partFrom count entry p 0

/-- Visit entries in order until one of them ends the walk. -/
def visitAll (body : α → σ → σ × Option ρ) : List α → σ → σ × Option ρ
  | [],s => (s,none)
  | a::as,s =>
    match body a s with
    | (s,some r) => (s,some r)
    | (s,none) => visitAll body as s

/-- The parts are filled one after the other. -/
structure Packed (capacity : ℕ) (count : τ → ℕ) (parts : List τ) : Prop where
  bounded : ∀ p ∈ parts, count p ≤ capacity
  full : ∀ p ∈ parts.dropLast, count p = capacity
  nonempty : ∀ p ∈ parts.tail, 0 < count p

variable {capacity : ℕ} {count count' : τ → ℕ} {entry entry' : τ → ℕ → α} {p : τ} {parts front : List τ} {i : ℕ}

/-- A walk that no entry ends. -/
theorem visitAll_none {body : α → σ → σ × Option ρ} {as : List α} {s : σ} (h : ∀ a ∈ as, body a s = (s,none)) :
    visitAll body as s = (s,none) := by
  induction as with
  | nil => rfl
  | cons a as ih =>
    obtain ⟨ha,has⟩ := List.forall_mem_cons.mp h
    rw [visitAll,ha]
    exact ih has

/-- A walk ends at the first entry that ends it. -/
theorem visitAll_some {body : α → σ → σ × Option ρ} {front back : List α} {a : α} {s s' : σ} {r : ρ}
    (h : ∀ a ∈ front, body a s = (s,none)) (ha : body a s = (s',some r)) :
    visitAll body (front ++ a::back) s = (s',some r) := by
  induction front with
  | nil => rw [List.nil_append,visitAll,ha]
  | cons b front ih =>
    obtain ⟨hb,hfront⟩ := List.forall_mem_cons.mp h
    rw [List.cons_append,visitAll,hb]
    exact ih hfront

theorem partFrom_nil (h : count p ≤ i) : partFrom count entry p i = [] := by
  simp [partFrom,Nat.sub_eq_zero_of_le h]

theorem partFrom_cons (h : i < count p) : partFrom count entry p i = entry p i::partFrom count entry p (i+1) := by
  unfold partFrom
  rw [show count p - i = (count p - (i + 1)) + 1 by omega,List.range'_succ,List.map_cons]

theorem mem_partFrom {a : α} : a ∈ partFrom count entry p 0 ↔ ∃ i < count p, entry p i = a := by
  simp [partFrom]

theorem entries_congr (hcount : ∀ p ∈ parts, count' p = count p) (hentry : ∀ p ∈ parts, entry' p = entry p) :
    entries count' entry' parts = entries count entry parts :=
  List.flatMap_congr fun p hp => by rw [partFrom,partFrom,hcount p hp,hentry p hp]

theorem entries_concat (parts : List τ) (p : τ) :
    entries count entry (parts ++ [p]) = entries count entry parts ++ partFrom count entry p 0 := by
  simp [entries]

/-- One more entry in the last part. -/
theorem entries_push (hcount : ∀ q ∈ front, count' q = count q) (hentry : ∀ q ∈ front ++ [p], entry' q = entry q)
    (hp : count' p = count p + 1) :
    entries count' entry' (front ++ [p]) = entries count entry (front ++ [p]) ++ [entry p (count p)] := by
  have hlast : partFrom count' entry' p 0 = partFrom count entry p 0 ++ [entry p (count p)] := by
    simp [partFrom,hp,hentry p (by simp),List.range'_concat]
  rw [entries_concat,entries_concat,hlast,List.append_assoc,
    entries_congr hcount fun q hq => hentry q (List.mem_append_left _ hq)]

theorem Packed.congr (h : Packed capacity count parts) (hcount : ∀ p ∈ parts, count' p = count p) :
    Packed capacity count' parts where
  bounded p hp := (hcount p hp).trans_le (h.bounded p hp)
  full p hp := (hcount p (List.mem_of_mem_dropLast hp)).trans (h.full p hp)
  nonempty p hp := (h.nonempty p hp).trans_eq (hcount p (List.mem_of_mem_tail hp)).symm

/-- The last part takes one more entry. -/
theorem Packed.push (h : Packed capacity count (front ++ [p])) (hroom : count p < capacity)
    (hcount : ∀ q ∈ front, count' q = count q) (hp : count' p = count p + 1) :
    Packed capacity count' (front ++ [p]) := by
  have hle : ∀ q ∈ front ++ [p], count q ≤ count' q := by
    intro q hq
    rcases List.mem_append.mp hq with hq | hq
    · exact (hcount q hq).ge
    · rw [List.mem_singleton.mp hq,hp]
      exact Nat.le_succ _
  refine ⟨fun q hq => ?_,fun q hq => ?_,fun q hq => (h.nonempty q hq).trans_le (hle q (List.mem_of_mem_tail hq))⟩
  · rcases List.mem_append.mp hq with hq | hq
    · exact (hcount q hq).trans_le (h.bounded q (List.mem_append_left _ hq))
    · rw [List.mem_singleton.mp hq,hp]
      exact hroom
  · rw [List.dropLast_concat] at hq
    exact (hcount q hq).trans (h.full q (by rwa [List.dropLast_concat]))

/-- Behind a full part there is room for another one. -/
theorem Packed.concat (h : Packed capacity count (front ++ [p])) (hfull : count p = capacity) {q : τ}
    (hq : 0 < count q) (hbound : count q ≤ capacity) : Packed capacity count (front ++ [p] ++ [q]) := by
  refine ⟨fun r hr => ?_,fun r hr => ?_,fun r hr => ?_⟩
  · rcases List.mem_append.mp hr with hr | hr
    · exact h.bounded r hr
    · rwa [List.mem_singleton.mp hr]
  · rw [List.dropLast_concat] at hr
    rcases List.mem_append.mp hr with hr | hr
    · exact h.full r (by rwa [List.dropLast_concat])
    · rwa [List.mem_singleton.mp hr]
  · rw [List.tail_append_of_ne_nil (by simp)] at hr
    rcases List.mem_append.mp hr with hr | hr
    · exact h.nonempty r hr
    · rwa [List.mem_singleton.mp hr]

end PartChain
