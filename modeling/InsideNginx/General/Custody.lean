import Mathlib

/-! Logs of things that are handed out and freed again. A disciplined log frees a thing only
while it is out, and hands it out only while it is not. -/

inductive Transfer (α : Type*)
  | handed (a : α)
  | freed (a : α)
  deriving DecidableEq, Repr

namespace Transfer
variable {α : Type*} [DecidableEq α]

/-- In every prefix a thing is out once or not at all. -/
def Disciplined (log : List (Transfer α)) : Prop :=
  ∀ front, front <+: log → ∀ a, front.count (freed a) ≤ front.count (handed a) ∧
    front.count (handed a) ≤ front.count (freed a) + 1

/-- A disciplined log after which exactly the things of `held` are out. -/
structure Holds (log : List (Transfer α)) (held : List α) : Prop where
  disciplined : Disciplined log
  count : ∀ a, log.count (handed a) = log.count (freed a) + held.count a

variable {log : List (Transfer α)} {held held' : List α} {a : α}

theorem Holds.nodup (h : Holds log held) : held.Nodup := by
  refine List.nodup_iff_count_le_one.mpr fun a => ?_
  have hcount := h.count a
  have hle := (h.disciplined log (List.prefix_refl _) a).2
  omega

theorem Holds.perm (h : Holds log held) (hp : held.Perm held') : Holds log held' :=
  ⟨h.disciplined,fun a => by rw [h.count a,hp.count_eq]⟩

theorem Holds.nil : Holds ([] : List (Transfer α)) [] :=
  ⟨fun front hf a => by simp [List.prefix_nil.mp hf],fun a => by simp⟩

theorem Disciplined.snoc (h : Disciplined log) {t : Transfer α}
    (ht : ∀ a, (log ++ [t]).count (freed a) ≤ (log ++ [t]).count (handed a) ∧
      (log ++ [t]).count (handed a) ≤ (log ++ [t]).count (freed a) + 1) : Disciplined (log ++ [t]) := by
  intro front hf
  rcases List.prefix_concat_iff.mp hf with rfl | hf
  · exact ht
  · exact h front hf

theorem Holds.hand (h : Holds log held) (ha : a ∉ held) : Holds (log ++ [handed a]) (a::held) := by
  have hcount : ∀ b, (log ++ [handed a]).count (handed b) =
      (log ++ [handed a]).count (freed b) + (a::held).count b := by
    intro b
    have := h.count b
    by_cases hb : a = b
    · subst hb; simp; omega
    · simp [hb,List.count_cons_of_ne]; omega
  refine ⟨h.disciplined.snoc fun b => ?_,hcount⟩
  have hle : (a::held).count b ≤ 1 := List.nodup_iff_count_le_one.mp (List.nodup_cons.mpr ⟨ha,h.nodup⟩) b
  rw [hcount b]
  omega

theorem Holds.free (h : Holds log (a::held)) : Holds (log ++ [freed a]) held := by
  have hcount : ∀ b, (log ++ [freed a]).count (handed b) =
      (log ++ [freed a]).count (freed b) + held.count b := by
    intro b
    have := h.count b
    by_cases hb : a = b
    · subst hb; simp at this ⊢; omega
    · simp [hb,List.count_cons_of_ne] at this ⊢; omega
  refine ⟨h.disciplined.snoc fun b => ?_,hcount⟩
  have hle : held.count b ≤ 1 :=
    List.nodup_iff_count_le_one.mp (List.nodup_cons.mp h.nodup).2 b
  rw [hcount b]
  omega

theorem Holds.handAll (h : Holds log held) {new : List α} (hnew : (new ++ held).Nodup) :
    Holds (log ++ new.map handed) (new ++ held) := by
  induction new generalizing log held with
  | nil => simpa using h
  | cons a new ih =>
    obtain ⟨ha,hrest⟩ := List.nodup_cons.mp hnew
    have hstep := h.hand (a := a) fun hm => ha (List.mem_append_right _ hm)
    have hall := ih hstep (List.perm_middle.nodup_iff.mpr hnew)
    rw [List.append_assoc] at hall
    exact hall.perm List.perm_middle

theorem Holds.freeAll {gone : List α} (h : Holds log (gone ++ held)) :
    Holds (log ++ gone.map freed) held := by
  induction gone generalizing log with
  | nil => simpa using h
  | cons a gone ih =>
    have hall := ih h.free
    rwa [List.append_assoc] at hall

/-- Different things are handed out. -/
theorem Holds.of_nodup (h : held.Nodup) : Holds (held.map handed) held := by
  have hall := Holds.nil.handAll (by simpa using h : (held ++ []).Nodup)
  rwa [List.nil_append,List.append_nil] at hall

/-- One call hands out `new` and frees `gone`. -/
theorem Holds.exchange (h : Holds log held) {new gone : List α} (hnew : (new ++ held).Nodup)
    (hp : (gone ++ held').Perm (new ++ held)) :
    Holds (log ++ (new.map handed ++ gone.map freed)) held' := by
  have hall := ((h.handAll hnew).perm hp.symm).freeAll
  rwa [List.append_assoc] at hall

/-- What was out from the start, and is not freed, is no part of a log. -/
theorem Holds.of_handed {front : List α} (h : Holds (front.map handed ++ log) front) (hkept : ∀ a ∈ front, freed a ∉ log) :
    Holds log [] := by
  have hfreed : ∀ (part : List (Transfer α)) a, (front.map handed ++ part).count (freed a) = part.count (freed a) := by
    intro part a
    rw [List.count_append,List.count_eq_zero_of_not_mem (by simp),zero_add]
  have hhanded : ∀ (part : List (Transfer α)) a,
      (front.map handed ++ part).count (handed a) = front.count a + part.count (handed a) := by
    intro part a
    rw [List.count_append,List.count_map_of_injective front handed fun _ _ h => by cases h; rfl]
  refine ⟨fun part hpart a => ?_,fun a => ?_⟩
  · have hle := h.disciplined _ (List.prefix_append_right_inj _ |>.mpr hpart) a
    rw [hfreed,hhanded] at hle
    by_cases ha : a ∈ front
    · have hzero : part.count (freed a) = 0 :=
        List.count_eq_zero_of_not_mem fun hmem => hkept a ha (hpart.subset hmem)
      have hone := List.count_pos_iff.mpr ha
      omega
    · rw [List.count_eq_zero_of_not_mem ha] at hle
      omega
  · have hcount := h.count a
    rw [hfreed,hhanded] at hcount
    rw [List.count_nil]
    omega

/-- A log goes on with a part that starts from what is out. -/
theorem Holds.chain {part : List (Transfer α)} (h : Holds log held) (hpart : Holds (held.map handed ++ part) held') :
    Holds (log ++ part) held' := by
  have hhanded : ∀ (rest : List (Transfer α)) a, (log ++ rest).count (handed a) =
      log.count (freed a) + (held.map handed ++ rest).count (handed a) := by
    intro rest a
    rw [List.count_append,List.count_append,h.count a,
      List.count_map_of_injective held handed fun _ _ h => by cases h; rfl,Nat.add_assoc]
  have hfreed : ∀ (rest : List (Transfer α)) a, (log ++ rest).count (freed a) =
      log.count (freed a) + (held.map handed ++ rest).count (freed a) := by
    intro rest a
    rw [List.count_append,List.count_append,List.count_eq_zero_of_not_mem (l := held.map handed) (by simp),zero_add]
  refine ⟨fun front hfront a => ?_,fun a => ?_⟩
  · rcases List.prefix_or_prefix_of_prefix hfront (List.prefix_append log part) with hfront | ⟨rest,rfl⟩
    · exact h.disciplined front hfront a
    · have hrest := (List.prefix_append_right_inj log).mp hfront
      have hle := hpart.disciplined _ ((List.prefix_append_right_inj (held.map handed)).mpr hrest) a
      rw [hhanded,hfreed]
      omega
  · rw [hhanded,hfreed,hpart.count a,Nat.add_assoc]

end Transfer
