import InsideNginx.Fault
import InsideNginx.Queue.Queues

/-! `ngx_queue_middle`. One pointer takes one step in each round and the other one two, one of them
in the header of the loop. -/
namespace InsideNginx.Queue
open Links

/-- `ngx_queue_next` of a pointer that may be NULL. -/
def queueNext (m : Links ℕ) (q : ℕ) : Except Fault ℕ := if q = null then .error .nullDeref else .ok (m.next q)

/-- The loop of `ngx_queue_middle`. -/
def middleLoop (m : Links ℕ) (queue : ℕ) : ℕ → ℕ → ℕ → Except Fault ℕ
  | 0,_,_ => .error .noReturn
  | fuel+1,middle,next =>
    if next ≠ m.prev queue then do
      let middle ← queueNext m middle
      let next ← queueNext m next
      if next = m.prev queue then return middle
      middleLoop m queue fuel middle (← queueNext m next)
    else .ok middle

/-- `ngx_queue_middle`, with the links that it leaves. -/
def queueMiddle (fuel : ℕ) (m : Links ℕ) (queue : ℕ) : Except Fault (ℕ × Links ℕ) := do
  let middle ← middleLoop m queue fuel (m.next queue) (m.next queue)
  return (middle,m)

variable {m : Links ℕ} {queue fuel : ℕ} {xs : List ℕ}

theorem queueNext_iterate (h : m.Ring queue xs) (hnull : null ∉ queue::xs) {i : ℕ} (hi : i ≤ xs.length) :
    queueNext m (m.next^[i] queue) = .ok (m.next^[i+1] queue) := by
  have hne : m.next^[i] queue ≠ null := fun heq => hnull (heq ▸ List.mem_of_getElem? (h.iterate hi))
  rw [queueNext,if_neg hne,Function.iterate_succ_apply']

/-- After `i` rounds one pointer has taken `i` steps from the head and the other one `2*i`. -/
theorem middleLoop_spec (h : m.Ring queue xs) (hnull : null ∉ queue::xs) {i : ℕ} (hi : 2*i + 1 ≤ xs.length)
    (hfuel : xs.length ≤ 2*i + fuel) :
    middleLoop m queue fuel (m.next^[i+1] queue) (m.next^[2*i+1] queue) = .ok (m.next^[xs.length/2+1] queue) := by
  induction fuel generalizing i with
  | zero => omega
  | succ fuel ih =>
    rw [middleLoop]
    by_cases hodd : 2*i + 1 = xs.length
    · have hlast := (h.iterate_eq_prev hi).mpr hodd
      have hhalf : xs.length/2 = i := by omega
      rw [if_neg (not_not.mpr hlast),hhalf]
    · have hnext : m.next^[2*i+1] queue ≠ m.prev queue := fun heq => hodd ((h.iterate_eq_prev hi).mp heq)
      rw [if_pos hnext,queueNext_iterate h hnull (by omega),queueNext_iterate h hnull hi]
      simp only [bind,Except.bind]
      by_cases heven : 2*i + 2 = xs.length
      · have hlast := (h.iterate_eq_prev heven.le).mpr heven
        have hhalf : xs.length/2 = i + 1 := by omega
        rw [if_pos hlast,hhalf]
        rfl
      · have hle : 2*i + 2 ≤ xs.length := by omega
        have hnext : m.next^[2*i+1+1] queue ≠ m.prev queue := fun heq => heven ((h.iterate_eq_prev hle).mp heq)
        rw [if_neg hnext,queueNext_iterate h hnull hle]
        exact ih (by omega) (by omega)

/-- The middle of a queue, or its first element behind the middle; the sentinel of an empty queue. -/
theorem queue_middle (h : WellFormed m queue xs) (hnull : null ∉ queue::xs) (hfuel : xs.length < fuel) :
    ∃ x, queueMiddle fuel m queue = .ok (x,m) ∧ (xs = [] → x = queue) ∧ (xs ≠ [] → xs[xs.length/2]? = some x) := by
  have hring := wellFormed_iff_ring.mp h
  by_cases hxs : xs = []
  · subst hxs
    obtain ⟨fuel,rfl⟩ : ∃ n, fuel = n + 1 := Nat.exists_eq_add_one_of_ne_zero (by omega)
    have hnext : m.next queue = queue := hring.sentinel.1
    have hprev : m.prev queue = queue := hring.sentinel.2
    refine ⟨queue,?_,fun _ => rfl,fun hne => absurd rfl hne⟩
    rw [queueMiddle,middleLoop,hnext,hprev,if_neg (not_not.mpr rfl)]
    rfl
  · have hpos := List.length_pos_of_ne_nil hxs
    have hloop : middleLoop m queue fuel (m.next queue) (m.next queue) = .ok (m.next^[xs.length/2+1] queue) :=
      middleLoop_spec hring hnull (i := 0) (by omega) (by omega)
    refine ⟨m.next^[xs.length/2+1] queue,?_,fun hnil => absurd hnil hxs,fun _ => ?_⟩
    · rw [queueMiddle,hloop]
      rfl
    · exact hring.iterate (i := xs.length/2 + 1) (by omega)

/-- The second of two elements. -/
theorem queue_middle_pair : ∃ x, queueMiddle 3 pair 1 = .ok (x,pair) ∧ x = 3 := by
  have hwell : WellFormed pair 1 [2,3] := wellFormed_iff_ring.mpr ⟨by decide,by decide⟩
  obtain ⟨x,hrun,-,hmiddle⟩ := @queue_middle pair 1 3 [2,3] hwell (by decide) (by decide)
  exact ⟨x,hrun,(Option.some.inj (hmiddle (by decide))).symm⟩

end InsideNginx.Queue
