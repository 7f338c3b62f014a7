import InsideNginx.ThreadPool.Pool

/-! What the operations on the queues do to the links, and to nothing else. -/
namespace InsideNginx.ThreadPool
open TailQueue
variable {κ τ : Type}
namespace Process

/-- The elements of a queue, in order, and its tail pointer. -/
def Queued (s : Process κ τ) (name : QueueName κ) (xs : List τ) : Prop :=
  Path s.load (s.queue name).first xs ∧ (s.queue name).last = lastLink (.root name) xs

/-- Nothing changes for a queue whose links stay. -/
theorem Queued.congr {s s' : Process κ τ} {name : QueueName κ} {xs : List τ} (h : s.Queued name xs)
    (hroot : s'.queue name = s.queue name) (hnext : ∀ x ∈ xs, (s'.task x).next = (s.task x).next) :
    s'.Queued name xs := by
  unfold Queued
  rw [hroot]
  exact ⟨h.1.congr hnext,h.2⟩

section
variable [DecidableEq τ]

@[simp] theorem queue_setTask (s : Process κ τ) (t : τ) (task : Task τ) (name : QueueName κ) :
    (s.setTask t task).queue name = s.queue name := by cases name <;> rfl

@[simp] theorem task_setTask (s : Process κ τ) (t u : τ) (task : Task τ) :
    (s.setTask t task).task u = if u = t then task else s.task u := by
  simp [setTask,Function.update_apply]

end

variable [DecidableEq κ]

@[simp] theorem queue_setQueue (s : Process κ τ) (name other : QueueName κ) (q : Queue κ τ) :
    (s.setQueue name q).queue other = if other = name then q else s.queue other := by
  cases name <;> cases other <;> simp [setQueue,setPool,queue,Function.update_apply]
  split <;> rfl

@[simp] theorem task_setQueue (s : Process κ τ) (name : QueueName κ) (q : Queue κ τ) :
    (s.setQueue name q).task = s.task := by cases name <;> rfl

/-- What the queues and links are not: the rest of the process. -/
def rest (s : Process κ τ) : (κ → ℤ × ℤ) × ℕ × List (Worker κ τ) × Option τ × History κ τ × (τ → Bool × Bool × ℕ) :=
  (fun k => ((s.tp k).waiting,(s.tp k).maxQueue),s.taskId,s.workers,s.drained,s.history,
    fun t => ((s.task t).active,(s.task t).complete,(s.task t).id))

theorem rest_setQueue (s : Process κ τ) (name : QueueName κ) (q : Queue κ τ) :
    (s.setQueue name q).rest = s.rest := by
  cases name with
  | done => rfl
  | pool k =>
    simp only [rest,setQueue,setPool,Prod.mk.injEq,and_true]
    funext k'
    by_cases h : k' = k
    · subst h; simp
    · simp [h]

theorem load_setQueue_last (s : Process κ τ) (name : QueueName κ) (l k : Link (QueueName κ) τ) :
    (s.setQueue name { s.queue name with last := l }).load k = s.load k := by
  cases k with
  | root other =>
    by_cases h : other = name
    · subst h; simp [load]
    · simp [load,h]
  | next t => simp [load]

variable [DecidableEq τ]

theorem rest_store (s : Process κ τ) (l : Link (QueueName κ) τ) (p : Option τ) :
    (s.store l p).rest = s.rest := by
  cases l with
  | root name => exact rest_setQueue s name _
  | next t =>
    simp only [rest,store,setTask,Prod.mk.injEq,true_and]
    funext u
    by_cases h : u = t
    · subst h; simp
    · simp [h]

theorem load_store (s : Process κ τ) (l k : Link (QueueName κ) τ) (p : Option τ) :
    (s.store l p).load k = if k = l then p else s.load k := by
  cases l <;> cases k <;> simp [store,load]
  all_goals split <;> simp_all

theorem last_store (s : Process κ τ) (l : Link (QueueName κ) τ) (p : Option τ) (name : QueueName κ) :
    ((s.store l p).queue name).last = (s.queue name).last := by
  cases l with
  | root other =>
    by_cases h : name = other
    · subst h; simp [store]
    · simp [store,h]
  | next t => simp [store]

theorem load_append (s : Process κ τ) (name : QueueName κ) (t : τ) (k : Link (QueueName κ) τ) :
    (s.append name t).load k = if k = (s.queue name).last then some t else s.load k := by
  rw [append,load_setQueue_last,load_store]

theorem last_append (s : Process κ τ) (name other : QueueName κ) (t : τ) :
    ((s.append name t).queue other).last = if other = name then .next t else (s.queue other).last := by
  rw [append,queue_setQueue]
  split
  · rfl
  · exact last_store ..

theorem rest_append (s : Process κ τ) (name : QueueName κ) (t : τ) : (s.append name t).rest = s.rest := by
  rw [append,rest_setQueue,rest_store]

theorem Queued.append {s : Process κ τ} {name : QueueName κ} {xs : List τ} (h : s.Queued name xs)
    (hnodup : xs.Nodup) {t : τ} (ht : t ∉ xs) (hnext : (s.task t).next = none) :
    (s.append name t).Queued name (xs ++ [t]) := by
  refine ⟨?_,by rw [last_append,if_pos rfl,lastLink_concat]⟩
  have hlast : (.next t : Link (QueueName κ) τ) ≠ (s.queue name).last := by
    rw [h.2]
    rcases lastLink_mem (.root name) xs with hl | ⟨x,hx,hl⟩
    · rw [hl]; simp
    · rw [hl]
      intro heq
      cases heq
      exact ht hx
  refine TailQueue.Path.concat (m := s.load) (l := .root name) h.1 (by simp) hnodup ?_ ?_ (fun k _ hk => ?_) ht (by simp)
  · rw [load_append,if_neg hlast]; exact hnext
  · rw [load_append,h.2,if_pos rfl]
  · rw [load_append,h.2,if_neg hk]

theorem Queued.append_other {s : Process κ τ} {name other : QueueName κ} {xs ys : List τ}
    (h : s.Queued name xs) (hother : s.Queued other ys) (hne : other ≠ name) (hdisjoint : ∀ x ∈ xs, x ∉ ys)
    (t : τ) : (s.append name t).Queued other ys := by
  have hlast : ∀ k, (∀ x ∈ xs, k ≠ .next x) → k ≠ .root name → (s.append name t).load k = s.load k := by
    intro k hk hroot
    rw [load_append,if_neg]
    rw [h.2]
    rcases lastLink_mem (.root name) xs with hl | ⟨x,hx,hl⟩
    · rw [hl]; exact hroot
    · rw [hl]; exact hk x hx
  refine ⟨?_,by rw [last_append,if_neg hne]; exact hother.2⟩
  have hfirst : ((s.append name t).queue other).first = (s.queue other).first :=
    hlast (.root other) (by simp) (by simpa using hne)
  rw [hfirst]
  refine hother.1.congr fun y hy => hlast (.next y) (fun x hx heq => ?_) (by simp)
  cases heq
  exact hdisjoint y hx hy

/-- The same for the batch that the handler goes through. -/
theorem Queued.append_path {s : Process κ τ} {name : QueueName κ} {xs ys : List τ} {p : Option τ}
    (h : s.Queued name xs) (hpath : Path s.load p ys) (hdisjoint : ∀ x ∈ xs, x ∉ ys) (t : τ) :
    Path (s.append name t).load p ys := by
  refine hpath.congr fun y hy => ?_
  rw [load_append,if_neg]
  rw [h.2]
  rcases lastLink_mem (.root name) xs with hl | ⟨x,hx,hl⟩
  · rw [hl]; simp
  · rw [hl]
    intro heq
    cases heq
    exact hdisjoint y hx hy

/-- All the lists of a process: what is in each queue, and the rest of the drained batch. -/
structure Linked (s : Process κ τ) (queues : QueueName κ → List τ) (batch : List τ) : Prop where
  queue : ∀ name, s.Queued name (queues name)
  nodup : ∀ name, (queues name).Nodup
  drained : Path s.load s.drained batch
  nodup_batch : batch.Nodup
  disjoint : ∀ name other x, x ∈ queues name → x ∈ queues other → other = name
  disjoint_batch : ∀ name x, x ∈ queues name → x ∉ batch

variable {s s' : Process κ τ} {queues : QueueName κ → List τ} {batch : List τ}

omit [DecidableEq κ] [DecidableEq τ] in
/-- Only the queues and the links of listed tasks matter. -/
theorem Linked.congr (h : s.Linked queues batch) (hqueue : ∀ name, s'.queue name = s.queue name)
    (hdrained : s'.drained = s.drained)
    (hnext : ∀ t, (∃ name, t ∈ queues name) ∨ t ∈ batch → (s'.task t).next = (s.task t).next) :
    s'.Linked queues batch where
  queue name := (h.queue name).congr (hqueue name) fun x hx => hnext x (.inl ⟨name,hx⟩)
  nodup := h.nodup
  drained := hdrained ▸ h.drained.congr fun x hx => hnext x (.inr hx)
  nodup_batch := h.nodup_batch
  disjoint := h.disjoint
  disjoint_batch := h.disjoint_batch

omit [DecidableEq κ] in
/-- A task that is in no list may be changed. -/
theorem Linked.clear (h : s.Linked queues batch) {t : τ} (ht : ∀ name, t ∉ queues name) (htb : t ∉ batch)
    (task : Task τ) : (s.setTask t task).Linked queues batch := by
  refine h.congr (by simp) rfl fun u hu => ?_
  have hne : u ≠ t := by
    rintro rfl
    rcases hu with ⟨name,hm⟩ | hm
    · exact ht name hm
    · exact htb hm
  simp [hne]

/-- A task that is in no list, with its link cleared, goes to the end of a queue. -/
theorem Linked.append (h : s.Linked queues batch) {t : τ} (ht : ∀ name, t ∉ queues name) (htb : t ∉ batch)
    (hnext : (s.task t).next = none) (name : QueueName κ) :
    (s.append name t).Linked (Function.update queues name (queues name ++ [t])) batch where
  queue other := by
    by_cases hne : other = name
    · subst hne
      rw [Function.update_self]
      exact (h.queue other).append (h.nodup other) (ht other) hnext
    · rw [Function.update_of_ne hne]
      exact (h.queue name).append_other (h.queue other) hne
        (fun x hx hy => hne (h.disjoint name other x hx hy)) t
  nodup other := by
    by_cases hne : other = name
    · subst hne
      rw [Function.update_self]
      exact List.nodup_append.mpr ⟨h.nodup other,by simp,by rintro x hx y hy rfl; simp at hy; exact ht other (hy ▸ hx)⟩
    · rw [Function.update_of_ne hne]; exact h.nodup other
  drained := by
    have hdrained : (s.append name t).drained = s.drained :=
      congrArg (fun r => r.2.2.2.1) (rest_append s name t)
    rw [hdrained]
    exact (h.queue name).append_path h.drained (h.disjoint_batch name) t
  nodup_batch := h.nodup_batch
  disjoint other₁ other₂ x h₁ h₂ := by
    have hmem : ∀ other, x ∈ Function.update queues name (queues name ++ [t]) other →
        x ∈ queues other ∨ other = name ∧ x = t := by
      intro other hx
      by_cases hne : other = name
      · subst hne; simpa using hx
      · rw [Function.update_of_ne hne] at hx; exact .inl hx
    rcases hmem _ h₁ with hx | ⟨hname,hxt⟩ <;> rcases hmem _ h₂ with hy | ⟨hname',hxt'⟩
    · exact h.disjoint _ _ x hx hy
    · exact absurd (hxt' ▸ hx) (ht _)
    · exact absurd (hxt ▸ hy) (ht _)
    · exact hname'.trans hname.symm
  disjoint_batch other x hx := by
    by_cases hne : other = name
    · subst hne
      rw [Function.update_self] at hx
      rcases List.mem_append.mp hx with hx | hx
      · exact h.disjoint_batch other x hx
      · rw [List.mem_singleton] at hx; exact hx ▸ htb
    · rw [Function.update_of_ne hne] at hx
      exact h.disjoint_batch other x hx

omit [DecidableEq τ] in
/-- When the head of a queue is taken, it is in no queue any more. -/
theorem Linked.mem_dequeued (h : s.Linked queues batch) {name other : QueueName κ} {t u : τ} {xs : List τ}
    (hxs : queues name = t::xs) (hu : u ∈ Function.update queues name xs other) : u ∈ queues other ∧ u ≠ t := by
  have hnodup := h.nodup name
  rw [hxs] at hnodup
  by_cases hother : other = name
  · subst hother
    rw [Function.update_self] at hu
    refine ⟨hxs ▸ List.mem_cons_of_mem _ hu,?_⟩
    rintro rfl
    exact (List.nodup_cons.mp hnodup).1 hu
  · rw [Function.update_of_ne hother] at hu
    refine ⟨hu,?_⟩
    rintro rfl
    exact hother (h.disjoint _ _ _ (hxs ▸ List.mem_cons_self) hu)

omit [DecidableEq τ] in
/-- The head of a queue is taken, and the tail pointer of an empty queue goes back to its root. -/
theorem Linked.dequeue (h : s.Linked queues batch) {name : QueueName κ} {t : τ} {xs : List τ}
    (hxs : queues name = t::xs) {q : Queue κ τ} (hfirst : q.first = (s.task t).next)
    (hlast : q.last = if (s.task t).next = none then .root name else (s.queue name).last)
    (hqueue : ∀ other, s'.queue other = if other = name then q else s.queue other)
    (htask : s'.task = s.task) (hdrained : s'.drained = s.drained) :
    s'.Linked (Function.update queues name xs) batch where
  queue other := by
    by_cases hne : other = name
    · subst hne
      rw [Function.update_self]
      have hq := h.queue other
      rw [hxs] at hq
      obtain ⟨⟨-,hpath⟩,htail⟩ := hq
      have hpath : Path s.load (s.task t).next xs := hpath
      have hload : ∀ x, s'.load (.next x) = s.load (.next x) := fun x => by simp [load,htask]
      refine ⟨?_,?_⟩
      · rw [hqueue,if_pos rfl,hfirst]
        exact hpath.congr fun x _ => hload x
      · rw [hqueue,if_pos rfl,hlast,hpath.head]
        cases xs with
        | nil => rfl
        | cons x xs => exact htail.trans (lastLink_cons _ _ _ _ (by simp))
    · rw [Function.update_of_ne hne]
      exact (h.queue other).congr (by rw [hqueue,if_neg hne]) fun x _ => by rw [htask]
  nodup other := by
    by_cases hne : other = name
    · subst hne
      have hn := h.nodup other
      rw [hxs] at hn
      rw [Function.update_self]
      exact (List.nodup_cons.mp hn).2
    · rw [Function.update_of_ne hne]; exact h.nodup other
  drained := by rw [hdrained]; exact h.drained.congr fun x _ => by simp [load,htask]
  nodup_batch := h.nodup_batch
  disjoint other₁ other₂ x h₁ h₂ := by
    have hmem : ∀ other, x ∈ Function.update queues name xs other → x ∈ queues other := by
      intro other hx
      by_cases hne : other = name
      · subst hne
        rw [Function.update_self] at hx
        rw [hxs]
        exact List.mem_cons_of_mem _ hx
      · rwa [Function.update_of_ne hne] at hx
    exact h.disjoint _ _ x (hmem _ h₁) (hmem _ h₂)
  disjoint_batch other x hx := by
    by_cases hne : other = name
    · subst hne
      rw [Function.update_self] at hx
      exact h.disjoint_batch other x (hxs ▸ List.mem_cons_of_mem _ hx)
    · rw [Function.update_of_ne hne] at hx
      exact h.disjoint_batch other x hx

omit [DecidableEq τ] in
/-- The finished tasks become the batch. -/
theorem Linked.drain (h : s.Linked queues []) :
    s.drain.Linked (Function.update queues .done []) (queues .done) where
  queue other := by
    by_cases hne : other = .done
    · subst hne
      rw [Function.update_self]
      exact ⟨rfl,rfl⟩
    · rw [Function.update_of_ne hne]
      cases other with
      | pool k => exact (h.queue (.pool k)).congr rfl fun _ _ => rfl
      | done => exact absurd rfl hne
  nodup other := by
    by_cases hne : other = .done
    · subst hne; simp
    · rw [Function.update_of_ne hne]; exact h.nodup other
  drained := (h.queue .done).1.congr fun _ _ => rfl
  nodup_batch := h.nodup .done
  disjoint other₁ other₂ x h₁ h₂ := by
    have hmem : ∀ other, x ∈ Function.update queues .done [] other → x ∈ queues other := by
      intro other hx
      by_cases hne : other = .done
      · subst hne; simp at hx
      · rwa [Function.update_of_ne hne] at hx
    exact h.disjoint _ _ x (hmem _ h₁) (hmem _ h₂)
  disjoint_batch other x hx := by
    by_cases hne : other = .done
    · subst hne; simp at hx
    · rw [Function.update_of_ne hne] at hx
      exact fun hdone => hne (h.disjoint _ _ x hdone hx)

omit [DecidableEq κ] in
/-- The handler goes on to the next task of the batch. -/
theorem Linked.deliver {t : τ} {ts : List τ} (h : s.Linked queues (t::ts)) :
    (s.deliver t).Linked queues ts where
  queue other := (h.queue other).congr (by cases other <;> rfl) fun x _ => by
    simp only [Process.deliver,task_setTask]
    split <;> simp_all
  nodup := h.nodup
  drained := h.drained.2.congr fun x _ => by
    simp only [Process.deliver,load,task_setTask]
    split <;> simp_all
  nodup_batch := (List.nodup_cons.mp h.nodup_batch).2
  disjoint := h.disjoint
  disjoint_batch other x hx hts := h.disjoint_batch other x hx (List.mem_cons_of_mem _ hts)

end Process
end InsideNginx.ThreadPool
