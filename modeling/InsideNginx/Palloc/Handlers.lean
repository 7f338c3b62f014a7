import InsideNginx.Palloc.Cleanup

/-! The handlers of the cleanup records over the life of a pool that is not reset: which are
registered, which are called early for a descriptor, and which when the pool is destroyed. -/
namespace InsideNginx.Palloc

/-- The handler and the data that a caller of `ngx_pool_cleanup_add` sets in its record. -/
structure Registration where
  handler : CleanupHandler
  data : Option ℕ
  deriving DecidableEq, Repr

/-- The call of a handler with its data, and the number of the registration that it is for. -/
structure HandlerCall where
  number : ℕ
  handler : CleanupHandler
  data : Option ℕ
  deriving DecidableEq, Repr

/-- The call `c->handler(c->data)`, where there is a handler. -/
def PoolCleanup.call (number : ℕ) (c : PoolCleanup) : Option HandlerCall :=
  c.handler.map fun handler => ⟨number,handler,c.data⟩

/-- The number of the record that `poolRunCleanupFile` stops at: so many records were added before. -/
def calledNumber (fdAt : ℕ → ℤ) (fd : ℤ) : List PoolCleanup → ℕ
  | [] => 0
  | c::cs => if c.handler = some .file ∧ c.data.map fdAt = some fd then cs.length else calledNumber fdAt fd cs

/-- The calls of the first loop of `ngx_destroy_pool`. -/
def destroyCalls : List PoolCleanup → List HandlerCall
  | [] => []
  | c::cs => (c.call cs.length).toList ++ destroyCalls cs

/-- The record with a number: new records come first. -/
def recordAt (cleanup : List PoolCleanup) (n : ℕ) : Option PoolCleanup := cleanup.reverse[n]?

/-- A pool until it is destroyed and its cleanup records, with all registrations and all calls of
handlers so far. -/
structure Handling where
  pool : Option Pool
  cleanup : List PoolCleanup
  registered : List Registration
  calls : List HandlerCall

/-- An operation on the pool; whoever adds a record at once sets its fields. -/
inductive HandlingOp
  | palloc (size : ℕ) (supply : Supply)
  | pnalloc (size : ℕ) (supply : Supply)
  | cleanupAdd (size : ℕ) (first second : Supply) (handler : CleanupHandler) (data : Option ℕ)
  | runCleanupFile (fd : ℤ) (fdAt : ℕ → ℤ)
  | destroy

namespace Handling

def step (align : ℕ) (s : Handling) (op : HandlingOp) : Option Handling :=
  s.pool.map fun pool =>
    match op with
    | .palloc size supply =>
      { s with pool := some (Palloc.palloc align pool size supply.block supply.chunk).2 }
    | .pnalloc size supply =>
      { s with pool := some (Palloc.pnalloc align pool size supply.block supply.chunk).2 }
    | .cleanupAdd size first second handler data =>
      let result := poolCleanupAdd align pool s.cleanup size first second
      match result.1 with
      | none => { s with pool := some result.2.1, cleanup := result.2.2 }
      | some _ =>
        { s with
          pool := some result.2.1
          cleanup := result.2.2.modify 0 fun c => { c with handler := some handler, data := data }
          registered := s.registered ++ [⟨handler,data⟩] }
    | .runCleanupFile fd fdAt =>
      let result := poolRunCleanupFile fdAt fd s.cleanup
      { s with
        cleanup := result.2
        calls := s.calls ++ (result.1.bind (PoolCleanup.call (calledNumber fdAt fd s.cleanup))).toList }
    | .destroy => { s with pool := none, calls := s.calls ++ destroyCalls s.cleanup }

/-- The handler of a registration has been called. -/
def Called (s : Handling) (n : ℕ) : Prop := n ∈ s.calls.map HandlerCall.number

instance (s : Handling) (n : ℕ) : Decidable (s.Called n) := inferInstanceAs (Decidable (_ ∈ _))

def Pending (s : Handling) (n : ℕ) : Prop := n < s.registered.length ∧ ¬ s.Called n

/-- A pending file cleanup whose data names the descriptor at present. -/
def PendingFile (s : Handling) (fdAt : ℕ → ℤ) (fd : ℤ) (n : ℕ) (data : Option ℕ) : Prop :=
  s.Pending n ∧ s.registered[n]? = some ⟨.file,data⟩ ∧ data.map fdAt = some fd

/-- What an operation registers and calls. -/
def Handled (align : ℕ) (s : Handling) (op : HandlingOp) (s' : Handling) : Prop :=
  match op with
  | .palloc .. | .pnalloc .. => s'.registered = s.registered ∧ s'.calls = s.calls
  | .cleanupAdd size first second handler data =>
    s'.calls = s.calls ∧ ∀ pool ∈ s.pool,
      if (poolCleanupAdd align pool s.cleanup size first second).1 = none then
        s'.registered = s.registered ∧ s'.cleanup = s.cleanup
      else s'.registered = s.registered ++ [⟨handler,data⟩]
  | .runCleanupFile fd fdAt =>
    s'.registered = s.registered ∧
      ((s'.calls = s.calls ∧ ∀ n data, ¬ s.PendingFile fdAt fd n data) ∨
        ∃ n data, s'.calls = s.calls ++ [⟨n,.file,data⟩] ∧ s.PendingFile fdAt fd n data ∧
          ∀ m data', s.PendingFile fdAt fd m data' → m ≤ n)
  | .destroy =>
    s'.registered = s.registered ∧ ∃ last, s'.calls = s.calls ++ last ∧
      last.Pairwise (fun x y => y.number < x.number) ∧ ∀ n, n ∈ last.map HandlerCall.number ↔ s.Pending n

/-- A record has the fields of its registration, save that its handler is taken out by its call. -/
structure Sound (s : Handling) : Prop where
  nodup : (s.calls.map HandlerCall.number).Nodup
  called : ∀ call ∈ s.calls, s.registered[call.number]? = some ⟨call.handler,call.data⟩
  length : s.pool.isSome → s.cleanup.length = s.registered.length
  records : s.pool.isSome → ∀ n c r, recordAt s.cleanup n = some c → s.registered[n]? = some r →
    c.data = r.data ∧ c.handler = if s.Called n then none else some r.handler
  drained : s.pool = none → ∀ n, ¬ s.Pending n

end Handling

/-- The runs on a pool from its creation on. -/
def handling (align : ℕ) : TransitionSystem Handling HandlingOp :=
  .ofFunction (fun s => ∃ pagesize p size pool, createPool pagesize p size = some pool ∧ s = ⟨some pool,[],[],[]⟩)
    (Handling.step align)

@[simp] theorem recordAt_cons (c : PoolCleanup) (cs : List PoolCleanup) (n : ℕ) :
    recordAt (c::cs) n = if n = cs.length then some c else recordAt cs n := by
  unfold recordAt
  rw [List.reverse_cons,List.getElem?_append,List.length_reverse]
  split
  · rw [if_neg (by omega)]
  · split
    · simp [*]
    · rw [List.getElem?_eq_none (by simp; omega),List.getElem?_eq_none (by simp; omega)]

@[simp] theorem recordAt_nil (n : ℕ) : recordAt [] n = none := rfl

theorem recordAt_lt {cleanup : List PoolCleanup} {n : ℕ} {c : PoolCleanup} (h : recordAt cleanup n = some c) :
    n < cleanup.length := by
  obtain ⟨hn,-⟩ := List.getElem?_eq_some_iff.mp h
  simpa using hn

theorem recordAt_isSome {cleanup : List PoolCleanup} {n : ℕ} (h : n < cleanup.length) :
    ∃ c, recordAt cleanup n = some c := ⟨_,List.getElem?_eq_getElem (by simpa using h)⟩

/-- The record that is called is the last one added among those that match, and loses its handler. -/
theorem poolRunCleanupFile_spec (fdAt : ℕ → ℤ) (fd : ℤ) (cleanup : List PoolCleanup) :
    ((∀ n c, recordAt cleanup n = some c → ¬ (c.handler = some .file ∧ c.data.map fdAt = some fd)) ∧
      poolRunCleanupFile fdAt fd cleanup = (none,cleanup)) ∨
    ∃ c, recordAt cleanup (calledNumber fdAt fd cleanup) = some c ∧
      (c.handler = some .file ∧ c.data.map fdAt = some fd) ∧
      (∀ n c', recordAt cleanup n = some c' → c'.handler = some .file ∧ c'.data.map fdAt = some fd →
        n ≤ calledNumber fdAt fd cleanup) ∧
      (poolRunCleanupFile fdAt fd cleanup).1 = some c ∧
      (poolRunCleanupFile fdAt fd cleanup).2.length = cleanup.length ∧
      ∀ n, recordAt (poolRunCleanupFile fdAt fd cleanup).2 n =
        if n = calledNumber fdAt fd cleanup then some { c with handler := none } else recordAt cleanup n := by
  induction cleanup with
  | nil => exact .inl ⟨by simp,rfl⟩
  | cons c cs ih =>
    by_cases hc : c.handler = some .file ∧ c.data.map fdAt = some fd
    · refine .inr ⟨c,?_⟩
      simp only [calledNumber,poolRunCleanupFile,if_pos hc,recordAt_cons,if_true,true_and]
      refine ⟨hc,fun n c' hn _ => ?_,rfl,fun n => ?_⟩
      · split at hn
        · omega
        · exact (recordAt_lt hn).le
      · split <;> rfl
    · simp only [calledNumber,poolRunCleanupFile,if_neg hc,recordAt_cons]
      rcases ih with ⟨hnone,hrun⟩ | ⟨d,hd,hmatch,hlast,hrun,hlength,hrecords⟩
      · refine .inl ⟨fun n c' hn => ?_,by rw [hrun]⟩
        split at hn
        · cases hn; exact hc
        · exact hnone n c' hn
      · have hlt := recordAt_lt hd
        refine .inr ⟨d,by rw [if_neg hlt.ne]; exact hd,hmatch,fun n c' hn hc' => ?_,hrun,by simp [hlength],fun n => ?_⟩
        · split at hn
          · cases hn; exact absurd hc' hc
          · exact hlast n c' hn hc'
        · rw [hlength,hrecords]
          split
          · rw [if_neg (by omega)]
          · rfl

theorem mem_destroyCalls {cleanup : List PoolCleanup} {call : HandlerCall} :
    call ∈ destroyCalls cleanup ↔ ∃ c, recordAt cleanup call.number = some c ∧
      c.handler = some call.handler ∧ c.data = call.data := by
  induction cleanup with
  | nil => simp [destroyCalls]
  | cons c cs ih =>
    simp only [destroyCalls,List.mem_append,Option.mem_toList,ih,recordAt_cons,PoolCleanup.call,Option.map_eq_some_iff]
    constructor
    · rintro (⟨handler,hhandler,rfl⟩ | ⟨d,hd,hfields⟩)
      · exact ⟨c,if_pos rfl,hhandler,rfl⟩
      · exact ⟨d,by rw [if_neg (recordAt_lt hd).ne]; exact hd,hfields⟩
    · rintro ⟨d,hd,hhandler,hdata⟩
      split at hd
      · rename_i hn
        cases hd
        exact .inl ⟨_,hhandler,by cases call; simp_all⟩
      · exact .inr ⟨d,hd,hhandler,hdata⟩

/-- The records are left in reverse order of their numbers. -/
theorem destroyCalls_pairwise (cleanup : List PoolCleanup) :
    (destroyCalls cleanup).Pairwise fun x y => y.number < x.number := by
  induction cleanup with
  | nil => exact List.Pairwise.nil
  | cons c cs ih =>
    refine List.pairwise_append.mpr ⟨by cases h : c.call cs.length <;> simp,ih,fun x hx y hy => ?_⟩
    obtain ⟨handler,-,rfl⟩ := Option.map_eq_some_iff.mp (Option.mem_toList.mp hx)
    obtain ⟨d,hd,-⟩ := mem_destroyCalls.mp hy
    exact recordAt_lt hd

/-- A record is added in front, or nothing is. -/
theorem poolCleanupAdd_cases (align : ℕ) (pool : Pool) (cleanup : List PoolCleanup) (size : ℕ) (first second : Supply) :
    ((poolCleanupAdd align pool cleanup size first second).1 = none ∧
      (poolCleanupAdd align pool cleanup size first second).2.2 = cleanup) ∨
    ∃ c, (poolCleanupAdd align pool cleanup size first second).1 = some c ∧
      (poolCleanupAdd align pool cleanup size first second).2.2 = c::cleanup := by
  unfold poolCleanupAdd
  split
  · exact .inl ⟨rfl,rfl⟩
  · split
    · exact .inr ⟨_,rfl,rfl⟩
    · split
      · exact .inl ⟨rfl,rfl⟩
      · exact .inr ⟨_,rfl,rfl⟩

namespace Handling
variable {align : ℕ} {s s' : Handling}

theorem Sound.called_lt (h : s.Sound) {n : ℕ} (hn : s.Called n) : n < s.registered.length := by
  obtain ⟨call,hcall,rfl⟩ := List.mem_map.mp hn
  exact (List.getElem?_eq_some_iff.mp (h.called call hcall)).1

/-- A record still has its handler exactly when the handler is pending. -/
theorem Sound.handler_iff (h : s.Sound) (hpool : s.pool.isSome) {n : ℕ} {c : PoolCleanup}
    (hc : recordAt s.cleanup n = some c) {handler : CleanupHandler} :
    c.handler = some handler ↔ s.Pending n ∧ s.registered[n]? = some ⟨handler,c.data⟩ := by
  have hn : n < s.registered.length := (recordAt_lt hc).trans_eq (h.length hpool)
  have hr := List.getElem?_eq_getElem hn
  obtain ⟨hdata,hhandler⟩ := h.records hpool n c _ hc hr
  rw [hhandler,hdata,hr]
  by_cases hcalled : s.Called n
  · simp [hcalled,Pending]
  · rw [if_neg hcalled]
    constructor
    · intro heq
      exact ⟨⟨hn,hcalled⟩,by rw [← Option.some.inj heq]⟩
    · rintro ⟨-,heq⟩
      rw [Option.some.inj heq]

theorem Sound.pending_iff (h : s.Sound) (hpool : s.pool.isSome) (n : ℕ) :
    s.Pending n ↔ ∃ c handler, recordAt s.cleanup n = some c ∧ c.handler = some handler := by
  constructor
  · intro hn
    obtain ⟨c,hc⟩ := recordAt_isSome (hn.1.trans_eq (h.length hpool).symm)
    obtain ⟨-,hhandler⟩ := h.records hpool n c _ hc (List.getElem?_eq_getElem hn.1)
    exact ⟨c,_,hc,hhandler.trans (if_neg hn.2)⟩
  · rintro ⟨c,handler,hc,hhandler⟩
    exact ((h.handler_iff hpool hc).mp hhandler).1

theorem Sound.pendingFile_iff (h : s.Sound) (hpool : s.pool.isSome) (fdAt : ℕ → ℤ) (fd : ℤ) (n : ℕ) (data : Option ℕ) :
    s.PendingFile fdAt fd n data ↔ ∃ c, recordAt s.cleanup n = some c ∧
      (c.handler = some .file ∧ c.data.map fdAt = some fd) ∧ c.data = data := by
  constructor
  · rintro ⟨hn,hr,hfd⟩
    obtain ⟨c,-,hc,-⟩ := (h.pending_iff hpool n).mp hn
    have hdata : c.data = data := (h.records hpool n c _ hc hr).1
    subst hdata
    exact ⟨c,hc,⟨(h.handler_iff hpool hc).mpr ⟨hn,hr⟩,hfd⟩,rfl⟩
  · rintro ⟨c,hc,⟨hfile,hfd⟩,rfl⟩
    obtain ⟨hn,hr⟩ := (h.handler_iff hpool hc).mp hfile
    exact ⟨hn,hr,hfd⟩

/-- The calls of one operation are of pending handlers, each once. -/
theorem Sound.append_calls (h : s.Sound) (calls : List HandlerCall) (hnodup : (calls.map HandlerCall.number).Nodup)
    (hcalls : ∀ call ∈ calls, s.Pending call.number ∧ s.registered[call.number]? = some ⟨call.handler,call.data⟩) :
    ((s.calls ++ calls).map HandlerCall.number).Nodup ∧
      ∀ call ∈ s.calls ++ calls, s.registered[call.number]? = some ⟨call.handler,call.data⟩ := by
  constructor
  · rw [List.map_append]
    refine h.nodup.append hnodup (List.disjoint_left.mpr fun n hn hmem => ?_)
    obtain ⟨call,hcall,rfl⟩ := List.mem_map.mp hmem
    exact (hcalls call hcall).1.2 hn
  · intro call hcall
    rcases List.mem_append.mp hcall with hcall | hcall
    · exact h.called call hcall
    · exact (hcalls call hcall).2

/-- Registration. -/
theorem Sound.cleanupAdd (h : s.Sound) {pool : Pool} (hpool : s.pool = some pool) {size : ℕ} {first second : Supply}
    {handler : CleanupHandler} {data : Option ℕ}
    (hstep : s.step align (.cleanupAdd size first second handler data) = some s') :
    s'.Sound ∧ s.Handled align (.cleanupAdd size first second handler data) s' := by
  have hsome : s.pool.isSome := by simp [hpool]
  simp only [Handling.step,hpool,Option.map_some,Option.some.injEq] at hstep
  rcases poolCleanupAdd_cases align pool s.cleanup size first second with ⟨hr,hcleanup⟩ | ⟨c,hr,hcleanup⟩
  · rw [hr,hcleanup] at hstep
    subst hstep
    refine ⟨⟨h.nodup,h.called,fun _ => h.length hsome,fun _ => h.records hsome,fun hnone => by cases hnone⟩,rfl,?_⟩
    intro pool' hpool'
    cases hpool.symm.trans hpool'
    rw [if_pos hr]
    exact ⟨rfl,rfl⟩
  · rw [hr,hcleanup] at hstep
    subst hstep
    have hlength := h.length hsome
    refine ⟨⟨h.nodup,?_,?_,?_,fun hnone => by cases hnone⟩,rfl,?_⟩
    · intro call hcall
      exact List.getElem?_append_left (h.called_lt (List.mem_map_of_mem hcall)) ▸ h.called call hcall
    · intro _
      simp [hlength]
    · intro _ n d r hd hrn
      simp only [List.modify_zero_cons,recordAt_cons,hlength] at hd
      split at hd
      · subst n
        cases hd
        rw [List.getElem?_concat_length] at hrn
        cases hrn
        have hnew : ¬ s.Called s.registered.length := fun hcalled => (h.called_lt hcalled).ne rfl
        exact ⟨rfl,(if_neg hnew).symm⟩
      · have hn := (recordAt_lt hd).trans_eq hlength
        rw [List.getElem?_append_left hn] at hrn
        exact h.records hsome n d r hd hrn
    · intro pool' hpool'
      cases hpool.symm.trans hpool'
      rw [if_neg (by rw [hr]; exact Option.some_ne_none c)]

/-- An early call. -/
theorem Sound.runCleanupFile (h : s.Sound) {pool : Pool} (hpool : s.pool = some pool) {fd : ℤ} {fdAt : ℕ → ℤ}
    (hstep : s.step align (.runCleanupFile fd fdAt) = some s') :
    s'.Sound ∧ s.Handled align (.runCleanupFile fd fdAt) s' := by
  have hsome : s.pool.isSome := by simp [hpool]
  simp only [Handling.step,hpool,Option.map_some,Option.some.injEq] at hstep
  rcases poolRunCleanupFile_spec fdAt fd s.cleanup with ⟨hnone,hrun⟩ | ⟨c,hc,hmatch,hlast,hrun,hlength,hrecords⟩
  · rw [hrun,Option.bind_none,Option.toList_none,List.append_nil] at hstep
    subst hstep
    refine ⟨⟨h.nodup,h.called,fun _ => h.length hsome,fun _ => h.records hsome,fun hnone => (by cases hnone)⟩,rfl,
      .inl ⟨rfl,?_⟩⟩
    intro n data hn
    obtain ⟨c,hc,hmatch,-⟩ := (h.pendingFile_iff hsome fdAt fd n data).mp hn
    exact hnone n c hc hmatch
  · generalize calledNumber fdAt fd s.cleanup = n at *
    have hpending := (h.pendingFile_iff hsome fdAt fd n c.data).mpr ⟨c,hc,hmatch,rfl⟩
    rw [hrun,Option.bind_some,PoolCleanup.call,hmatch.1,Option.map_some,Option.toList_some] at hstep
    have hcall : ∀ m, s'.Called m ↔ s.Called m ∨ m = n := by simp [← hstep,Called]
    subst hstep
    obtain ⟨hnodup,hcalled⟩ := h.append_calls [⟨n,.file,c.data⟩] (List.nodup_singleton _) (by
      rintro call hcall
      rw [List.mem_singleton.mp hcall]
      exact ⟨hpending.1,hpending.2.1⟩)
    refine ⟨⟨hnodup,hcalled,fun _ => hlength.trans (h.length hsome),?_,fun hnone => ?_⟩,rfl,.inr ⟨n,c.data,rfl,hpending,?_⟩⟩
    · intro _ m d r hd hr
      simp only [hrecords] at hd
      split at hd
      · subst m
        cases hd
        exact ⟨(h.records hsome n c r hc hr).1,(if_pos ((hcall n).mpr (.inr rfl))).symm⟩
      · rename_i hne
        obtain ⟨hdata,hhandler⟩ := h.records hsome m d r hd hr
        refine ⟨hdata,hhandler.trans ?_⟩
        simp only [hcall,hne,or_false]
    · cases hnone
    · intro m data' hm
      obtain ⟨d,hd,hmatch',-⟩ := (h.pendingFile_iff hsome fdAt fd m data').mp hm
      exact hlast m d hd hmatch'

/-- The last calls. -/
theorem Sound.destroy (h : s.Sound) {pool : Pool} (hpool : s.pool = some pool)
    (hstep : s.step align .destroy = some s') : s'.Sound ∧ s.Handled align .destroy s' := by
  have hsome : s.pool.isSome := by simp [hpool]
  simp only [Handling.step,hpool,Option.map_some,Option.some.injEq] at hstep
  subst hstep
  have hpairwise := destroyCalls_pairwise s.cleanup
  have hlast : ∀ n, n ∈ (destroyCalls s.cleanup).map HandlerCall.number ↔ s.Pending n := by
    intro n
    rw [h.pending_iff hsome,List.mem_map]
    constructor
    · rintro ⟨call,hcall,rfl⟩
      obtain ⟨c,hc,hhandler,-⟩ := mem_destroyCalls.mp hcall
      exact ⟨c,_,hc,hhandler⟩
    · rintro ⟨c,handler,hc,hhandler⟩
      exact ⟨⟨n,handler,c.data⟩,mem_destroyCalls.mpr ⟨c,hc,hhandler,rfl⟩,rfl⟩
  obtain ⟨hnodup,hcalled⟩ := h.append_calls (destroyCalls s.cleanup) (List.pairwise_map.mpr (hpairwise.imp ne_of_gt)) (by
    intro call hcall
    obtain ⟨c,hc,hhandler,hdata⟩ := mem_destroyCalls.mp hcall
    rw [← hdata]
    exact (h.handler_iff hsome hc).mp hhandler)
  refine ⟨⟨hnodup,hcalled,fun hsome => (by cases hsome),fun hsome => (by cases hsome),?_⟩,rfl,_,rfl,hpairwise,hlast⟩
  rintro - n ⟨hn,hnot⟩
  simp only [Called,List.map_append,List.mem_append,not_or] at hnot
  exact hnot.2 ((hlast n).mpr ⟨hn,hnot.1⟩)

/-- One operation. -/
theorem Sound.step (h : s.Sound) {op : HandlingOp} (hstep : s.step align op = some s') :
    s'.Sound ∧ s.Handled align op s' := by
  obtain ⟨pool,hpool,heq⟩ := Option.map_eq_some_iff.mp hstep
  have hsome : s.pool.isSome := by simp [hpool]
  cases op with
  | palloc size supply | pnalloc size supply =>
    subst heq
    exact ⟨⟨h.nodup,h.called,fun _ => h.length hsome,fun _ => h.records hsome,fun hnone => by cases hnone⟩,rfl,rfl⟩
  | cleanupAdd size first second handler data => exact h.cleanupAdd hpool hstep
  | runCleanupFile fd fdAt => exact h.runCleanupFile hpool hstep
  | destroy => exact h.destroy hpool hstep

theorem Sound.of_reachable (h : (handling align).Reachable s) : s.Sound := by
  refine h.invariant ?_ fun s op s' _ hs (hstep : s.step align op = some s') => (hs.step hstep).1
  rintro s ⟨-,-,-,pool,-,rfl⟩
  exact ⟨List.nodup_nil,by simp,fun _ => rfl,by simp,by simp⟩

end Handling

/-- Every registered handler is called once: early, as the last one registered of those that are
pending for the descriptor, or when the pool is destroyed. -/
theorem handlers_called_once {align : ℕ} {s : Handling} (h : (handling align).Reachable s) :
    (s.calls.map HandlerCall.number).Nodup ∧
    (∀ call ∈ s.calls, s.registered[call.number]? = some ⟨call.handler,call.data⟩) ∧
    (s.pool = none → (s.calls.map HandlerCall.number).Perm (List.range s.registered.length)) ∧
    ∀ op s', s.step align op = some s' → s.Handled align op s' := by
  have hs := Handling.Sound.of_reachable h
  refine ⟨hs.nodup,hs.called,fun hnone => ?_,fun op s' hstep => (hs.step hstep).2⟩
  refine (List.perm_ext_iff_of_nodup hs.nodup List.nodup_range).mpr fun n => ?_
  rw [List.mem_range]
  constructor
  · exact hs.called_lt
  · intro hn
    by_contra hcalled
    exact hs.drained hnone n ⟨hn,hcalled⟩

/-- A descriptor is closed early and its number used again; a third registration finds no memory,
and the other two handlers are called when the pool is destroyed. -/
theorem handlers_called_once_example : ∃ s, (handling 8).Reachable s ∧
    s.calls = [⟨0,.file,some 500⟩,⟨2,.other 3,none⟩,⟨1,.file,some 600⟩] ∧
    (s.calls.map HandlerCall.number).Perm (List.range 3) := by
  have hinit : (handling 8).Reachable ⟨createPool 4096 (some 1024) 256,[],[],[]⟩ :=
    .init ⟨4096,some 1024,256,_,rfl,rfl⟩
  obtain ⟨s,hs⟩ : ∃ s, TransitionSystem.replay (Handling.step 8) ⟨createPool 4096 (some 1024) 256,[],[],[]⟩
      [.cleanupAdd 0 ⟨none,none,none⟩ ⟨none,none,none⟩ .file (some 500),
        .runCleanupFile 7 (fun _ => 7),
        .cleanupAdd 0 ⟨none,none,none⟩ ⟨none,none,none⟩ .file (some 600),
        .cleanupAdd 5000 ⟨none,none,none⟩ ⟨none,none,none⟩ (.other 9) none,
        .cleanupAdd 0 ⟨none,none,none⟩ ⟨none,none,none⟩ (.other 3) none,
        .runCleanupFile 8 (fun _ => 7),
        .destroy] = some s := ⟨_,rfl⟩
  have hreach : (handling 8).Reachable s := hinit.of_replay hs
  obtain ⟨-,-,hall,-⟩ := handlers_called_once hreach
  cases hs
  exact ⟨_,hreach,rfl,hall rfl⟩

end InsideNginx.Palloc
