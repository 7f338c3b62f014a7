import InsideNginx.Cycle.Zones
import InsideNginx.ThreadPool.Shutdown

/-! How the thread pools are configured, from the directives to the workers that a process starts. -/
namespace InsideNginx.ThreadPool
open InsideNginx.Cycle

/-- The characters of an ASCII string. -/
def ascii (s : String) : Str := s.toList.map fun c => c.toNat.toUInt8

/-- `ngx_thread_pool_t` while pools are configured. -/
structure PoolConf where
  name : Str
  threads : ℕ
  maxQueue : ℤ
  file : Str
  line : ℕ
  deriving DecidableEq, Repr

/-- Where a call of `ngx_thread_pool_add` stands in the configuration, and whether its allocations succeed. -/
structure Place where
  file : Str
  line : ℕ
  pcalloc : Bool
  push : Bool
  deriving DecidableEq, Repr

/-- The messages, with their arguments. -/
inductive ConfError
  /-- No memory. -/
  | noMemory
  /-- "duplicate thread pool \"%V\"" -/
  | duplicate (name : Str)
  /-- "invalid threads value \"%V\"" -/
  | invalidThreads (value : Str)
  /-- "invalid max_queue value \"%V\"" -/
  | invalidMaxQueue (value : Str)
  /-- "\"%V\" must have \"threads\" parameter" -/
  | noThreads
  /-- "unknown thread pool \"%V\" in %s:%ui" -/
  | unknown (name file : Str) (line : ℕ)
  deriving DecidableEq, Repr

/-- `ngx_thread_pool_default`. -/
def threadPoolDefault : Str := ascii "default"

/-- `ngx_thread_pool_get`, with the position for the pointer. -/
def threadPoolGet (pools : List PoolConf) (name : Str) : Option (Fin pools.length) :=
  pools.findFinIdx? fun tp => sameStr tp.name name

/-- The pools, and the one that a call returns. -/
structure Added where
  pools : List PoolConf
  tp : Fin pools.length

/-- `ngx_thread_pool_add`. -/
def threadPoolAdd (pools : List PoolConf) (place : Place) (name? : Option Str) : Option Added :=
  let name := name?.getD threadPoolDefault
  match threadPoolGet pools name with
  | some tp => some ⟨pools,tp⟩
  | none =>
    if place.pcalloc && place.push then
      some ⟨pools ++ [⟨name,0,0,place.file,place.line⟩],⟨pools.length,by simp⟩⟩
    else none

/-- A turn of the loop over the parameters in `ngx_thread_pool`. `atoi` is `ngx_atoi`, `none` its NGX_ERROR. -/
def setParam (atoi : Str → Option ℕ) (tp : PoolConf) (value : Str) : Except ConfError PoolConf :=
  if (ascii "threads=").isPrefixOf value then
    match atoi (value.drop 8) with
    | none | some 0 => .error (.invalidThreads value)
    | some n => .ok { tp with threads := n }
  else if (ascii "max_queue=").isPrefixOf value then
    match atoi (value.drop 10) with
    | none => .error (.invalidMaxQueue value)
    | some n => .ok { tp with maxQueue := n }
  else .ok tp

/-- `ngx_thread_pool`, the handler of the directive. -/
def threadPool (atoi : Str → Option ℕ) (pools : List PoolConf) (place : Place) (name : Str) (params : List Str) :
    Except ConfError (List PoolConf) :=
  match threadPoolAdd pools place (some name) with
  | none => .error .noMemory
  | some ⟨pools,i⟩ =>
    if pools[i].threads ≠ 0 then .error (.duplicate pools[i].name)
    else do
      let tp ← params.foldlM (setParam atoi) { pools[i] with maxQueue := 65536 }
      if tp.threads = 0 then .error .noThreads else return pools.set i tp

/-- A part of the configuration: the directive, or a call of `ngx_thread_pool_add` by another module. -/
inductive Directive
  | pool (place : Place) (name : Str) (params : List Str)
  | use (place : Place) (name : Option Str)

def Directive.apply (atoi : Str → Option ℕ) (pools : List PoolConf) : Directive → Except ConfError (List PoolConf)
  | .pool place name params => threadPool atoi pools place name params
  | .use place name =>
    match threadPoolAdd pools place name with
    | none => .error .noMemory
    | some added => .ok added.pools

/-- A turn of the loop of `ngx_thread_pool_init_conf`. -/
def initPool (tp : PoolConf) : Except ConfError PoolConf :=
  if tp.threads ≠ 0 then .ok tp
  else if sameStr tp.name threadPoolDefault then .ok { tp with threads := 32, maxQueue := 65536 }
  else .error (.unknown tp.name tp.file tp.line)

/-- The configuration from the empty array of pools, behind `ngx_thread_pool_create_conf`, to the end of
`ngx_thread_pool_init_conf`. -/
def configure (atoi : Str → Option ℕ) (ds : List Directive) : Except ConfError (List PoolConf) := do
  let pools ← ds.foldlM (Directive.apply atoi) []
  pools.mapM initPool

/-! ### One name, one pool -/

theorem sameStr_refl (a : Str) : sameStr a a = true := sameStr_iff.mpr ⟨rfl,rfl⟩

theorem sameStr_congr {a b : Str} (h : sameStr a b = true) (c : Str) : sameStr a c = sameStr b c := by
  rw [Bool.eq_iff_iff]
  exact ⟨fun hc => sameStr_trans (sameStr_comm .. ▸ h) hc,fun hc => sameStr_trans h hc⟩

/-- The pools have different names. -/
def Distinct (pools : List PoolConf) : Prop :=
  ∀ i j : ℕ, ∀ a b, i ≠ j → pools[i]? = some a → pools[j]? = some b → sameStr a.name b.name = false

namespace Directive

/-- The name that a part of the configuration is about. -/
def name : Directive → Str
  | .pool _ name _ => name
  | .use _ name => name.getD threadPoolDefault

/-- The parameters of the directive `thread_pool`. -/
def params? : Directive → Option (List Str)
  | .pool _ _ params => some params
  | .use _ _ => none

end Directive

/-- The value that a parameter gives for a key. -/
def valueOf (atoi : Str → Option ℕ) (key : String) (value : Str) : Option ℕ :=
  if (ascii key).isPrefixOf value then atoi (value.drop key.length) else none

/-- The last value that is given for a key. -/
def lastValue (atoi : Str → Option ℕ) (key : String) (params : List Str) : Option ℕ :=
  (params.filterMap (valueOf atoi key)).getLast?

/-- What a directive asks for. -/
def asked (atoi : Str → Option ℕ) (params : List Str) : ℕ × ℤ :=
  ((lastValue atoi "threads=" params).getD 0,((lastValue atoi "max_queue=" params).map Int.ofNat).getD 65536)

/-- What the directive for a name asks for. -/
def declared (atoi : Str → Option ℕ) (ds : List Directive) (name : Str) : Option (ℕ × ℤ) :=
  ds.findSome? fun d => if sameStr d.name name then d.params?.map (asked atoi) else none

/-- No two directives declare one name. -/
def Single (ds : List Directive) : Prop :=
  ds.Pairwise fun a b => a.params? ≠ none → b.params? ≠ none → sameStr a.name b.name = false

/-- No name is declared twice, nor without threads. -/
structure Sane (atoi : Str → Option ℕ) (ds : List Directive) : Prop where
  positive : ∀ name a, declared atoi ds name = some a → a.1 ≠ 0
  single : Single ds

/-- What the configuration up to here has made of the pools. -/
structure Registered (atoi : Str → Option ℕ) (ds : List Directive) (pools : List PoolConf) : Prop where
  sane : Sane atoi ds
  distinct : Distinct pools
  named : ∀ d ∈ ds, ∃ i : ℕ, ∃ tp, pools[i]? = some tp ∧ sameStr tp.name d.name = true
  settings : ∀ (i : ℕ) tp, pools[i]? = some tp → (∃ d ∈ ds, sameStr d.name tp.name = true) ∧
    (tp.threads,tp.maxQueue) = (declared atoi ds tp.name).getD (0,0)

variable {atoi : Str → Option ℕ} {pools : List PoolConf} {ds : List Directive}

/-- What `ngx_thread_pool_add` does: it finds the pool with the name or adds one. -/
theorem threadPoolAdd_cases {place : Place} {name? : Option Str} {added : Added}
    (h : threadPoolAdd pools place name? = some added) :
    sameStr added.pools[added.tp].name (name?.getD threadPoolDefault) = true ∧
    (added.pools = pools ∨
      (∀ tp ∈ pools, sameStr tp.name (name?.getD threadPoolDefault) = false) ∧
      added.pools = pools ++ [⟨name?.getD threadPoolDefault,0,0,place.file,place.line⟩] ∧ added.tp.val = pools.length) := by
  unfold threadPoolAdd at h
  dsimp only at h
  split at h
  · rename_i tp hget
    cases h
    exact ⟨(List.findFinIdx?_eq_some_iff.mp hget).1,.inl rfl⟩
  · rename_i hget
    obtain ⟨-,h⟩ := Option.ite_none_right_eq_some.mp h
    cases h
    refine ⟨?_,.inr ⟨fun tp htp => ?_,rfl,rfl⟩⟩
    · simp [sameStr_refl]
    · simpa using List.findFinIdx?_eq_none_iff.mp hget tp htp

/-! ### The parameters -/

/-- No parameter begins with both keys. -/
theorem keys_differ {value : Str} (h : (ascii "threads=").isPrefixOf value = true) :
    (ascii "max_queue=").isPrefixOf value = false := by
  obtain ⟨rest,rfl⟩ := List.isPrefixOf_iff_prefix.mp h
  rfl

theorem setParam_ok {tp tp' : PoolConf} {value : Str} (h : setParam atoi tp value = .ok tp') :
    tp' = { tp with
      threads := (valueOf atoi "threads=" value).getD tp.threads
      maxQueue := ((valueOf atoi "max_queue=" value).map Int.ofNat).getD tp.maxQueue } := by
  unfold setParam at h
  unfold valueOf
  by_cases hthreads : (ascii "threads=").isPrefixOf value = true
  · rw [if_pos hthreads] at h
    rw [if_pos hthreads,keys_differ hthreads,show "threads=".length = 8 from rfl]
    cases hvalue : atoi (value.drop 8) with
    | none => simp [hvalue] at h
    | some n =>
      cases n with
      | zero => simp [hvalue] at h
      | succ n =>
        simp only [hvalue,Except.ok.injEq] at h
        exact h.symm
  · rw [if_neg hthreads] at h
    rw [if_neg hthreads]
    by_cases hqueue : (ascii "max_queue=").isPrefixOf value = true
    · rw [if_pos hqueue] at h
      rw [if_pos hqueue,show "max_queue=".length = 10 from rfl]
      cases hvalue : atoi (value.drop 10) with
      | none => simp [hvalue] at h
      | some n =>
        simp only [hvalue,Except.ok.injEq] at h
        exact h.symm
    · rw [if_neg hqueue] at h
      rw [if_neg hqueue]
      cases h
      rfl

theorem lastValue_cons (key : String) (value : Str) (params : List Str) :
    lastValue atoi key (value::params) = (lastValue atoi key params).or (valueOf atoi key value) := by
  unfold lastValue
  cases h : valueOf atoi key value with
  | none => simp [h]
  | some n => cases hlast : (params.filterMap (valueOf atoi key)).getLast? <;> simp [h,hlast,List.getLast?_cons]

/-- The parameters in their order: the last value for a key counts. -/
theorem setParams_ok {tp tp' : PoolConf} {params : List Str} (h : params.foldlM (setParam atoi) tp = .ok tp') :
    tp' = { tp with
      threads := (lastValue atoi "threads=" params).getD tp.threads
      maxQueue := ((lastValue atoi "max_queue=" params).map Int.ofNat).getD tp.maxQueue } := by
  induction params generalizing tp with
  | nil =>
    cases h
    rfl
  | cons value params ih =>
    rw [List.foldlM_cons] at h
    cases hvalue : setParam atoi tp value with
    | error e => rw [hvalue] at h; cases h
    | ok tp₁ =>
      rw [hvalue] at h
      rw [ih h,setParam_ok hvalue]
      simp only [lastValue_cons,Option.map_or,Option.getD_or]

/-! ### The directives -/

theorem declared_append (ds : List Directive) (d : Directive) (n : Str) : declared atoi (ds ++ [d]) n =
    (declared atoi ds n).or (if sameStr d.name n then d.params?.map (asked atoi) else none) := by
  unfold declared
  rw [List.findSome?_append]
  cases List.findSome? _ ds with
  | some asked => rfl
  | none => cases h : (if sameStr d.name n then d.params?.map (asked atoi) else none) <;> simp [h]

/-- The directive for a name is about it. -/
theorem exists_of_declared {n : Str} {a : ℕ × ℤ} (h : declared atoi ds n = some a) :
    ∃ d ∈ ds, sameStr d.name n = true := by
  obtain ⟨d,hd,hsome⟩ := List.exists_of_findSome?_eq_some h
  exact ⟨d,hd,(Option.ite_none_right_eq_some.mp hsome).1⟩

theorem declared_congr {a b : Str} (h : sameStr a b = true) : declared atoi ds a = declared atoi ds b := by
  unfold declared
  congr 1
  funext d
  rw [sameStr_comm d.name a,sameStr_comm d.name b,sameStr_congr h]

theorem declared_use (ds : List Directive) (place : Place) (name : Option Str) (n : Str) :
    declared atoi (ds ++ [.use place name]) n = declared atoi ds n := by
  rw [declared_append]
  simp [Directive.params?]

theorem Sane.use (h : Sane atoi ds) (place : Place) (name : Option Str) : Sane atoi (ds ++ [.use place name]) := by
  refine ⟨fun n a ha => ?_,?_⟩
  · rw [declared_use] at ha
    exact h.positive n a ha
  refine List.pairwise_append.mpr ⟨h.single,List.pairwise_singleton _ _,fun a _ b hb _ hparams => ?_⟩
  obtain rfl := List.mem_singleton.mp hb
  exact absurd rfl hparams

/-- The directive for a name that has none. -/
theorem Sane.pool (h : Sane atoi ds) {place : Place} {name : Str} {params : List Str}
    (hnone : declared atoi ds name = none) (hasked : (asked atoi params).1 ≠ 0) :
    Sane atoi (ds ++ [.pool place name params]) := by
  refine ⟨fun n a ha => ?_,?_⟩
  · rw [declared_append] at ha
    rcases Option.or_eq_some_iff.mp ha with ha | ⟨-,ha⟩
    · exact h.positive n a ha
    · obtain ⟨-,ha⟩ := Option.ite_none_right_eq_some.mp ha
      cases ha
      exact hasked
  · refine List.pairwise_append.mpr ⟨h.single,List.pairwise_singleton _ _,fun a ha b hb hparams _ => ?_⟩
    obtain rfl := List.mem_singleton.mp hb
    rw [← Bool.not_eq_true]
    intro hsame
    have hnone' := List.findSome?_eq_none_iff.mp hnone a ha
    rw [show sameStr a.name name = true from hsame,if_pos rfl,Option.map_eq_none_iff] at hnone'
    exact hparams hnone'

/-- The names in a list of which one pool is replaced. -/
theorem Distinct.set (h : Distinct pools) {i : Fin pools.length} {tp : PoolConf} (hname : tp.name = pools[i].name) :
    Distinct (pools.set i tp) := by
  have hget : ∀ (j : ℕ) other, (pools.set i tp)[j]? = some other →
      ∃ old, pools[j]? = some old ∧ other.name = old.name := by
    intro j other hj
    rw [List.getElem?_set] at hj
    split at hj
    · rename_i hij
      rw [if_pos i.isLt] at hj
      cases hj
      subst hij
      exact ⟨pools[i],List.getElem?_eq_getElem i.isLt,hname⟩
    · exact ⟨other,hj,rfl⟩
  intro j k a b hjk hj hk
  obtain ⟨a',hj',ha⟩ := hget j a hj
  obtain ⟨b',hk',hb⟩ := hget k b hk
  rw [ha,hb]
  exact h j k a' b' hjk hj' hk'

namespace Registered

theorem nil : Registered atoi [] [] :=
  ⟨⟨by simp [declared],.nil⟩,by simp [Distinct],by simp,by simp⟩

/-- A call of `ngx_thread_pool_add` by another module. -/
theorem use (h : Registered atoi ds pools) {place : Place} {name : Option Str} {added : Added}
    (hadd : threadPoolAdd pools place name = some added) : Registered atoi (ds ++ [.use place name]) added.pools := by
  obtain ⟨hname,hcases⟩ := threadPoolAdd_cases hadd
  have hfound : ∃ i : ℕ, ∃ tp, added.pools[i]? = some tp ∧ sameStr tp.name (name.getD threadPoolDefault) = true :=
    ⟨added.tp,_,List.getElem?_eq_getElem added.tp.isLt,hname⟩
  have hsettings : ∀ (i : ℕ) tp, pools[i]? = some tp →
      (∃ d ∈ ds ++ [Directive.use place name], sameStr d.name tp.name = true) ∧
      (tp.threads,tp.maxQueue) = (declared atoi (ds ++ [.use place name]) tp.name).getD (0,0) := by
    intro i tp hi
    obtain ⟨⟨d,hd,hsame⟩,hset⟩ := h.settings i tp hi
    exact ⟨⟨d,List.mem_append_left _ hd,hsame⟩,by rw [declared_use]; exact hset⟩
  rcases hcases with hpools | ⟨hnew,hpools,-⟩
  · rw [hpools] at hfound ⊢
    refine ⟨h.sane.use place name,h.distinct,fun d hd => ?_,hsettings⟩
    rcases List.mem_append.mp hd with hd | hd
    · exact h.named d hd
    · obtain rfl := List.mem_singleton.mp hd
      exact hfound
  · -- the pool of a new name
    have hold : ∀ (i : ℕ) tp, added.pools[i]? = some tp → pools[i]? = some tp ∨
        i = pools.length ∧ tp = ⟨name.getD threadPoolDefault,0,0,place.file,place.line⟩ := by
      intro i tp hi
      rw [hpools,List.getElem?_append] at hi
      split at hi
      · exact .inl hi
      · obtain ⟨hlt,hget⟩ := List.getElem?_eq_some_iff.mp hi
        simp only [List.length_singleton] at hlt
        exact .inr ⟨by omega,by simpa using hget.symm⟩
    refine ⟨h.sane.use place name,fun i j a b hij hi hj => ?_,fun d hd => ?_,fun i tp hi => ?_⟩
    · rcases hold i a hi with hi | ⟨rfl,rfl⟩ <;> rcases hold j b hj with hj | ⟨rfl,rfl⟩
      · exact h.distinct i j a b hij hi hj
      · exact hnew a (List.mem_of_getElem? hi)
      · rw [sameStr_comm]
        exact hnew b (List.mem_of_getElem? hj)
      · exact absurd rfl hij
    · rcases List.mem_append.mp hd with hd | hd
      · obtain ⟨i,tp,hi,hsame⟩ := h.named d hd
        refine ⟨i,tp,?_,hsame⟩
        rw [hpools,List.getElem?_append_left (List.getElem?_eq_some_iff.mp hi).1]
        exact hi
      · obtain rfl := List.mem_singleton.mp hd
        exact hfound
    · rcases hold i tp hi with hi | ⟨rfl,rfl⟩
      · exact hsettings i tp hi
      · refine ⟨⟨.use place name,by simp,sameStr_refl _⟩,?_⟩
        rw [declared_use]
        cases hd : declared atoi ds (name.getD threadPoolDefault) with
        | none => rfl
        | some a =>
          obtain ⟨d,hd,hsame⟩ := exists_of_declared hd
          obtain ⟨i,tp,hi,htp⟩ := h.named d hd
          have hclash := hnew tp (List.mem_of_getElem? hi)
          rw [sameStr_trans htp hsame] at hclash
          cases hclash

/-- A pool that has no threads gets the settings of its directive. -/
theorem set {place : Place} {name : Str} {params : List Str} (h : Registered atoi (ds ++ [.use place (some name)]) pools)
    {i : Fin pools.length} (hi : sameStr pools[i].name name = true) (hzero : pools[i].threads = 0) {tp : PoolConf}
    (hname : tp.name = pools[i].name) (hasked : (tp.threads,tp.maxQueue) = asked atoi params) (hthreads : tp.threads ≠ 0)
    (hsane : Sane atoi ds) : Registered atoi (ds ++ [.pool place name params]) (pools.set i tp) := by
  have hget := List.getElem?_eq_getElem i.isLt
  have hdeclared : ∀ n, declared atoi (ds ++ [.pool place name params]) n =
      (declared atoi ds n).or (if sameStr name n then some (asked atoi params) else none) := fun n => by
    rw [declared_append]
    rfl
  -- the directive is the first one for the name
  have hnone : ∀ n, sameStr pools[i].name n = true → declared atoi ds n = none := by
    intro n hn
    rw [← declared_congr hn]
    cases hd : declared atoi ds pools[i].name with
    | none => rfl
    | some a =>
      have hset := (h.settings i pools[i] hget).2
      rw [declared_use,hd] at hset
      exact absurd ((congrArg Prod.fst hset).symm.trans hzero) (hsane.positive _ a hd)
  have hother : ∀ (j : ℕ) other, j ≠ i → pools[j]? = some other → sameStr name other.name = false := by
    intro j other hj hlist
    rw [← sameStr_congr hi]
    exact h.distinct i j _ _ (Ne.symm hj) hget hlist
  have hpositive : (asked atoi params).1 ≠ 0 := fun hfst => hthreads ((congrArg Prod.fst hasked).trans hfst)
  refine ⟨hsane.pool (hnone name hi) hpositive,h.distinct.set hname,fun d hd => ?_,fun j other hj => ?_⟩
  · obtain ⟨d',hd',heq⟩ : ∃ d' ∈ ds ++ [Directive.use place (some name)], d'.name = d.name := by
      rcases List.mem_append.mp hd with hd | hd
      · exact ⟨d,List.mem_append_left _ hd,rfl⟩
      · obtain rfl := List.mem_singleton.mp hd
        exact ⟨_,List.mem_append_right _ (List.mem_singleton_self _),rfl⟩
    obtain ⟨j,other,hj,hsame⟩ := h.named d' hd'
    rw [heq] at hsame
    by_cases hji : j = i
    · subst hji
      cases hget.symm.trans hj
      exact ⟨i,tp,by simp,hname ▸ hsame⟩
    · exact ⟨j,other,by rw [List.getElem?_set_ne (Ne.symm hji)]; exact hj,hsame⟩
  · rw [List.getElem?_set] at hj
    split at hj
    · rw [if_pos i.isLt] at hj
      cases hj
      refine ⟨⟨.pool place name params,by simp,?_⟩,?_⟩
      · rw [sameStr_comm,hname]
        exact hi
      · rw [hdeclared,hname,hnone _ (sameStr_refl _),sameStr_comm,hi,hasked]
        rfl
    · rename_i hji
      obtain ⟨⟨d,hd,hsame⟩,hset⟩ := h.settings j other hj
      have hfalse := hother j other (Ne.symm hji) hj
      refine ⟨?_,?_⟩
      · rcases List.mem_append.mp hd with hd | hd
        · exact ⟨d,List.mem_append_left _ hd,hsame⟩
        · obtain rfl := List.mem_singleton.mp hd
          exact absurd (hsame.symm.trans hfalse) (by decide)
      · rw [hdeclared,hfalse]
        rw [declared_use] at hset
        simpa using hset

/-- The directive `thread_pool`. -/
theorem pool (h : Registered atoi ds pools) {place : Place} {name : Str} {params : List Str} {pools' : List PoolConf}
    (hpool : threadPool atoi pools place name params = .ok pools') :
    Registered atoi (ds ++ [.pool place name params]) pools' := by
  unfold threadPool at hpool
  split at hpool
  · cases hpool
  rename_i list i hadd
  split at hpool
  · cases hpool
  rename_i hzero
  cases hparams : params.foldlM (setParam atoi) { list[i] with maxQueue := 65536 } with
  | error e => rw [hparams] at hpool; cases hpool
  | ok tp =>
    rw [hparams] at hpool
    simp only [bind,Except.bind] at hpool
    split at hpool
    · cases hpool
    rename_i hthreads
    cases hpool
    have hasked : (tp.threads,tp.maxQueue) = asked atoi params ∧ tp.name = list[i].name := by
      rw [setParams_ok hparams,not_not.mp hzero]
      exact ⟨rfl,rfl⟩
    exact (h.use hadd).set (threadPoolAdd_cases hadd).1 (not_not.mp hzero) hasked.2 hasked.1 hthreads h.sane

/-- All parts of the configuration, one after another. -/
theorem of_apply {pools' : List PoolConf} (h : Registered atoi ds pools) {rest : List Directive}
    (hrest : rest.foldlM (Directive.apply atoi) pools = .ok pools') : Registered atoi (ds ++ rest) pools' := by
  induction rest generalizing ds pools with
  | nil =>
    cases hrest
    simpa using h
  | cons d rest ih =>
    rw [List.foldlM_cons] at hrest
    cases hd : d.apply atoi pools with
    | error e => rw [hd] at hrest; cases hrest
    | ok pools₁ =>
      rw [hd] at hrest
      have hnext : Registered atoi (ds ++ [d]) pools₁ := by
        cases d with
        | pool place name params => exact h.pool hd
        | use place name =>
          cases hadd : threadPoolAdd pools place name with
          | none => simp [Directive.apply,hadd] at hd
          | some added =>
            simp only [Directive.apply,hadd,Except.ok.injEq] at hd
            exact hd ▸ h.use hadd
      have hall := ih hnext hrest
      rwa [List.append_assoc] at hall

end Registered

/-! ### When the configuration succeeds -/

/-- A parameter without an invalid value. -/
def Accepted (atoi : Str → Option ℕ) (value : Str) : Prop :=
  ((ascii "threads=").isPrefixOf value = true → ∃ n ≠ 0, atoi (value.drop 8) = some n) ∧
  ((ascii "max_queue=").isPrefixOf value = true → ∃ n, atoi (value.drop 10) = some n)

/-- A directive whose parameters are accepted, with `threads` among them. -/
def Directive.WellFormed (atoi : Str → Option ℕ) (d : Directive) : Prop :=
  ∀ params, d.params? = some params →
    (∀ value ∈ params, Accepted atoi value) ∧ ∃ value ∈ params, (ascii "threads=").isPrefixOf value = true

/-- The allocations of a part of the configuration succeed. -/
def Directive.Served : Directive → Prop
  | .pool place _ _ | .use place _ => place.pcalloc = true ∧ place.push = true

theorem setParam_isOk (tp : PoolConf) (value : Str) :
    (∃ tp', setParam atoi tp value = .ok tp') ↔ Accepted atoi value := by
  unfold setParam Accepted
  by_cases hthreads : (ascii "threads=").isPrefixOf value = true
  · have hqueue := keys_differ hthreads
    rw [if_pos hthreads]
    cases atoi (value.drop 8) with
    | none => simp [hthreads,hqueue]
    | some n => cases n <;> simp [hthreads,hqueue]
  · rw [if_neg hthreads]
    by_cases hqueue : (ascii "max_queue=").isPrefixOf value = true
    · rw [if_pos hqueue]
      cases atoi (value.drop 10) <;> simp [hthreads,hqueue]
    · simp [hthreads,hqueue]

theorem setParams_isOk (tp : PoolConf) (params : List Str) :
    (∃ tp', params.foldlM (setParam atoi) tp = .ok tp') ↔ ∀ value ∈ params, Accepted atoi value := by
  induction params generalizing tp with
  | nil => simp [pure,Except.pure]
  | cons value params ih =>
    rw [List.foldlM_cons,List.forall_mem_cons,← setParam_isOk tp value]
    cases hvalue : setParam atoi tp value with
    | error e => simp [bind,Except.bind]
    | ok tp₁ => simpa [bind,Except.bind] using ih tp₁

/-- A value for `threads` is there when the parameter is. -/
theorem asked_threads {params : List Str} (h : ∀ value ∈ params, Accepted atoi value) :
    (asked atoi params).1 ≠ 0 ↔ ∃ value ∈ params, (ascii "threads=").isPrefixOf value = true := by
  unfold asked lastValue
  refine ⟨fun hne => ?_,fun ⟨value,hmem,hstarts⟩ => ?_⟩
  · by_contra hnone
    have hfilter : params.filterMap (valueOf atoi "threads=") = [] := by
      refine List.filterMap_eq_nil_iff.mpr fun value hvalue => ?_
      exact if_neg fun hstarts => hnone ⟨value,hvalue,hstarts⟩
    rw [hfilter] at hne
    exact hne rfl
  · obtain ⟨n,-,hn⟩ := (h value hmem).1 hstarts
    have hmem' : n ∈ params.filterMap (valueOf atoi "threads=") :=
      List.mem_filterMap.mpr ⟨value,hmem,by rw [valueOf,if_pos hstarts]; exact hn⟩
    have hlast := List.getLast?_eq_some_getLast (List.ne_nil_of_mem hmem')
    rw [hlast]
    obtain ⟨other,hother,hvalue⟩ := List.mem_filterMap.mp (List.getLast_mem (List.ne_nil_of_mem hmem'))
    obtain ⟨hother',hvalue⟩ := Option.ite_none_right_eq_some.mp hvalue
    obtain ⟨m,hm,heq⟩ := (h other hother).1 hother'
    rw [show "threads=".length = 8 from rfl,heq] at hvalue
    cases hvalue
    exact hm

/-- The pool is there or can be added. -/
theorem threadPoolAdd_some (pools : List PoolConf) {place : Place} (hplace : place.pcalloc = true ∧ place.push = true)
    (name : Option Str) : ∃ added, threadPoolAdd pools place name = some added := by
  unfold threadPoolAdd
  dsimp only
  split
  · exact ⟨_,rfl⟩
  · simp [hplace]

/-- A pool has no threads as long as no directive has named it. -/
theorem Registered.threads_eq_zero (h : Registered atoi ds pools) {place : Place} {name : Str} {added : Added}
    (hadd : threadPoolAdd pools place (some name) = some added) :
    added.pools[added.tp].threads = 0 ↔ declared atoi ds name = none := by
  have hset := ((h.use hadd).settings added.tp _ (List.getElem?_eq_getElem added.tp.isLt)).2
  rw [declared_use] at hset
  have hname : declared atoi ds added.pools[added.tp].name = declared atoi ds name :=
    declared_congr (threadPoolAdd_cases hadd).1
  have hfst := congrArg Prod.fst hset
  rw [show added.pools[(added.tp : ℕ)].name = added.pools[added.tp].name from rfl,hname] at hfst
  cases hd : declared atoi ds name with
  | none =>
    rw [hd] at hfst
    simpa using hfst
  | some a =>
    rw [hd] at hfst
    have := h.sane.positive name a hd
    simp only [Option.getD_some] at hfst
    simpa [hfst] using this

theorem wellFormed_pool (place : Place) (name : Str) (params : List Str) :
    Directive.WellFormed atoi (.pool place name params) ↔
      (∀ value ∈ params, Accepted atoi value) ∧ (asked atoi params).1 ≠ 0 := by
  simp only [Directive.WellFormed,Directive.params?,Option.some.injEq,forall_eq']
  exact and_congr_right fun haccepted => (asked_threads haccepted).symm

/-- A part of the configuration succeeds unless it is wrong in itself or declares a name again. -/
theorem Registered.isOk (h : Registered atoi ds pools) {d : Directive} (hserved : d.Served) :
    (∃ pools', d.apply atoi pools = .ok pools') ↔
      d.WellFormed atoi ∧ (d.params? ≠ none → declared atoi ds d.name = none) := by
  cases d with
  | use place name =>
    obtain ⟨added,hadded⟩ := threadPoolAdd_some pools hserved name
    simp [Directive.apply,hadded,Directive.WellFormed,Directive.params?]
  | pool place name params =>
    obtain ⟨⟨list,i⟩,hadded⟩ := threadPoolAdd_some pools hserved (some name)
    have hzero : list[i].threads = 0 ↔ declared atoi ds name = none := h.threads_eq_zero hadded
    have hasked : ∀ tp', params.foldlM (setParam atoi) { list[i] with maxQueue := 65536 } = .ok tp' →
        list[i].threads = 0 → tp'.threads = (asked atoi params).1 := by
      intro tp' htp' hthreads
      rw [setParams_ok htp',hthreads]
      rfl
    change (∃ pools', threadPool atoi pools place name params = .ok pools') ↔ _
    rw [wellFormed_pool,← setParams_isOk { list[i] with maxQueue := 65536 } params]
    simp only [threadPool,hadded,Directive.params?,Directive.name,ne_eq,reduceCtorEq,not_false_eq_true,forall_const]
    rw [← hzero]
    by_cases hthreads : list[i].threads = 0
    · rw [if_neg (not_not.mpr hthreads)]
      cases hparams : params.foldlM (setParam atoi) { list[i] with maxQueue := 65536 } with
      | error e => simp [bind,Except.bind]
      | ok tp' =>
        simp only [bind,Except.bind,hasked tp' hparams hthreads]
        by_cases hne : (asked atoi params).1 = 0
        · simp [hne]
        · simpa [hne,pure,Except.pure] using hthreads
    · rw [if_pos hthreads]
      refine ⟨fun ⟨pools',hpools⟩ => ?_,fun hall => absurd hall.2 hthreads⟩
      cases hpools

theorem Single.declared_none {d : Directive} {rest : List Directive} (h : Single (ds ++ d::rest)) (hd : d.params? ≠ none) :
    declared atoi ds d.name = none := by
  refine List.findSome?_eq_none_iff.mpr fun a ha => ?_
  by_cases hparams : a.params? = none
  · simp [hparams]
  · have hfalse := (List.pairwise_append.mp h).2.2 a ha d List.mem_cons_self hparams hd
    rw [hfalse]
    rfl

/-- The whole list of directives. -/
theorem Registered.all_ok (h : Registered atoi ds pools) {rest : List Directive} (hserved : ∀ d ∈ rest, d.Served) :
    (∃ pools', rest.foldlM (Directive.apply atoi) pools = .ok pools') ↔
      (∀ d ∈ rest, d.WellFormed atoi) ∧ Single (ds ++ rest) := by
  induction rest generalizing ds pools with
  | nil => simp [pure,Except.pure,h.sane.single]
  | cons d rest ih =>
    obtain ⟨hd,hrest⟩ := List.forall_mem_cons.mp hserved
    rw [List.foldlM_cons,List.forall_mem_cons]
    have hone := h.isOk hd
    cases hstep : d.apply atoi pools with
    | error e =>
      rw [hstep] at hone
      refine ⟨fun ⟨pools',hpools⟩ => ?_,fun ⟨⟨hwell,_⟩,hsingle⟩ => ?_⟩
      · cases hpools
      · obtain ⟨pools',hpools⟩ := hone.mpr ⟨hwell,hsingle.declared_none⟩
        cases hpools
    | ok pools₁ =>
      have hfold : [d].foldlM (Directive.apply atoi) pools = .ok pools₁ := by simp [hstep]
      have hnext := h.of_apply hfold
      have hwell := (hone.mp ⟨pools₁,hstep⟩).1
      rw [← List.singleton_append,← List.append_assoc]
      simp only [hwell,true_and]
      exact ih hnext hrest

/-! ### The settings of the pools -/

/-- The settings that the configuration gives to a name. -/
def settled (atoi : Str → Option ℕ) (ds : List Directive) (name : Str) : Option (ℕ × ℤ) :=
  (declared atoi ds name).or (if sameStr name threadPoolDefault then some (32,65536) else none)

/-- The pools of a configuration that has been accepted. -/
structure Configured (atoi : Str → Option ℕ) (ds : List Directive) (pools : List PoolConf) : Prop where
  distinct : Distinct pools
  named : ∀ d ∈ ds, ∃ tp ∈ pools, sameStr tp.name d.name = true
  used : ∀ tp ∈ pools, ∃ d ∈ ds, sameStr d.name tp.name = true
  settings : ∀ tp ∈ pools, settled atoi ds tp.name = some (tp.threads,tp.maxQueue)
  positive : ∀ tp ∈ pools, tp.threads ≠ 0

/-- What `ngx_thread_pool_init_conf` makes of a pool that it does not refuse. -/
def withDefault (tp : PoolConf) : PoolConf :=
  if tp.threads ≠ 0 then tp else { tp with threads := 32, maxQueue := 65536 }

theorem withDefault_name (tp : PoolConf) : (withDefault tp).name = tp.name := by
  unfold withDefault
  split <;> rfl

theorem initPools_ok (pools pools' : List PoolConf) : pools.mapM initPool = .ok pools' ↔
    (∀ tp ∈ pools, tp.threads ≠ 0 ∨ sameStr tp.name threadPoolDefault = true) ∧ pools' = pools.map withDefault := by
  induction pools generalizing pools' with
  | nil =>
    rw [List.mapM_nil,List.map_nil]
    refine ⟨fun h => ?_,fun ⟨_,h⟩ => h ▸ rfl⟩
    cases h
    exact ⟨by simp,rfl⟩
  | cons tp pools ih =>
    rw [List.mapM_cons,List.forall_mem_cons,List.map_cons]
    by_cases hrefused : tp.threads ≠ 0 ∨ sameStr tp.name threadPoolDefault = true
    · have hhead : initPool tp = .ok (withDefault tp) := by
        unfold initPool withDefault
        by_cases hthreads : tp.threads ≠ 0
        · rw [if_pos hthreads,if_pos hthreads]
        · rw [if_neg hthreads,if_neg hthreads,if_pos (hrefused.resolve_left hthreads)]
      rw [hhead]
      cases htail : pools.mapM initPool with
      | error e =>
        rw [htail] at ih
        refine ⟨fun h => ?_,fun ⟨⟨_,hall⟩,_⟩ => ?_⟩
        · cases h
        · cases (ih (pools.map withDefault)).mpr ⟨hall,rfl⟩
      | ok list =>
        obtain ⟨hall,rfl⟩ := (ih list).mp htail
        simpa [bind,Except.bind,pure,Except.pure,hrefused,@eq_comm _ pools'] using fun _ => hall
    · have hhead : initPool tp = .error (.unknown tp.name tp.file tp.line) := by
        rw [not_or] at hrefused
        rw [initPool,if_neg hrefused.1,if_neg hrefused.2]
      rw [hhead]
      simp [bind,Except.bind,hrefused]

/-- The name of a pool is settled when it has a directive or is the default one. -/
theorem settled_isSome (name : Str) : (settled atoi ds name).isSome = true ↔
    declared atoi ds name ≠ none ∨ sameStr name threadPoolDefault = true := by
  unfold settled
  cases declared atoi ds name <;> simp

theorem settled_congr {a b : Str} (h : sameStr a b = true) : settled atoi ds a = settled atoi ds b := by
  rw [settled,settled,declared_congr h,sameStr_congr h]

namespace Registered

/-- A pool without threads has no directive. -/
theorem threads_iff (h : Registered atoi ds pools) {tp : PoolConf} (htp : tp ∈ pools) :
    tp.threads ≠ 0 ↔ declared atoi ds tp.name ≠ none := by
  obtain ⟨i,hi⟩ := List.mem_iff_getElem?.mp htp
  have hfst := congrArg Prod.fst (h.settings i tp hi).2
  cases hd : declared atoi ds tp.name with
  | none =>
    rw [hd] at hfst
    simpa using hfst
  | some a =>
    rw [hd] at hfst
    simp only [Option.getD_some] at hfst
    simpa [hfst] using h.sane.positive _ a hd

/-- What `ngx_thread_pool_init_conf` refuses is a name without settings. -/
theorem accepted_iff (h : Registered atoi ds pools) :
    (∀ tp ∈ pools, tp.threads ≠ 0 ∨ sameStr tp.name threadPoolDefault = true) ↔
      ∀ d ∈ ds, (settled atoi ds d.name).isSome = true := by
  refine ⟨fun hall d hd => ?_,fun hall tp htp => ?_⟩
  · obtain ⟨i,tp,hi,hname⟩ := h.named d hd
    have htp := List.mem_of_getElem? hi
    rw [← settled_congr hname,settled_isSome,← h.threads_iff htp]
    exact hall tp htp
  · obtain ⟨i,hi⟩ := List.mem_iff_getElem?.mp htp
    obtain ⟨⟨d,hd,hname⟩,-⟩ := h.settings i tp hi
    rw [h.threads_iff htp,← settled_isSome,← settled_congr hname]
    exact hall d hd

/-- The pools with the settings of the default one filled in. -/
theorem configured (h : Registered atoi ds pools)
    (hall : ∀ tp ∈ pools, tp.threads ≠ 0 ∨ sameStr tp.name threadPoolDefault = true) :
    Configured atoi ds (pools.map withDefault) := by
  refine ⟨fun i j a b hij ha hb => ?_,fun d hd => ?_,fun tp htp => ?_,fun tp htp => ?_,fun tp htp => ?_⟩
  · rw [List.getElem?_map,Option.map_eq_some_iff] at ha hb
    obtain ⟨a',ha,rfl⟩ := ha
    obtain ⟨b',hb,rfl⟩ := hb
    rw [withDefault_name,withDefault_name]
    exact h.distinct i j a' b' hij ha hb
  · obtain ⟨i,tp,hi,hname⟩ := h.named d hd
    exact ⟨withDefault tp,List.mem_map_of_mem (List.mem_of_getElem? hi),by rwa [withDefault_name]⟩
  all_goals
    obtain ⟨tp,hmem,rfl⟩ := List.mem_map.mp htp
    obtain ⟨i,hi⟩ := List.mem_iff_getElem?.mp hmem
    obtain ⟨hused,hset⟩ := h.settings i tp hi
  · rwa [withDefault_name]
  · rw [withDefault_name,settled]
    by_cases hthreads : tp.threads ≠ 0
    · obtain ⟨a,ha⟩ := Option.ne_none_iff_exists'.mp ((h.threads_iff hmem).mp hthreads)
      rw [ha] at hset ⊢
      rw [withDefault,if_pos hthreads,hset]
      rfl
    · have hnone := not_not.mp fun hne => hthreads ((h.threads_iff hmem).mpr hne)
      rw [hnone,(hall tp hmem).resolve_left hthreads,withDefault,if_neg hthreads]
      rfl
  · unfold withDefault
    split
    · assumption
    · exact Nat.succ_ne_zero _

end Registered

theorem Configured.of_configure {pools : List PoolConf} (h : configure atoi ds = .ok pools) : Configured atoi ds pools := by
  unfold configure at h
  cases hlist : ds.foldlM (Directive.apply atoi) [] with
  | error e =>
    rw [hlist] at h
    cases h
  | ok list =>
    rw [hlist] at h
    obtain ⟨hall,heq⟩ := (initPools_ok _ _).mp h
    rw [heq]
    exact (Registered.nil.of_apply hlist).configured hall

/-- When the allocations succeed, the configuration succeeds exactly when every directive is well formed, no name is
declared twice, and every name that is used is declared or the default one. Then each name has one pool with its
settings. -/
theorem configure_ok (atoi : Str → Option ℕ) (ds : List Directive) (hserved : ∀ d ∈ ds, d.Served) :
    ((∃ pools, configure atoi ds = .ok pools) ↔ (∀ d ∈ ds, d.WellFormed atoi) ∧ Single ds ∧
      ∀ d ∈ ds, (settled atoi ds d.name).isSome = true) ∧
    ∀ pools, configure atoi ds = .ok pools → Configured atoi ds pools := by
  refine ⟨?_,fun pools => .of_configure⟩
  have hfold : (∃ list, ds.foldlM (Directive.apply atoi) [] = .ok list) ↔ (∀ d ∈ ds, d.WellFormed atoi) ∧ Single ds :=
    Registered.nil.all_ok hserved
  unfold configure
  cases hlist : ds.foldlM (Directive.apply atoi) [] with
  | error e =>
    rw [hlist] at hfold
    refine ⟨fun ⟨pools,h⟩ => ?_,fun ⟨hwell,hsingle,_⟩ => ?_⟩
    · cases h
    · obtain ⟨list,h⟩ := hfold.mpr ⟨hwell,hsingle⟩
      cases h
  | ok list =>
    have hreg := Registered.nil.of_apply hlist
    obtain ⟨hwell,hsingle⟩ := hfold.mp ⟨list,hlist⟩
    change (∃ pools, list.mapM initPool = .ok pools) ↔ _
    simp only [initPools_ok,exists_and_left,exists_eq,and_true,hreg.accepted_iff]
    exact ⟨fun hall => ⟨hwell,hsingle,hall⟩,fun hall => hall.2.2⟩

/-- The number that a text of digits stands for. -/
def decimal (text : Str) : Option ℕ :=
  if text = [] then none
  else text.foldlM (fun n c => if 48 ≤ c ∧ c ≤ 57 then some (n*10 + (c.toNat - 48)) else none) 0

/-- The default pool, a pool with two threads, and one more use of it. -/
def twoPools : List Directive :=
  [.use ⟨ascii "nginx.conf",3,true,true⟩ none,
    .pool ⟨ascii "nginx.conf",4,true,true⟩ (ascii "aio") [ascii "threads=2",ascii "max_queue=5"],
    .use ⟨ascii "nginx.conf",7,true,true⟩ (some (ascii "aio"))]

theorem configure_ok_two : configure decimal twoPools =
      .ok [⟨threadPoolDefault,32,65536,ascii "nginx.conf",3⟩,⟨ascii "aio",2,5,ascii "nginx.conf",4⟩] ∧
    Single twoPools ∧ ∀ d ∈ twoPools, (settled decimal twoPools d.name).isSome = true := by
  have hpools : configure decimal twoPools =
      .ok [⟨threadPoolDefault,32,65536,ascii "nginx.conf",3⟩,⟨ascii "aio",2,5,ascii "nginx.conf",4⟩] := by decide +kernel
  exact ⟨hpools,((configure_ok decimal twoPools (by simp [twoPools,Directive.Served])).1.mp ⟨_,hpools⟩).2⟩

end InsideNginx.ThreadPool
