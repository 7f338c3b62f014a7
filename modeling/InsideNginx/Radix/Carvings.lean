import InsideNginx.Radix.Deletion

/-! Every node that was ever carved from a page is either in the tree or on the free list. The runs
are recorded with the calls of `ngx_radix_alloc` that carve. -/
namespace InsideNginx.Radix
variable {pagesize : ℕ} {page : ℕ → Option ℕ} {heap : ℕ → RadixNode} {levels : ℤ} {t : RadixTree}
  {free : List ℕ} {key mask : BitVec 32} {n : ℕ}

/-- A call of `ngx_radix_alloc` that carves a node: the node, and the free list at the call. -/
structure Carving where
  node : ℕ
  freeList : Option ℕ
  deriving DecidableEq, Repr

/-! ### The carvings of each operation -/

/-- What a call of `ngx_radix_alloc` carves: it returns a node, and takes memory for it. -/
def allocCarvings (pagesize : ℕ) (page : ℕ → Option ℕ) (t : RadixTree) : List Carving :=
  match radixAlloc pagesize page t with
  | (none,_) => []
  | (some c,t') => if t'.memory = t.memory then [] else [⟨c,t.freeList⟩]

/-- What the second loop of `ngx_radix32tree_insert` carves. -/
def extendCarvings (pagesize : ℕ) (page : ℕ → Option ℕ) (key mask : BitVec 32) :
    ℕ → BitVec 32 → ℕ → RadixTree → List Carving
  | 0,_,_,_ => []
  | fuel+1,bit,node,t =>
    if bit &&& mask = 0 then []
    else allocCarvings pagesize page t ++ match radixAlloc pagesize page t with
      | (none,_) => []
      | (some next,t) =>
        extendCarvings pagesize page key mask fuel (bit >>> 1) next
          (t.link node (decide (key &&& bit ≠ 0)) next)

/-- What `ngx_radix32tree_insert` carves. -/
def insertCarvings (pagesize : ℕ) (page : ℕ → Option ℕ) (t : RadixTree) (key mask : BitVec 32) :
    List Carving :=
  match t.root with
  | none => []
  | some root =>
    match insertDescend t.heap key mask 33 topBit root with
    | .ok (bit,node,none) => extendCarvings pagesize page key mask 33 bit node t
    | _ => []

/-- What the loop over the keys of one preallocated level carves. -/
def preallocateLevelCarvings (pagesize : ℕ) (page : ℕ → Option ℕ) (mask inc : BitVec 32) :
    ℕ → BitVec 32 → RadixTree → List Carving
  | 0,_,_ => []
  | fuel+1,key,t =>
    insertCarvings pagesize page t key mask ++ match radix32treeInsert pagesize page t key mask noValue with
      | .ok (.ok,t) =>
        if key + inc = 0 then []
        else preallocateLevelCarvings pagesize page mask inc fuel (key + inc) t
      | _ => []

/-- What the loop over the preallocated levels carves. -/
def preallocateCarvings (pagesize : ℕ) (page : ℕ → Option ℕ) :
    ℕ → BitVec 32 → BitVec 32 → RadixTree → List Carving
  | 0,_,_,_ => []
  | levels+1,mask,inc,t =>
    let mask := mask >>> 1 ||| topBit
    preallocateLevelCarvings pagesize page mask inc (2^32) 0 t ++
      match preallocateLevel pagesize page mask inc (2^32) 0 t with
      | .ok (some t) => preallocateCarvings pagesize page levels mask (inc >>> 1) t
      | _ => []

/-- What `ngx_radix_tree_create` carves. -/
def createCarvings (pagesize : ℕ) (page : ℕ → Option ℕ) (heap : ℕ → RadixNode) (levels : ℤ) : List Carving :=
  let t := ⟨heap,0,none,none,none,0⟩
  allocCarvings pagesize page t ++ match radixAlloc pagesize page t with
    | (none,_) => []
    | (some root,t) =>
      preallocateCarvings pagesize page (if levels = -1 then defaultLevels pagesize else levels.toNat) 0 topBit
        { t.store root ⟨none,none,none,noValue⟩ with root := some root }

/-- A tree with everything that was carved for it. -/
structure Ledger where
  tree : RadixTree
  carvings : List Carving

/-- The nodes that were ever carved. -/
def Ledger.nodes (s : Ledger) : List ℕ := s.carvings.map Carving.node

/-- A call that returns. Deletion does not allocate. -/
def Ledger.step (pagesize : ℕ) (page : ℕ → Option ℕ) (s : Ledger) (call : Call) : Option Ledger :=
  (s.tree.step pagesize page call).map fun t => ⟨t,s.carvings ++ match call with
    | .insert key mask _ => insertCarvings pagesize page s.tree key mask
    | .delete _ _ => []⟩

/-- The runs of calls on a created tree, with what they carve. -/
def ledger (pagesize : ℕ) (page : ℕ → Option ℕ) (heap : ℕ → RadixNode) (levels : ℤ) :
    TransitionSystem Ledger Call :=
  .ofFunction (fun s => radixTreeCreate true pagesize page heap levels = .ok (some s.tree) ∧
    s.carvings = createCarvings pagesize page heap levels) (Ledger.step pagesize page)

/-! ### The account -/

/-- The carved nodes are those in use and those on the free list. No two of them overlap, and each
was carved when the free list was empty. -/
structure Accounted (used : ℕ → Prop) (free : List ℕ) (carvings : List Carving) : Prop where
  nodes : ∀ a, a ∈ carvings.map Carving.node ↔ used a ∨ a ∈ free
  apart : carvings.Pairwise fun e e' => Apart e.node e'.node
  exhausted : ∀ e ∈ carvings, e.freeList = none

/-- A well-formed tree with the account of its nodes. -/
def Tracked (pagesize : ℕ) (page : ℕ → Option ℕ) (t : RadixTree) (carvings : List Carving) : Prop :=
  ∃ free, WellFormed pagesize page t free ∧ Accounted t.Reached free carvings

theorem Accounted.congr {used used' : ℕ → Prop} {free free' : List ℕ} {carvings : List Carving}
    (h : Accounted used free carvings) (hsame : ∀ a, used' a ∨ a ∈ free' ↔ used a ∨ a ∈ free) :
    Accounted used' free' carvings :=
  ⟨fun a => by rw [hsame]; exact h.nodes a,h.apart,h.exhausted⟩

/-- One call of `ngx_radix_alloc` keeps the account. -/
theorem Accounted.alloc (hpages : FreshPages pagesize page) (hpagesize : nodeSize ≤ pagesize)
    {used : ℕ → Prop} {carvings : List Carving} (hall : Allocated pagesize page t used free)
    (h : Accounted used free carvings) :
    (∃ t', radixAlloc pagesize page t = (none,t') ∧ t'.heap = t.heap ∧ t'.root = t.root ∧
      Allocated pagesize page t' used free ∧ Accounted used free (carvings ++ allocCarvings pagesize page t)) ∨
    ∃ c t' free', radixAlloc pagesize page t = (some c,t') ∧ ¬ used c ∧ t'.heap = t.heap ∧ t'.root = t.root ∧
      Allocated pagesize page t' (fun a => used a ∨ a = c) free' ∧
      Accounted (fun a => used a ∨ a = c) free' (carvings ++ allocCarvings pagesize page t) := by
  rcases radixAlloc_spec hpages hpagesize hall with
    ⟨t',halloc,hheap,hroot,-,-,hall'⟩ | ⟨c,t',free',halloc,hc,hheap,hroot,-,hall',hcarve⟩
  · refine .inl ⟨t',halloc,hheap,hroot,hall',?_⟩
    simpa [allocCarvings,halloc] using h
  · refine .inr ⟨c,t',free',halloc,hc,hheap,hroot,hall',?_⟩
    rcases hcarve with ⟨hmemory,rfl⟩ | ⟨hmemory,hempty,rfl,rfl,hapart⟩
    · -- a node moves from the free list into use
      have hsame : Accounted (fun a => used a ∨ a = c) free' carvings :=
        h.congr fun a => by rw [List.mem_cons]; tauto
      simpa [allocCarvings,halloc,hmemory] using hsame
    · -- a node is carved, apart from all nodes in use
      simp only [allocCarvings,halloc,if_neg hmemory]
      refine ⟨fun a => ?_,?_,?_⟩
      · have hnodes := h.nodes a
        simp only [List.map_append,List.mem_append,List.map_cons,List.map_nil,List.mem_singleton,hnodes,
          List.not_mem_nil,or_false]
      · refine List.pairwise_append.mpr ⟨h.apart,List.pairwise_singleton ..,fun e he e' he' => ?_⟩
        obtain rfl := List.mem_singleton.mp he'
        have hused := (h.nodes e.node).mp (List.mem_map_of_mem he)
        exact hapart _ (by simpa using hused)
      · intro e he
        rcases List.mem_append.mp he with he | he
        · exact h.exhausted e he
        · obtain rfl := List.mem_singleton.mp he
          exact hempty

/-- The second loop of the insertion keeps the account. -/
theorem extend_tracked (hpages : FreshPages pagesize page) (hpagesize : nodeSize ≤ pagesize) (hn : n ≤ 32)
    {fuel i a : ℕ} {carvings : List Carving} (h : Tracked pagesize page t carvings) (hi : i ≤ n)
    (hfuel : n + 1 ≤ fuel + i) (ha : t.walk (path key i) = some a)
    (hnone : i < n → t.walk (path key (i+1)) = none) :
    ∃ r t', insertExtend pagesize page key (prefixMask n) fuel (topBit >>> i) a t = .ok (r,t') ∧
      Tracked pagesize page t'
        (carvings ++ extendCarvings pagesize page key (prefixMask n) fuel (topBit >>> i) a t) ∧
      ∀ c, r = some c → t'.walk (path key n) = some c := by
  induction fuel generalizing i a t carvings with
  | zero => omega
  | succ fuel ih =>
    rw [insertExtend,extendCarvings]
    by_cases hin : n ≤ i
    · obtain rfl : i = n := by omega
      rw [if_pos ((and_prefixMask hn hn).mpr le_rfl),if_pos ((and_prefixMask hn hn).mpr le_rfl),List.append_nil]
      exact ⟨some a,t,rfl,h,fun c hc => Option.some.inj hc ▸ ha⟩
    · have hin' : ¬ topBit >>> i &&& prefixMask n = 0 := fun hz => hin ((and_prefixMask (by omega) hn).mp hz)
      rw [if_neg hin',if_neg hin',← List.append_assoc]
      obtain ⟨free,hwf,hacc⟩ := h
      rcases hacc.alloc hpages hpagesize hwf.allocated with
        ⟨t',halloc,hheap,hroot,hall,hacc'⟩ | ⟨c,t',free',halloc,hc,hheap,hroot,hall,hacc'⟩
      · have hreached : ∀ a, t'.Reached a ↔ t.Reached a := fun a => by
          simp only [RadixTree.Reached,walk_congr hheap hroot]
        refine ⟨none,t',by rw [halloc],⟨free,hwf.starved hheap hroot hall,?_⟩,by simp⟩
        rw [halloc,List.append_nil]
        exact hacc'.congr fun a => by rw [hreached]
      · obtain ⟨hwf',hwalk,-⟩ := hwf.link (by omega) ha (hnone (by omega)) hheap hroot hc hall
        have htracked : Tracked pagesize page (t'.link a (key.getMsbD i) c)
            (carvings ++ allocCarvings pagesize page t) :=
          ⟨free',hwf',hacc'.congr fun d => by rw [reached_add (hnone (by omega)) hwalk]⟩
        have hc' : (t'.link a (key.getMsbD i) c).walk (path key (i+1)) = some c := by simp [hwalk]
        obtain ⟨r,t'',hrun,htracked',hend⟩ := ih htracked (by omega) (by omega) hc'
          fun hlt => walk_below_link (by omega) (hnone (by omega)) hwalk
        rw [halloc,shift_shift,and_topBit key (by omega)]
        exact ⟨r,t'',hrun,htracked',hend⟩

/-- A stored value changes no link. -/
theorem Tracked.storeValue {carvings : List Carving} {p : List Bool} {a : ℕ} (h : Tracked pagesize page t carvings)
    (ha : t.walk p = some a) (v : BitVec 64) :
    Tracked pagesize page (t.store a { t.heap a with value := v }) carvings := by
  obtain ⟨free,hwf,hacc⟩ := h
  obtain ⟨hwf',hwalk,-⟩ := hwf.storeValue ha v
  exact ⟨free,hwf',hacc.congr fun d => by simp only [RadixTree.Reached,hwalk]⟩

theorem extendCarvings_mask {fuel i a : ℕ} (hi : i ≤ leadingOnes mask) :
    extendCarvings pagesize page key mask fuel (topBit >>> i) a t =
      extendCarvings pagesize page key (prefixMask (leadingOnes mask)) fuel (topBit >>> i) a t := by
  induction fuel generalizing i a t with
  | zero => rfl
  | succ fuel ih =>
    rw [extendCarvings,extendCarvings]
    by_cases hz : topBit >>> i &&& mask = 0
    · rw [if_pos hz,if_pos ((and_mask hi).mp hz)]
    · rw [if_neg hz,if_neg (mt (and_mask hi).mpr hz),shift_shift]
      have hlt := lt_leadingOnes hi hz
      rcases radixAlloc pagesize page t with ⟨_ | next,t'⟩
      · rfl
      · simp only [ih hlt]

theorem insertCarvings_mask (t : RadixTree) (key mask : BitVec 32) :
    insertCarvings pagesize page t key mask =
      insertCarvings pagesize page t key (prefixMask (leadingOnes mask)) := by
  unfold insertCarvings
  cases t.root with
  | none => rfl
  | some r =>
    simp only
    rw [show topBit = topBit >>> 0 from rfl,insertDescend_mask (Nat.zero_le _)]
    cases hrun : insertDescend t.heap key (prefixMask (leadingOnes mask)) 33 (topBit >>> 0) r with
    | error e => rfl
    | ok found =>
      obtain ⟨bit,node,next⟩ := found
      cases next with
      | some next => rfl
      | none =>
        obtain ⟨j,hj,rfl⟩ := insertDescend_bit (Nat.zero_le _) (leadingOnes_le mask) hrun
        exact extendCarvings_mask hj

/-- Insertion keeps the account. -/
theorem insert_tracked (hpages : FreshPages pagesize page) (hpagesize : nodeSize ≤ pagesize)
    {carvings : List Carving} (h : Tracked pagesize page t carvings) (key mask : BitVec 32) (value : BitVec 64) :
    ∃ rc t', radix32treeInsert pagesize page t key mask value = .ok (rc,t') ∧
      Tracked pagesize page t' (carvings ++ insertCarvings pagesize page t key mask) := by
  rw [radix32treeInsert_mask,insertCarvings_mask]
  have hn := leadingOnes_le mask
  obtain ⟨r,hr,-⟩ := h.choose_spec.1.shaped.root
  have hroot : t.walk (path key 0) = some r := by simpa using hr
  rw [radix32treeInsert,insertCarvings,hr]
  simp only [orFault,bind,Except.bind,pure,Except.pure]
  rw [show topBit = topBit >>> 0 from rfl]
  rcases insertDescend_spec hn (Nat.zero_le _) (show leadingOnes mask + 1 ≤ 33 + 0 by omega) hroot with
    ⟨a,ha,hdescend⟩ | ⟨j,a,hj,ha,hnone,hdescend⟩
  · simp only [hdescend,List.append_nil]
    by_cases hv : (t.heap a).value = noValue
    · exact ⟨.ok,_,by rw [if_neg (by simpa using hv)],h.storeValue ha value⟩
    · exact ⟨.busy,t,by rw [if_pos hv],h⟩
  · obtain ⟨r,t',hextend,htracked,hend⟩ := extend_tracked hpages hpagesize hn h hj.le
      (show leadingOnes mask + 1 ≤ 33 + j by omega) ha fun _ => hnone
    simp only [hdescend,hextend]
    cases r with
    | none => exact ⟨.error,t',rfl,htracked⟩
    | some c => exact ⟨.ok,_,rfl,htracked.storeValue (hend c rfl) value⟩

theorem preallocateLevel_tracked (hpages : FreshPages pagesize page) (hpagesize : nodeSize ≤ pagesize)
    {inc : BitVec 32} {fuel : ℕ} {carvings : List Carving} (h : Tracked pagesize page t carvings) {t' : RadixTree}
    (hrun : preallocateLevel pagesize page mask inc fuel key t = .ok (some t')) :
    Tracked pagesize page t' (carvings ++ preallocateLevelCarvings pagesize page mask inc fuel key t) := by
  induction fuel generalizing key t carvings with
  | zero => cases hrun
  | succ fuel ih =>
    obtain ⟨rc,t₁,hinsert,htracked⟩ := insert_tracked hpages hpagesize h key mask noValue
    simp only [preallocateLevel,hinsert,bind,Except.bind,pure,Except.pure] at hrun
    simp only [preallocateLevelCarvings,hinsert,← List.append_assoc]
    cases rc with
    | error => cases hrun
    | busy => cases hrun
    | ok =>
      by_cases hz : key + inc = 0
      · simp only [if_pos hz,List.append_nil] at hrun ⊢
        cases hrun
        exact htracked
      · simp only [if_neg hz] at hrun ⊢
        exact ih htracked hrun

theorem preallocate_tracked (hpages : FreshPages pagesize page) (hpagesize : nodeSize ≤ pagesize)
    {inc : BitVec 32} {levels : ℕ} {carvings : List Carving} (h : Tracked pagesize page t carvings) {t' : RadixTree}
    (hrun : preallocate pagesize page levels mask inc t = .ok (some t')) :
    Tracked pagesize page t' (carvings ++ preallocateCarvings pagesize page levels mask inc t) := by
  induction levels generalizing mask inc t carvings with
  | zero =>
    cases hrun
    simpa [preallocateCarvings] using h
  | succ levels ih =>
    simp only [preallocate,bind,Except.bind,pure,Except.pure] at hrun
    simp only [preallocateCarvings,← List.append_assoc]
    cases hlevel : preallocateLevel pagesize page (mask >>> 1 ||| topBit) inc (2^32) 0 t with
    | error e => rw [hlevel] at hrun; cases hrun
    | ok made =>
      cases made with
      | none => rw [hlevel] at hrun; cases hrun
      | some t₁ =>
        rw [hlevel] at hrun
        exact ih (preallocateLevel_tracked hpages hpagesize h hlevel) hrun

/-- The account of a created tree. -/
theorem create_tracked (hpages : FreshPages pagesize page) (hpagesize : nodeSize ≤ pagesize)
    (h : radixTreeCreate true pagesize page heap levels = .ok (some t)) :
    Tracked pagesize page t (createCarvings pagesize page heap levels) := by
  have hempty : Accounted (fun _ => False) [] [] := ⟨by simp,.nil,by simp⟩
  simp only [radixTreeCreate,if_pos] at h
  rcases hempty.alloc hpages hpagesize (Allocated.empty heap) with
    ⟨t₁,halloc,-⟩ | ⟨r,t₁,free,halloc,-,-,-,hall,hacc⟩
  · simp [halloc] at h
  · obtain ⟨hwf,hroot,-⟩ := created_root hall
    have htracked : Tracked pagesize page { t₁.store r ⟨none,none,none,noValue⟩ with root := some r }
        (allocCarvings pagesize page ⟨heap,0,none,none,none,0⟩) :=
      ⟨free,hwf,hacc.congr fun a => by rw [hroot]; simp⟩
    simp only [halloc] at h
    simp only [createCarvings,halloc]
    by_cases hdefault : levels = -1
    · rw [if_pos hdefault] at h ⊢
      exact preallocate_tracked hpages hpagesize htracked h
    · rw [if_neg hdefault] at h ⊢
      by_cases hneg : levels < 0
      · rw [if_pos hneg] at h
        cases h
      · rw [if_neg hneg] at h
        exact preallocate_tracked hpages hpagesize htracked h

/-! ### Runs -/

theorem ledger_tracked (hpages : FreshPages pagesize page) (hpagesize : nodeSize ≤ pagesize) {s : Ledger}
    (h : (ledger pagesize page heap levels).Reachable s) : Tracked pagesize page s.tree s.carvings := by
  refine h.invariant (I := fun s => Tracked pagesize page s.tree s.carvings) ?_ ?_
  · rintro s ⟨hcreate,hcarvings⟩
    rw [hcarvings]
    exact create_tracked hpages hpagesize hcreate
  · rintro s call s' - htracked hstep
    change s.step pagesize page call = some s' at hstep
    obtain ⟨t,ht,rfl⟩ := Option.map_eq_some_iff.mp hstep
    cases call with
    | insert key mask value =>
      obtain ⟨rc,t',hinsert,htracked'⟩ := insert_tracked hpages hpagesize htracked key mask value
      rw [RadixTree.step,hinsert] at ht
      obtain rfl := Option.some.inj ht
      exact htracked'
    | delete key mask =>
      obtain ⟨free,hwf,hacc⟩ := htracked
      cases hrun : radix32treeDelete s.tree key mask with
      | error e =>
        rw [RadixTree.step,hrun] at ht
        cases ht
      | ok found =>
        obtain ⟨free',hwf',-,-,hnodes⟩ := radix32treeDelete_wellFormed hwf hrun
        rw [RadixTree.step,hrun] at ht
        obtain rfl := Option.some.inj ht
        rw [List.append_nil]
        exact ⟨free',hwf',hacc.congr hnodes⟩

/-- No node is lost and none is shared: what was ever carved is in the tree or on the free list,
inside its page and apart from every other node, and nothing is carved while the free list has a
node. -/
theorem nodes_conserved (hpages : FreshPages pagesize page) (hpagesize : nodeSize ≤ pagesize) {s : Ledger}
    (h : (ledger pagesize page heap levels).Reachable s) :
    ∃ free, FreeChain s.tree.heap s.tree.freeList free ∧ free.Nodup ∧
      (∀ a ∈ s.nodes, Xor (s.tree.Reached a) (a ∈ free)) ∧
      (∀ a, s.tree.Reached a ∨ a ∈ free → a ∈ s.nodes) ∧ (∀ a ∈ free, ¬ s.tree.Reached a) ∧
      (∀ a ∈ s.nodes, ∃ i q, page i = some q ∧ q ≤ a ∧ a + nodeSize ≤ q + pagesize) ∧
      s.nodes.Pairwise Apart ∧ ∀ e ∈ s.carvings, e.freeList = none := by
  obtain ⟨free,hwf,hacc⟩ := ledger_tracked hpages hpagesize h
  have hall := hwf.allocated
  refine ⟨free,hall.chain,hall.nodup,fun a ha => ?_,fun a ha => (hacc.nodes a).mpr ha,hall.apart,fun a ha => ?_,
    List.pairwise_map.mpr hacc.apart,hacc.exhausted⟩
  · rcases (hacc.nodes a).mp ha with hreached | hfree
    · exact .inl ⟨hreached,fun hfree => hall.apart a hfree hreached⟩
    · exact .inr ⟨hfree,hall.apart a hfree⟩
  · obtain ⟨i,-,q,hq⟩ := (hall.carved a ((hacc.nodes a).mp ha)).inPage
    exact ⟨i,q,hq⟩

/-- The third page fails: half a path stays attached until a deletion frees it. -/
theorem nodes_conserved_starved : ∃ s : Ledger,
    (ledger 64 (fun k => if k = 2 then none else some (64*k)) (fun _ => ⟨none,none,none,0⟩) 0).Reachable s ∧
    s.nodes = [0,32,64,96,192] ∧ s.tree.freeList = some 32 ∧ s.nodes.Pairwise Apart ∧
    ∃ free, FreeChain s.tree.heap s.tree.freeList free ∧ ∀ a ∈ s.nodes, Xor (s.tree.Reached a) (a ∈ free) := by
  have hpages : FreshPages 64 fun k => if k = 2 then none else some (64*k) := by
    intro i j p q hij hp hq
    simp only [Option.ite_none_left_eq_some,Option.some.injEq] at hp hq
    omega
  obtain ⟨t,ht⟩ : ∃ t, radixTreeCreate true 64 (fun k => if k = 2 then none else some (64*k))
    (fun _ => ⟨none,none,none,0⟩) 0 = .ok (some t) := ⟨_,rfl⟩
  have hrun : (TransitionSystem.replay (Ledger.step 64 fun k => if k = 2 then none else some (64*k))
      ⟨t,createCarvings 64 (fun k => if k = 2 then none else some (64*k)) (fun _ => ⟨none,none,none,0⟩) 0⟩
      [.insert 0x80000000#32 0xF0000000#32 7#64,.insert 0 0x80000000#32 9#64,
        .delete 0x80000000#32 0xE0000000#32]).map (fun s => (s.nodes,s.tree.freeList)) =
        some ([0,32,64,96,192],some 32) := by
    obtain rfl := Option.some.inj (Except.ok.inj ht)
    decide +kernel
  obtain ⟨s,hs,hsame⟩ := Option.map_eq_some_iff.mp hrun
  obtain ⟨hnodes,hfree⟩ := Prod.mk.inj hsame
  have hreach : (ledger 64 (fun k => if k = 2 then none else some (64*k))
      (fun _ => ⟨none,none,none,0⟩) 0).Reachable s := .of_replay (.init ⟨ht,rfl⟩) hs
  obtain ⟨free,hchain,-,hexact,-,-,-,hapart,-⟩ := nodes_conserved hpages (by decide) hreach
  exact ⟨s,hreach,hnodes,hfree,hapart,free,hchain,hexact⟩

end InsideNginx.Radix
