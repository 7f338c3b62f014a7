import InsideNginx.Cycle.Zones
import InsideNginx.Lists.Pushes

/-! The declarations of shared memory zones, which are kept in a list of the cycle. -/
namespace InsideNginx.Cycle
open Palloc InsideNginx.Lists PartChain

/-- `ngx_shm_zone_t` while zones are declared. -/
structure ZoneEntry extends ShmZone where
  init : Option ℕ
  deriving DecidableEq, Repr

/-- A turn of the loop in `ngx_shared_memory_add`, for the zone at `a`. -/
def lookup (name : Str) (size tag a : ℕ) (zones : ℕ → ZoneEntry) : (ℕ → ZoneEntry) × Option (Option ℕ) :=
  let zone := zones a
  if name.length ≠ zone.name.length then (zones,none)
  else if strncmpEq name zone.name = false then (zones,none)
  else if tag ≠ zone.tag then (zones,some none)
  else
    let zones := if zone.size = 0 then Function.update zones a { zone with size := size } else zones
    if size ≠ 0 ∧ size ≠ (zones a).size then (zones,some none)
    else (zones,some (some a))

/-- The fields that are written to a new zone. -/
def newZone (name : Str) (size tag : ℕ) (zone : ZoneEntry) : ZoneEntry :=
  { zone with data := none, size := size, name := name, existing := false, init := none, tag := tag, noreuse := false }

/-- What a call of `ngx_shared_memory_add` returns and leaves. -/
structure Declared where
  zone : Option ℕ
  pool : Pool
  list : NgxList
  zones : ℕ → ZoneEntry

/-- `ngx_shared_memory_add`. -/
def sharedMemoryAdd (align fuel : ℕ) (pool : Pool) (l : NgxList) (zones : ℕ → ZoneEntry) (name : Str) (size tag : ℕ)
    (first second : Grant) : Except Fault Declared :=
  match iterate l (lookup name size tag) fuel zones with
  | .error e => .error e
  | .ok (zones,some zone) => .ok ⟨zone,pool,l,zones⟩
  | .ok (zones,none) =>
    match listPush align pool l first second with
    | (none,pool,l) => .ok ⟨none,pool,l,zones⟩
    | (some a,pool,l) => .ok ⟨some a,pool,l,Function.update zones a (newZone name size tag (zones a))⟩

/-- The zones of a cycle, and the sizes that were requested of each by the calls that returned it. -/
structure Declaring where
  pool : Pool
  list : NgxList
  others : List Region
  zones : ℕ → ZoneEntry
  requests : List (ℕ × ℕ)

inductive DeclareOp
  | add (name : Str) (size tag : ℕ) (first second : Grant)
  | palloc (aligned : Bool) (size : ℕ) (g : Grant)

namespace Declaring

/-- The list alone. -/
def listing (s : Declaring) : Listing := ⟨s.pool,some s.list,[],s.others⟩

def step (align : ℕ) (s : Declaring) : DeclareOp → Declaring → Prop
  | .add name size tag first second,s' => 0 ∉ name ∧ s.listing.Fresh align (.push first second) ∧
    ∃ fuel d, sharedMemoryAdd align fuel s.pool s.list s.zones name size tag first second = .ok d ∧
      s' = ⟨d.pool,d.list,s.others,d.zones,s.requests ++ d.zone.toList.map (·,size)⟩
  | .palloc aligned size g,s' => s.listing.Fresh align (.palloc aligned size g) ∧
    let result := pallocAs aligned align s.pool size g.block g.chunk
    s' = { s with pool := result.2, others := blocksOf result.1 size ++ s.others }

end Declaring

/-- The declarations in a cycle, from a new list on. -/
def declaring (align pagesize size : ℕ) : TransitionSystem Declaring DeclareOp where
  init s := (listing align pagesize size).Reachable s.listing ∧ s.requests = []
  step := Declaring.step align

/-! ### One call -/

/-- A declaration agrees with an earlier one of the name. -/
def ZoneEntry.Permits (zone : ZoneEntry) (size tag : ℕ) : Prop :=
  tag = zone.tag ∧ (size = 0 ∨ zone.size = 0 ∨ size = zone.size)

/-- A size that is missing is filled in. -/
def ZoneEntry.fill (zone : ZoneEntry) (size : ℕ) : ZoneEntry :=
  { zone with size := if zone.size = 0 then size else zone.size }

variable {name : Str} {size tag a : ℕ} {zones : ℕ → ZoneEntry}

theorem lookup_other (h : sameStr name (zones a).name = false) : lookup name size tag a zones = (zones,none) := by
  unfold lookup
  unfold sameStr at h
  by_cases hlength : name.length = (zones a).name.length
  · have hdata : strncmpEq name (zones a).name = false := by simpa [hlength] using h
    simp [hlength,hdata]
  · simp [hlength]

/-- The zone with the name ends the loop. -/
theorem lookup_same (h : sameStr name (zones a).name = true) :
    (¬(zones a).Permits size tag ∧ lookup name size tag a zones = (zones,some none)) ∨
    ((zones a).Permits size tag ∧
      lookup name size tag a zones = (Function.update zones a ((zones a).fill size),some (some a))) := by
  obtain ⟨hlength,hdata⟩ : name.length = (zones a).name.length ∧ strncmpEq name (zones a).name = true := by
    simpa [sameStr] using h
  unfold lookup ZoneEntry.Permits
  by_cases htag : tag = (zones a).tag
  · by_cases hzero : (zones a).size = 0
    · refine .inr ⟨⟨htag,.inr (.inl hzero)⟩,?_⟩
      simp [hlength,hdata,htag,hzero,ZoneEntry.fill]
    · have hfill : Function.update zones a ((zones a).fill size) = zones := by
        rw [ZoneEntry.fill,if_neg hzero]
        exact Function.update_eq_self ..
      rw [hfill]
      by_cases hsize : size = 0 ∨ size = (zones a).size
      · refine .inr ⟨⟨htag,hsize.imp_right .inr⟩,?_⟩
        have hpass : ¬(size ≠ 0 ∧ size ≠ (zones a).size) := by tauto
        simp [hlength,hdata,htag,hzero,hpass]
      · refine .inl ⟨by tauto,?_⟩
        obtain ⟨hne,hne'⟩ := not_or.mp hsize
        simp [hlength,hdata,htag,hzero,hne,hne']
  · exact .inl ⟨fun h => htag h.1,by simp [hlength,hdata,htag]⟩

/-- What a call can do: the zones of a list before and after it, and the zone that it returns. -/
inductive Answer (slots : List ℕ) (zones : ℕ → ZoneEntry) (name : Str) (size tag : ℕ) :
    Option ℕ → List ℕ → (ℕ → ZoneEntry) → Prop
  | existing {a : ℕ} (ha : a ∈ slots) (hname : sameStr name (zones a).name = true) (h : (zones a).Permits size tag) :
    Answer slots zones name size tag (some a) slots (Function.update zones a ((zones a).fill size))
  | conflict {a : ℕ} (ha : a ∈ slots) (hname : sameStr name (zones a).name = true) (h : ¬(zones a).Permits size tag) :
    Answer slots zones name size tag none slots zones
  | full (hname : ∀ a ∈ slots, sameStr name (zones a).name = false) : Answer slots zones name size tag none slots zones
  | new {a : ℕ} (ha : a ∉ slots) (hname : ∀ a ∈ slots, sameStr name (zones a).name = false) :
    Answer slots zones name size tag (some a) (slots ++ [a])
      (Function.update zones a (newZone name size tag (zones a)))

/-- What the loop finds. -/
theorem lookup_all (name : Str) (size tag : ℕ) (zones : ℕ → ZoneEntry) (slots : List ℕ) :
    ((∀ a ∈ slots, sameStr name (zones a).name = false) ∧ visitAll (lookup name size tag) slots zones = (zones,none)) ∨
    ∃ a ∈ slots, sameStr name (zones a).name = true ∧
      ((¬(zones a).Permits size tag ∧ visitAll (lookup name size tag) slots zones = (zones,some none)) ∨
      ((zones a).Permits size tag ∧ visitAll (lookup name size tag) slots zones =
        (Function.update zones a ((zones a).fill size),some (some a)))) := by
  cases hfind : slots.find? fun a => sameStr name (zones a).name with
  | none =>
    have hname : ∀ a ∈ slots, sameStr name (zones a).name = false := by
      simpa using List.find?_eq_none.mp hfind
    exact .inl ⟨hname,visitAll_none fun a ha => lookup_other (hname a ha)⟩
  | some a =>
    obtain ⟨hname,front,back,rfl,hfront⟩ := List.find?_eq_some_iff_append.mp hfind
    have hskip : ∀ b ∈ front, lookup name size tag b zones = (zones,none) := fun b hb =>
      lookup_other (by simpa using hfront b hb)
    refine .inr ⟨a,List.mem_append_right _ List.mem_cons_self,hname,?_⟩
    exact (lookup_same hname).imp (And.imp_right (visitAll_some hskip)) (And.imp_right (visitAll_some hskip))

/-- A result of the call does not depend on the fuel. -/
theorem sharedMemoryAdd_mono {align fuel fuel' : ℕ} (hle : fuel ≤ fuel') {pool : Pool} {l : NgxList} {first second : Grant}
    {d : Declared} (h : sharedMemoryAdd align fuel pool l zones name size tag first second = .ok d) :
    sharedMemoryAdd align fuel' pool l zones name size tag first second = .ok d := by
  unfold sharedMemoryAdd at h ⊢
  cases hrun : iterate l (lookup name size tag) fuel zones with
  | error e =>
    rw [hrun] at h
    cases h
  | ok r =>
    rw [iterate_mono hle hrun]
    rwa [hrun] at h

/-- The call returns, and does what it can do; without the name and without memory it fails. -/
theorem sharedMemoryAdd_answers {align poolSize : ℕ} (halign : align ∣ poolAlignment) (hsize : poolAlignment ∣ poolSize)
    (hmin : poolHeader ≤ poolSize) {s : Declaring} {chain : List ℕ}
    (h : s.list.Owned poolSize s.pool chain s.others) {first second : Grant}
    (hfresh : s.listing.Fresh align (.push first second)) (name : Str) (size tag : ℕ) {fuel : ℕ}
    (hfuel : (s.list.slots chain).length < fuel) :
    ∃ d chain', sharedMemoryAdd align fuel s.pool s.list s.zones name size tag first second = .ok d ∧
      d.list.Owned poolSize d.pool chain' s.others ∧
      Answer (s.list.slots chain) s.zones name size tag d.zone (d.list.slots chain') d.zones ∧
      ((∀ a ∈ s.list.slots chain, sameStr name (s.zones a).name = false) →
        d.zone = (listPush align s.pool s.list first second).1) := by
  unfold sharedMemoryAdd
  rw [iterate_eq h.chained _ hfuel]
  obtain ⟨hname,hwalk⟩ | ⟨a,ha,hname,⟨h',hwalk⟩ | ⟨h',hwalk⟩⟩ := lookup_all name size tag s.zones (s.list.slots chain)
  · rw [hwalk]
    obtain ⟨hfirst,hsecond⟩ := hfresh _ (Listing.leads rfl h.chained)
    have hpush := h.push halign hsize hmin hfirst (hsecond s.list rfl)
    dsimp only
    generalize listPush align s.pool s.list first second = result at hpush ⊢
    obtain ⟨r,pool,l⟩ := result
    cases r with
    | none => exact ⟨_,chain,rfl,hpush.2,hpush.1.slots.symm ▸ .full hname,fun _ => rfl⟩
    | some a =>
      obtain ⟨chain',howned,hslots,-,-⟩ := hpush
      refine ⟨_,chain',rfl,howned,?_,fun _ => rfl⟩
      dsimp only
      rw [hslots]
      refine .new (fun hmem => ?_) hname
      have hnodup := howned.slots_nodup
      rw [hslots] at hnodup
      exact (List.nodup_append.mp hnodup).2.2 a hmem a (List.mem_singleton_self a) rfl
  · rw [hwalk]
    exact ⟨_,chain,rfl,h,.conflict ha hname h',fun hother => absurd hname (by simp [hother a ha])⟩
  · rw [hwalk]
    exact ⟨_,chain,rfl,h,.existing ha hname h',fun hother => absurd hname (by simp [hother a ha])⟩

/-! ### Whole runs -/

/-- The size `n` of a zone is the only one but 0 that was requested successfully, or nobody has
requested one. -/
def Settled (requests : List (ℕ × ℕ)) (a n : ℕ) : Prop :=
  (∀ m, (a,m) ∈ requests → m ≠ 0 → m = n) ∧ (n ≠ 0 → (a,n) ∈ requests)

/-- The invariant of the zones of a list. -/
structure Declares (slots : List ℕ) (zones : ℕ → ZoneEntry) (requests : List (ℕ × ℕ)) : Prop where
  plain : ∀ a ∈ slots, 0 ∉ (zones a).name
  named : slots.Pairwise fun a b => sameStr (zones a).name (zones b).name = false
  settled : ∀ a ∈ slots, Settled requests a (zones a).size
  old : ∀ r ∈ requests, r.1 ∈ slots

theorem Settled.fill {requests : List (ℕ × ℕ)} {zone : ZoneEntry} (h : Settled requests a zone.size)
    (hpermits : zone.Permits size tag) : Settled (requests ++ [(a,size)]) a (zone.fill size).size := by
  obtain ⟨honly,hsome⟩ := h
  obtain ⟨-,hsize⟩ := hpermits
  unfold ZoneEntry.fill
  constructor
  · intro m hm hne
    rcases List.mem_append.mp hm with hm | hm
    · have hm := honly m hm hne
      simp only
      rwa [if_neg (hm ▸ hne)]
    · obtain rfl : m = size := congrArg Prod.snd (List.mem_singleton.mp hm)
      simp only
      split
      · rfl
      · rename_i hzero
        exact (hsize.resolve_left hne).resolve_left hzero
  · intro hne
    simp only at hne ⊢
    split
    · exact List.mem_append_right _ (List.mem_singleton_self _)
    · rename_i hzero
      exact List.mem_append_left _ (hsome hzero)

theorem Settled.other {requests : List (ℕ × ℕ)} {b n : ℕ} (h : Settled requests b n) (hne : b ≠ a) (size : ℕ) :
    Settled (requests ++ [(a,size)]) b n := by
  refine ⟨fun m hm => ?_,fun hn => List.mem_append_left _ (h.2 hn)⟩
  rcases List.mem_append.mp hm with hm | hm
  · exact h.1 m hm
  · exact absurd (congrArg Prod.fst (List.mem_singleton.mp hm)) hne

theorem Settled.new {requests : List (ℕ × ℕ)} (h : ∀ r ∈ requests, r.1 ≠ a) (size : ℕ) :
    Settled (requests ++ [(a,size)]) a size := by
  refine ⟨fun m hm _ => ?_,fun _ => List.mem_append_right _ (List.mem_singleton_self _)⟩
  rcases List.mem_append.mp hm with hm | hm
  · exact absurd rfl (h _ hm)
  · exact congrArg Prod.snd (List.mem_singleton.mp hm)

/-- Every call keeps it. -/
theorem Declares.answer {slots slots' : List ℕ} {zones' : ℕ → ZoneEntry} {requests : List (ℕ × ℕ)} {zone : Option ℕ}
    (h : Declares slots zones requests) (hplain : 0 ∉ name)
    (hanswer : Answer slots zones name size tag zone slots' zones') :
    Declares slots' zones' (requests ++ zone.toList.map (·,size)) := by
  cases hanswer with
  | @existing a ha hname hpermits =>
    have hnames : ∀ b, (Function.update zones a ((zones a).fill size) b).name = (zones b).name := by
      intro b
      by_cases hb : b = a
      · rw [hb,Function.update_self]
        rfl
      · rw [Function.update_of_ne hb]
    refine ⟨fun b hb => hnames b ▸ h.plain b hb,h.named.imp fun {b c} hbc => by rwa [hnames,hnames],fun b hb => ?_,?_⟩
    · by_cases hba : b = a
      · rw [hba,Function.update_self]
        exact (h.settled a ha).fill hpermits
      · rw [Function.update_of_ne hba]
        exact (h.settled b hb).other hba size
    · intro r hr
      rcases List.mem_append.mp hr with hr | hr
      · exact h.old r hr
      · rw [List.mem_singleton.mp hr]
        exact ha
  | conflict => simpa using h
  | full => simpa using h
  | @new a ha hname =>
    have hkeep : ∀ b ∈ slots, Function.update zones a (newZone name size tag (zones a)) b = zones b := fun b hb =>
      Function.update_of_ne (ne_of_mem_of_not_mem hb ha) _ _
    have hself : Function.update zones a (newZone name size tag (zones a)) a = newZone name size tag (zones a) :=
      Function.update_self ..
    refine ⟨fun b hb => ?_,List.pairwise_append.mpr ⟨?_,List.pairwise_singleton _ _,fun b hb c hc => ?_⟩,fun b hb => ?_,?_⟩
    · rcases List.mem_append.mp hb with hb | hb
      · rw [hkeep b hb]
        exact h.plain b hb
      · rw [List.mem_singleton.mp hb,hself]
        exact hplain
    · exact h.named.imp_of_mem fun {b c} hb hc hbc => by rwa [hkeep b hb,hkeep c hc]
    · rw [List.mem_singleton.mp hc,hself,hkeep b hb,sameStr_comm]
      exact hname b hb
    · rcases List.mem_append.mp hb with hb | hb
      · rw [hkeep b hb]
        exact (h.settled b hb).other (ne_of_mem_of_not_mem hb ha) size
      · rw [List.mem_singleton.mp hb,hself]
        exact Settled.new (fun r hr => ne_of_mem_of_not_mem (h.old r hr) ha) size
    · intro r hr
      rcases List.mem_append.mp hr with hr | hr
      · exact List.mem_append_left _ (h.old r hr)
      · rw [List.mem_singleton.mp hr]
        exact List.mem_append_right _ (List.mem_singleton_self _)

/-- The invariant: the list owns its blocks, and its zones are declared consistently. -/
structure Declaring.Sound (poolSize : ℕ) (s : Declaring) (chain : List ℕ) : Prop where
  owned : s.list.Owned poolSize s.pool chain s.others
  declares : Declares (s.list.slots chain) s.zones s.requests

/-- How a call answers, where a push would fail or not. -/
structure Consistent (slots : List ℕ) (zones : ℕ → ZoneEntry) (name : Str) (size tag : ℕ) (pushed zone : Option ℕ)
    (slots' : List ℕ) (zones' : ℕ → ZoneEntry) : Prop where
  existing : ∀ a ∈ slots, zone = some a ↔ name = (zones a).name ∧ (zones a).Permits size tag
  refused : zone = none ↔ (∃ a ∈ slots, name = (zones a).name ∧ ¬(zones a).Permits size tag) ∨
    ((∀ a ∈ slots, name ≠ (zones a).name) ∧ pushed = none)
  stays : slots <+: slots'
  unchanged : zone = none → slots' = slots ∧ zones' = zones
  settled : ∀ a ∈ slots, (zones a).size ≠ 0 → (zones' a).size = (zones a).size
  others : ∀ a ∈ slots, zone ≠ some a → zones' a = zones a
  new : ∀ a ∉ slots, zone = some a → slots' = slots ++ [a] ∧ zones' a = newZone name size tag (zones a)

theorem Declares.names_nodup {slots : List ℕ} {requests : List (ℕ × ℕ)} (h : Declares slots zones requests) :
    (slots.map fun a => (zones a).name).Nodup := by
  refine List.pairwise_map.mpr (h.named.imp fun {a b} hdiffer heq => ?_)
  rw [heq,sameStr_iff.mpr ⟨rfl,rfl⟩] at hdiffer
  cases hdiffer

theorem sameStr_eq {a b : Str} (ha : 0 ∉ a) (hb : 0 ∉ b) : sameStr a b = true ↔ a = b := by
  have hpath : ∀ {c : Str}, 0 ∉ c → path c = c := fun {c} hc =>
    List.takeWhile_eq_self_iff.mpr fun x hx => by simpa using ne_of_mem_of_not_mem hx hc
  rw [sameStr_iff,hpath ha,hpath hb]
  exact ⟨fun h => h.2,fun h => ⟨congrArg List.length h,h⟩⟩

theorem Answer.consistent {slots slots' : List ℕ} {zones' : ℕ → ZoneEntry} {requests : List (ℕ × ℕ)}
    {zone pushed : Option ℕ} (h : Declares slots zones requests) (hplain : 0 ∉ name)
    (hanswer : Answer slots zones name size tag zone slots' zones')
    (hpushed : (∀ a ∈ slots, sameStr name (zones a).name = false) → zone = pushed) :
    Consistent slots zones name size tag pushed zone slots' zones' := by
  have hsame : ∀ a ∈ slots, sameStr name (zones a).name = true ↔ name = (zones a).name := fun a ha =>
    sameStr_eq hplain (h.plain a ha)
  have hother : ∀ a ∈ slots, sameStr name (zones a).name = false ↔ name ≠ (zones a).name := fun a ha => by
    rw [← Bool.not_eq_true,hsame a ha]
  have hunique : ∀ a ∈ slots, ∀ b ∈ slots, name = (zones a).name → name = (zones b).name → a = b :=
    fun a ha b hb hna hnb => List.inj_on_of_nodup_map h.names_nodup ha hb (hna.symm.trans hnb)
  cases hanswer with
  | @existing a ha hname hpermits =>
    rw [hsame a ha] at hname
    refine ⟨fun b hb => ⟨fun heq => ?_,fun hb' => ?_⟩,?_,List.prefix_refl _,fun hnone => (by cases hnone),fun b hb hne => ?_,
      fun b hb hne => ?_,fun b hb heq => ?_⟩
    · obtain rfl := Option.some.inj heq
      exact ⟨hname,hpermits⟩
    · rw [hunique a ha b hb hname hb'.1]
    · refine ⟨fun hnone => (by cases hnone),fun hcases => ?_⟩
      obtain ⟨b,hb,hnb,hnot⟩ | ⟨habsent,-⟩ := hcases
      · exact absurd (hunique a ha b hb hname hnb ▸ hpermits) hnot
      · exact absurd hname (habsent a ha)
    · by_cases hba : b = a
      · rw [hba,Function.update_self,ZoneEntry.fill]
        simp [hba ▸ hne]
      · rw [Function.update_of_ne hba]
    · exact Function.update_of_ne (fun h => hne (by rw [h])) _ _
    · exact absurd (Option.some.inj heq ▸ ha) hb
  | @conflict a ha hname hnot =>
    rw [hsame a ha] at hname
    refine ⟨fun b hb => ⟨fun heq => (by cases heq),fun hb' => ?_⟩,⟨fun _ => .inl ⟨a,ha,hname,hnot⟩,fun _ => rfl⟩,
      List.prefix_refl _,fun _ => ⟨rfl,rfl⟩,fun _ _ _ => rfl,fun _ _ _ => rfl,fun b hb heq => (by cases heq)⟩
    exact absurd (hunique a ha b hb hname hb'.1 ▸ hb'.2) hnot
  | full hname =>
    refine ⟨fun b hb => ⟨fun heq => (by cases heq),fun hb' => ?_⟩,⟨fun _ => .inr ⟨?_,(hpushed hname).symm⟩,fun _ => rfl⟩,
      List.prefix_refl _,fun _ => ⟨rfl,rfl⟩,fun _ _ _ => rfl,fun _ _ _ => rfl,fun b hb heq => (by cases heq)⟩
    · exact absurd hb'.1 ((hother b hb).mp (hname b hb))
    · exact fun b hb => (hother b hb).mp (hname b hb)
  | @new a ha hname =>
    have hkeep : ∀ b ∈ slots, Function.update zones a (newZone name size tag (zones a)) b = zones b := fun b hb =>
      Function.update_of_ne (ne_of_mem_of_not_mem hb ha) _ _
    refine ⟨fun b hb => ⟨fun heq => ?_,fun hb' => ?_⟩,⟨fun hnone => (by cases hnone),fun hcases => ?_⟩,
      List.prefix_append _ _,fun hnone => (by cases hnone),fun b hb _ => by rw [hkeep b hb],fun b hb _ => hkeep b hb,
      fun b _ heq => ?_⟩
    · exact absurd (Option.some.inj heq ▸ hb) ha
    · exact absurd hb'.1 ((hother b hb).mp (hname b hb))
    · obtain ⟨b,hb,hnb,-⟩ | ⟨-,hnone⟩ := hcases
      · exact absurd hnb ((hother b hb).mp (hname b hb))
      · exact (hpushed hname).trans hnone
    · obtain rfl := Option.some.inj heq
      exact ⟨rfl,Function.update_self ..⟩

/-- What holds of the zones of a cycle while they are declared, and of the next call. -/
structure Declaring.Kept (align : ℕ) (s : Declaring) (slots : List ℕ) : Prop where
  visits : ∀ (σ ρ : Type) (body : ℕ → σ → σ × Option ρ) (fuel : ℕ), slots.length < fuel →
    ∀ t, iterate s.list body fuel t = .ok (visitAll body slots t)
  names : (slots.map fun a => (s.zones a).name).Nodup
  named : Named (slots.map fun a => (s.zones a).toShmZone)
  sizes : ∀ a ∈ slots, Settled s.requests a (s.zones a).size
  call : ∀ name size tag first second fuel, 0 ∉ name → s.listing.Fresh align (.push first second) →
    slots.length < fuel → ∃ d slots', sharedMemoryAdd align fuel s.pool s.list s.zones name size tag first second = .ok d ∧
      (∃ chain, d.list.Chained chain ∧ d.list.slots chain = slots') ∧
      Consistent slots s.zones name size tag (listPush align s.pool s.list first second).1 d.zone slots' d.zones

section
variable {align poolSize : ℕ} (halign : align ∣ poolAlignment) (hsize : poolAlignment ∣ poolSize)
  (hmin : poolHeader ≤ poolSize)
include halign hsize hmin

theorem Declaring.Sound.step {s s' : Declaring} {chain : List ℕ} (h : s.Sound poolSize chain) {op : DeclareOp}
    (hstep : s.step align op s') : ∃ chain', s'.Sound poolSize chain' := by
  cases op with
  | palloc aligned n g =>
    obtain ⟨hfresh,rfl⟩ := hstep
    have halloc := h.owned.owns.alloc halign hsize hmin aligned (hfresh _ (Listing.leads rfl h.owned.chained))
    exact ⟨chain,⟨h.owned.chained,h.owned.elementSize,halloc.perm (List.perm_append_comm_assoc ..)⟩,h.declares⟩
  | add name n tag first second =>
    obtain ⟨hplain,hfresh,fuel,d,hcall,rfl⟩ := hstep
    obtain ⟨d',chain',hcall',howned,hanswer,-⟩ := sharedMemoryAdd_answers halign hsize hmin h.owned hfresh name n tag
      (Nat.lt_of_lt_of_le (Nat.lt_succ_self _) (Nat.le_max_right fuel _))
    obtain rfl : d = d' := Except.ok.inj ((sharedMemoryAdd_mono (Nat.le_max_left fuel _) hcall).symm.trans hcall')
    exact ⟨chain',howned,h.declares.answer hplain hanswer⟩

theorem Declaring.Sound.kept {s : Declaring} {chain : List ℕ} (h : s.Sound poolSize chain) :
    s.Kept align (s.list.slots chain) where
  visits _ _ body _ hfuel t := iterate_eq h.owned.chained body hfuel t
  names := h.declares.names_nodup
  named := List.pairwise_map.mpr h.declares.named
  sizes := h.declares.settled
  call name n tag first second fuel hplain hfresh hfuel := by
    obtain ⟨d,chain',hcall,howned,hanswer,hpushed⟩ := sharedMemoryAdd_answers halign hsize hmin h.owned hfresh name n tag hfuel
    exact ⟨d,_,hcall,⟨chain',howned.chained,rfl⟩,hanswer.consistent h.declares hplain hpushed⟩

end

/-- The declarations of zones agree. -/
theorem zones_consistent {align pagesize size : ℕ} (halign : align ∣ poolAlignment) (hsize : poolAlignment ∣ size)
    (hheader : poolHeader ≤ size) {s : Declaring} (h : (declaring align pagesize size).Reachable s) :
    ∃ slots, s.Kept align slots := by
  have hsound : ∃ chain, s.Sound size chain := by
    refine h.invariant (I := fun s => ∃ chain, Declaring.Sound size s chain) ?_ ?_
    · rintro s ⟨hlisting,hrequests⟩
      obtain ⟨chain,howned,hslots⟩ := (listing_sound halign hsize hheader hlisting).owned rfl
      have hslots : s.list.slots chain = [] := hslots
      refine ⟨chain,howned,?_⟩
      rw [hslots,hrequests]
      exact ⟨by simp,.nil,by simp,by simp⟩
    · rintro s op s' - ⟨chain,ih⟩ hstep
      exact ih.step halign hsize hheader hstep
  obtain ⟨chain,hsound⟩ := hsound
  exact ⟨_,hsound.kept halign hsize hheader⟩

/-- A cycle without zones, whose list has room for two of them in a part. -/
def undeclared : Declaring where
  pool := ⟨[⟨1024,1176,1280,0⟩],176,0,[],[]⟩
  list := ⟨1104,1112,Function.update (fun _ => ⟨0,0,none⟩) 1112 ⟨1160,0,none⟩,8,2⟩
  others := []
  zones := fun _ => ⟨⟨[],0,0,false,0,false,none⟩,none⟩
  requests := []

/-- The zone `a` gets its size with the second declaration; two later ones conflict with it. -/
def declareOps : List DeclareOp :=
  [.add [97] 0 1 ⟨none,none⟩ ⟨none,none⟩,.add [97] 64 1 ⟨none,none⟩ ⟨none,none⟩,.add [97] 32 1 ⟨none,none⟩ ⟨none,none⟩,
    .add [98] 32 1 ⟨none,none⟩ ⟨none,none⟩,.add [97] 64 2 ⟨none,none⟩ ⟨none,none⟩,.add [99] 8 1 ⟨none,none⟩ ⟨none,none⟩]

/-- The calls with fuel for some zones. -/
def declareStep (s : Declaring) : DeclareOp → Option Declaring
  | .add name size tag first second =>
    (sharedMemoryAdd 8 10 s.pool s.list s.zones name size tag first second).toOption.map fun d =>
      ⟨d.pool,d.list,s.others,d.zones,s.requests ++ d.zone.toList.map (·,size)⟩
  | .palloc _ _ _ => none

theorem zones_consistent_filled : ∃ (s : Declaring) (slots : List ℕ), (declaring 8 4096 256).Reachable s ∧
    s.requests = [(1160,0),(1160,64),(1168,32),(1200,8)] ∧ s.Kept 8 slots := by
  have hsupplied : ∀ (pool : Pool) live size, pool.Supplied live size none none := fun pool live size =>
    ⟨by rintro p ⟨⟩,by simp,by simp⟩
  have hlisting : (listing 8 4096 256).Reachable undeclared.listing := by
    refine .step (.init (s := ⟨⟨[⟨1024,1104,1280,0⟩],176,0,[],[]⟩,none,[],[]⟩) ⟨rfl,rfl,rfl,1024,by decide,by decide,rfl⟩)
      (a := .create (fun _ => ⟨0,0,none⟩) 2 8 ⟨none,none⟩ ⟨none,none⟩) ⟨?_,rfl⟩
    simp [Listing.Fresh,hsupplied]
  have hsteps : ∀ op ∈ declareOps, ∀ s s', declareStep s op = some s' → (declaring 8 4096 256).step s op s' := by
    intro op hop s s' hstep
    simp only [declareOps,List.mem_cons,List.not_mem_nil,or_false] at hop
    rcases hop with rfl | rfl | rfl | rfl | rfl | rfl <;>
    · obtain ⟨d,hd,rfl⟩ := Option.map_eq_some_iff.mp hstep
      exact ⟨by decide,by simp [Listing.Fresh,hsupplied],10,d,toOption_ok hd,rfl⟩
  have hrun : (TransitionSystem.replay declareStep undeclared declareOps).map (·.requests) =
      some [(1160,0),(1160,64),(1168,32),(1200,8)] := by
    decide +kernel
  obtain ⟨s,hs,heq⟩ := Option.map_eq_some_iff.mp hrun
  have hinit : (declaring 8 4096 256).Reachable undeclared := .init ⟨hlisting,rfl⟩
  have hreach : (declaring 8 4096 256).Reachable s := hinit.of_replay_of_step hsteps hs
  obtain ⟨slots,hkept⟩ := zones_consistent (by decide) (by decide) (by decide) hreach
  exact ⟨s,slots,hreach,heq,hkept⟩

end InsideNginx.Cycle
