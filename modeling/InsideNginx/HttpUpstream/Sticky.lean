import InsideNginx.HttpUpstream.Eligibility
import InsideNginx.HttpUpstream.HashWalk

/-! ip_hash is sticky: whatever the other requests do, the calls of one request walk along the probes of
its address, and two requests that judge these probes alike get the same peers. -/
namespace InsideNginx.HttpUpstream
open ProbeWalk TransitionSystem
variable {κ : Type} [DecidableEq κ]

/-- The `get` call that a move makes for request `i`. -/
def getCall (i : ℕ) (m : Move (World κ) (Action κ)) : Option GetCall :=
  match m.label with
  | .select j _ now =>
    if j = i then m.before.sessions[i]?.map fun s => ⟨now,m.before.ups s.us,s.req⟩ else none
  | _ => none

variable {pcalloc : κ → ℕ → Bool} {resolve : String → ℕ → Option (List UpstreamAddr)}
  {conf : κ → UpstreamSrvConf}

/-- The `get` calls that a request which hashes `addr` makes in a run, from its initialisation on. -/
inductive HashRequest (pcalloc : κ → ℕ → Bool) (resolve : String → ℕ → Option (List UpstreamAddr))
    (conf : κ → UpstreamSrvConf) (us : κ) (addr : List ℕ) : List GetCall → Prop
  | intro {w₀ w w' : World κ} {moves : List (Move (World κ) (Action κ))} {alloc : Bool}
      (reachable : (balancing pcalloc resolve conf).Reachable w₀)
      (init : w₀.step (.init us alloc addr) = some w)
      (run : (balancing pcalloc resolve conf).Run w moves w')
      (get : ∀ m ∈ moves, ∀ balancer now, m.label = .select w₀.sessions.length balancer now → balancer = .ipHash) :
      HashRequest pcalloc resolve conf us addr (moves.filterMap (getCall w₀.sessions.length))

/-! ### The shape of the upstream -/

theorem reachable_sameShape {w : World κ} (h : (balancing pcalloc resolve conf).Reachable w) {us : κ} {built : Upstream}
    (hbuilt : initRoundRobin (pcalloc us) resolve (conf us) = .ok built) : built.SameShape (w.ups us) := by
  refine h.invariant (I := fun w => built.SameShape (w.ups us)) ?_ ?_
  · rintro w ⟨-,hinit⟩
    obtain rfl : w.ups us = built := by simpa [hbuilt] using (hinit us).symm
    exact .refl _
  · intro w a w' hreach ih hstep
    exact ih.trans (World.step_sameShape (reachable_accounted hreach) hstep us)

theorem Upstream.SameShape.primary {u u' : Upstream} (h : u.SameShape u') : u'.primary.shape = u.primary.shape :=
  Option.some.inj (h .primary)

theorem Upstream.SameShape.backup_none {u u' : Upstream} (h : u.SameShape u') (hb : u.backup = none) :
    u'.backup = none := by
  have hs := h .backup
  rwa [show u.group .backup = none from hb,Option.map_none,Option.map_eq_none_iff] at hs

/-! ### One move -/

theorem freeRoundRobinPeer_iphp {now : ℤ} {peerFailed : Bool} {u u' : Upstream} {r r' : Request}
    (h : freeRoundRobinPeer now peerFailed u r = .ok (u',r')) : r'.iphp = r.iphp := by
  obtain ⟨-,-,-,-,-,-,-,hiphp,-⟩ := freeRoundRobinPeer_ok h
  exact hiphp

/-- The request at `i` is for `us`, and its walk has come to `pos`. -/
def Walking (us : κ) (addr : List ℕ) (pos : Position) (i : ℕ) (w : World κ) : Prop :=
  ∃ s, w.sessions[i]? = some s ∧ s.us = us ∧ HashAt addr pos s.req.iphp

theorem Walking.update {us k : κ} {addr : List ℕ} {pos : Position} {i : ℕ} {w : World κ} {u : Upstream}
    {s s' : Session κ} (hs : w.sessions[i]? = some s) (hus : s'.us = us) (h : HashAt addr pos s'.req.iphp) :
    Walking us addr pos i (w.update k u i s') := by
  refine ⟨s',?_,hus,h⟩
  have hlt := (List.getElem?_eq_some_iff.mp hs).1
  simp [World.update,hlt]

/-- A move makes one call of the request, with one step of its walk, or leaves the walk where it is. -/
theorem step_walking {us : κ} {built : Upstream} {addr : List ℕ} {pos : Position} {i : ℕ}
    {w w' : World κ} {a : Action κ} (hseveral : built.primary.single = false) (hbackup : built.backup = none)
    (hw : built.primary.totalWeight ≠ 0) (hacc : Accounted w) (hshape : built.SameShape (w.ups us))
    (hstep : w.step a = some w') (hget : ∀ balancer now, a = .select i balancer now → balancer = .ipHash)
    (h : Walking us addr pos i w) :
    (getCall i ⟨w,a,w'⟩ = none ∧ Walking us addr pos i w') ∨
    ∃ call taken next, getCall i ⟨w,a,w'⟩ = some call ∧
      Step (hashProbe (weights built.primary.peer) addr) 21 call.Accepts pos taken next ∧ call.Returns taken ∧
      Walking us addr next i w' := by
  obtain ⟨s,hs,rfl,hpos⟩ := h
  have hmem := List.mem_of_getElem? hs
  -- a move of another request leaves the session alone
  have hother : ∀ {j : ℕ} {k : κ} {u : Upstream} {s' : Session κ}, j ≠ i →
      Walking s.us addr pos i (w.update k u j s') := by
    intro j k u s' hj
    refine ⟨s,?_,rfl,hpos⟩
    simpa [World.update,List.getElem?_set_ne hj] using hs
  obtain ⟨us',alloc,addr',req,rfl,-,rfl⟩ | ⟨j,balancer,now,s₀,rc,u,req,rfl,hj,hidle,hcall,rfl⟩ |
    ⟨j,now,peerFailed,s₀,ptr,u,req,rfl,hj,hholds,hcall,rfl⟩ := World.step_cases hstep
  · refine .inl ⟨rfl,s,?_,rfl,hpos⟩
    exact (List.getElem?_append_left (List.getElem?_eq_some_iff.mp hs).1).trans hs
  · by_cases hji : j = i
    · subst hji
      obtain rfl := Option.some.inj (hs.symm.trans hj)
      obtain rfl := hget balancer now rfl
      obtain ⟨hn,htotal,hsingle,-,-,hconfig⟩ := RrPeers.shape_eq_iff.mp hshape.primary
      have hpeers : s.req.rrp.peers = .primary := by
        obtain ⟨g,hg⟩ := hacc.group s hmem
        cases hp : s.req.rrp.peers with
        | primary => rfl
        | backup =>
          rw [hp] at hg
          exact absurd (hshape.backup_none hbackup) (by rw [show (w.ups s.us).backup = some g from hg]; simp)
      obtain ⟨taken,next,hwalk,hreturns,hsaved⟩ := @getIpHashPeer_walk ⟨now,w.ups s.us,s.req⟩ addr pos
        (hacc.sound s.us) (hacc.covers s hmem) hpeers (hsingle.trans hseveral) (by rw [htotal]; exact hw) hpos
      have hweights : weights (w.ups s.us).primary.peer = weights built.primary.peer := weights_of_config hconfig
      rw [hweights] at hwalk
      refine .inr ⟨⟨now,w.ups s.us,s.req⟩,taken,next,?_,hwalk,hreturns,?_⟩
      · simp [getCall,hs]
      · refine Walking.update hs (by cases rc <;> rfl) ?_
        have := hsaved rc u req hcall
        cases rc <;> exact this
    · exact .inl ⟨by simp [getCall,hji],hother hji⟩
  · refine .inl ⟨rfl,?_⟩
    by_cases hji : j = i
    · subst hji
      obtain rfl := Option.some.inj (hs.symm.trans hj)
      refine Walking.update hs rfl ?_
      rw [show (s.released req).req.iphp = s.req.iphp from freeRoundRobinPeer_iphp hcall]
      exact hpos
    · exact hother hji

/-! ### Runs -/

/-- The calls that a request makes in a run walk along its probes. -/
theorem run_walking {us : κ} {built : Upstream} {addr : List ℕ} {pos : Position} {i : ℕ} {w w' : World κ}
    {moves : List (Move (World κ) (Action κ))} (hseveral : built.primary.single = false)
    (hbackup : built.backup = none) (hw : built.primary.totalWeight ≠ 0)
    (hbuilt : initRoundRobin (pcalloc us) resolve (conf us) = .ok built)
    (hreach : (balancing pcalloc resolve conf).Reachable w) (hrun : (balancing pcalloc resolve conf).Run w moves w')
    (hget : ∀ m ∈ moves, ∀ balancer now, m.label = .select i balancer now → balancer = .ipHash)
    (h : Walking us addr pos i w) :
    ∃ taken last, Walk (hashProbe (weights built.primary.peer) addr) 21 GetCall.Accepts pos
        (moves.filterMap (getCall i)) taken last ∧
      List.Forall₂ GetCall.Returns (moves.filterMap (getCall i)) taken := by
  induction hrun generalizing pos with
  | nil => exact ⟨[],pos,.nil pos,.nil⟩
  | @cons w a t moves w' hstep _ ih =>
    obtain ⟨hhead,htail⟩ := List.forall_mem_cons.mp hget
    rcases step_walking hseveral hbackup hw (reachable_accounted hreach) (reachable_sameShape hreach hbuilt)
      hstep hhead h with ⟨hcall,hnext⟩ | ⟨call,taken,next,hcall,hwalk,hreturns,hnext⟩
    · rw [List.filterMap_cons_none hcall]
      exact ih (hreach.step hstep) htail hnext
    · obtain ⟨rest,last,hrest,hall⟩ := ih (hreach.step hstep) htail hnext
      rw [List.filterMap_cons_some hcall]
      exact ⟨taken::rest,last,.cons hwalk hrest,.cons hreturns hall⟩

theorem HashRequest.walk {us : κ} {built : Upstream} {addr : List ℕ} {calls : List GetCall}
    (h : HashRequest pcalloc resolve conf us addr calls)
    (hbuilt : initRoundRobin (pcalloc us) resolve (conf us) = .ok built) (hseveral : built.primary.single = false)
    (hbackup : built.backup = none) (hw : built.primary.totalWeight ≠ 0) :
    ∃ taken last, Walk (hashProbe (weights built.primary.peer) addr) 21 GetCall.Accepts ⟨0,0⟩ calls taken last ∧
      List.Forall₂ GetCall.Returns calls taken := by
  obtain ⟨hreach,hinit,hrun,hget⟩ := h
  refine run_walking hseveral hbackup hw hbuilt (hreach.step hinit) hrun hget ?_
  obtain ⟨req,hreq,rfl⟩ := Option.map_eq_some_iff.mp hinit
  obtain ⟨rrp,-,rfl⟩ := Option.map_eq_some_iff.mp hreq
  exact ⟨_,List.getElem?_concat_length,rfl,HashAt.start addr⟩

/-- A request that makes one call. -/
theorem HashRequest.single {us : κ} {addr : List ℕ} {w₀ w w' : World κ} {alloc : Bool} {now : ℤ} {call : GetCall}
    (hreach : (balancing pcalloc resolve conf).Reachable w₀) (hinit : w₀.step (.init us alloc addr) = some w)
    (hstep : w.step (.select w₀.sessions.length .ipHash now) = some w')
    (hcall : getCall w₀.sessions.length ⟨w,.select w₀.sessions.length .ipHash now,w'⟩ = some call) :
    HashRequest pcalloc resolve conf us addr [call] := by
  have h := HashRequest.intro hreach hinit (.cons hstep (.nil w')) (by simp)
  rwa [List.filterMap_cons_some hcall,List.filterMap_nil] at h

/-- On an upstream of several peers without backup, the calls of a request take one after the other the
first probe that is left and eligible, until 21 probes have been rejected; from then on they are calls of
round robin. Requests with the same address that judge the consumed probes alike get the same peers. -/
theorem ip_hash_sticky {us : κ} {built : Upstream}
    (hbuilt : initRoundRobin (pcalloc us) resolve (conf us) = .ok built)
    (hservers : ∀ servers, (conf us).servers = some servers → ∀ server ∈ servers, 1 ≤ server.weight)
    (himplicit : (conf us).servers = none → ∀ addrs, resolve (conf us).host (conf us).port = some addrs → addrs ≠ [])
    (hseveral : built.primary.single = false) (hbackup : built.backup = none) (addr : List ℕ) :
    (∀ k, hashProbe (weights built.primary.peer) addr k < built.primary.peer.length) ∧
    (∀ calls, HashRequest pcalloc resolve conf us addr calls →
      ∃ taken last,
        Walk (hashProbe (weights built.primary.peer) addr) 21 GetCall.Accepts ⟨0,0⟩ calls taken last ∧
        List.Forall₂ GetCall.Returns calls taken) ∧
    ∀ calls calls', HashRequest pcalloc resolve conf us addr calls → HashRequest pcalloc resolve conf us addr calls' →
      Alike (hashProbe (weights built.primary.peer) addr) 21 GetCall.Accepts GetCall.Accepts ⟨0,0⟩ calls calls' →
      ∃ taken, List.Forall₂ GetCall.Returns calls taken ∧ List.Forall₂ GetCall.Returns calls' taken := by
  have hw : built.primary.totalWeight ≠ 0 :=
    initRoundRobin_positive hbuilt hservers himplicit (rfl : built.group .primary = some built.primary)
  refine ⟨fun k => ?_,fun calls h => h.walk hbuilt hseveral hbackup hw,fun calls calls' h h' halike => ?_⟩
  · obtain ⟨peer,hpeer,-⟩ :=
      ipHashProbe_hashRounds ((initRoundRobin_wellBuilt hbuilt).sound.group .primary _ rfl) hw addr k
    exact (List.getElem?_eq_some_iff.mp hpeer).1
  · obtain ⟨taken,last,hwalk,hreturns⟩ := h.walk hbuilt hseveral hbackup hw
    obtain ⟨taken',last',hwalk',hreturns'⟩ := h'.walk hbuilt hseveral hbackup hw
    obtain ⟨rfl,-⟩ := hwalk.agree hwalk' halike
    exact ⟨taken,hreturns,hreturns'⟩

/-- The primary servers of the load balancing note without the backup server. -/
def stickyConf : UpstreamSrvConf := ⟨some [noteServer 5 false,noteServer 1 false],"backend",0⟩

def stickyUpstream : Upstream :=
  ⟨⟨2,6,false,true,"backend",fillPeers false [noteServer 5 false,noteServer 1 false]⟩,none⟩

/-- The upstream while a request holds a connection of the first server. -/
def stickyBusy : Upstream :=
  ⟨⟨2,6,false,true,"backend",
    [{ peerOf (noteServer 5 false) ⟨0,16,"backend"⟩ with currentWeight := -1, conns := 1 },
     { peerOf (noteServer 1 false) ⟨0,16,"backend"⟩ with currentWeight := 1 }]⟩,none⟩

def stickyRequest : Request := ⟨⟨false,none,none,0,none,2⟩,⟨0,.primary,none,[0]⟩,⟨89,[10,0,0],0⟩⟩

/-- A request gets the same peer with and without another request that holds a connection. -/
theorem ip_hash_sticky_note :
    HashRequest (fun (_ : Unit) _ => true) (fun _ _ => none) (fun _ => stickyConf) () [10,0,0]
      [⟨0,stickyUpstream,stickyRequest⟩] ∧
    HashRequest (fun (_ : Unit) _ => true) (fun _ _ => none) (fun _ => stickyConf) () [10,0,0]
      [⟨0,stickyBusy,stickyRequest⟩] ∧
    ∃ taken, (⟨0,stickyUpstream,stickyRequest⟩ : GetCall).Returns taken ∧
      (⟨0,stickyBusy,stickyRequest⟩ : GetCall).Returns taken := by
  have hbuilt : initRoundRobin (fun _ => true) (fun _ _ => none) stickyConf = .ok stickyUpstream := by decide
  have hservers : ∀ servers, stickyConf.servers = some servers → ∀ server ∈ servers, 1 ≤ server.weight := by
    rintro servers ⟨⟩
    decide
  have hinit : (balancing (fun (_ : Unit) _ => true) (fun _ _ => none) fun _ => stickyConf).Reachable
      ⟨fun _ => stickyUpstream,[]⟩ := .init ⟨rfl,fun _ => hbuilt⟩
  have hfirst : HashRequest (fun (_ : Unit) _ => true) (fun _ _ => none) (fun _ => stickyConf) () [10,0,0]
      [⟨0,stickyUpstream,stickyRequest⟩] :=
    .single hinit (rfl : World.step _ (.init () true [10,0,0]) = some _)
      (rfl : World.step _ (.select 0 .ipHash 0) = some _) rfl
  have hsecond : HashRequest (fun (_ : Unit) _ => true) (fun _ _ => none) (fun _ => stickyConf) () [10,0,0]
      [⟨0,stickyBusy,stickyRequest⟩] := by
    obtain ⟨v,hv⟩ : ∃ v, replay World.step ⟨fun _ => stickyUpstream,[]⟩
      [.init () true [],.select 0 .roundRobin 0] = some v := ⟨_,rfl⟩
    have hreach := hinit.of_replay hv
    cases hv
    exact .single hreach (rfl : World.step _ (.init () true [10,0,0]) = some _)
      (rfl : World.step _ (.select 1 .ipHash 0) = some _) rfl
  obtain ⟨-,-,hagree⟩ := @ip_hash_sticky Unit _ (fun _ _ => true) (fun _ _ => none) (fun _ => stickyConf) ()
    stickyUpstream hbuilt hservers (by simp [stickyConf]) rfl rfl [10,0,0]
  obtain ⟨taken,htaken,htaken'⟩ := hagree _ _ hfirst hsecond (by
    refine .cons (.accept (by decide) ⟨_,rfl,by decide⟩) (fun k _ hk => ?_) (.nil _)
    obtain rfl : k = 0 := Nat.lt_one_iff.mp hk
    exact ⟨fun _ => ⟨_,rfl,by decide⟩,fun _ => ⟨_,rfl,by decide⟩⟩)
  cases htaken with
  | cons hreturns _ =>
    cases htaken' with
    | cons hreturns' _ => exact ⟨hfirst,hsecond,_,hreturns,hreturns'⟩

end InsideNginx.HttpUpstream
