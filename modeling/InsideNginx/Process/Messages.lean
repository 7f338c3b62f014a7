import InsideNginx.Process.Table

/-! What the master tells its workers about the channels of the others, and what a worker makes of
it. -/
namespace InsideNginx.Process

/-- What a broadcast about the exit of a child, or after a call of `ngx_spawn_process`, has to say. -/
def Event.Truthful : Event → Prop
  | .broadcast (.exit slot pid) ch => ch.command = .closeChannel ∧ ch.slot = slot ∧ ch.pid = pid
  | .broadcast (.spawn (some child)) ch =>
    ch = ⟨.openChannel,child.entry.pid,child.slot,child.entry.channel0⟩ ∧ child.entry.exited = false
  | .broadcast (.spawn none) _ => False
  | _ => True

/-- The table and the flags of a worker, and the descriptors that it has closed. -/
structure Worker where
  pid : ℕ → ℤ
  channel0 : ℕ → ℤ
  quit : Bool
  terminate : Bool
  reopen : Bool
  closed : List ℤ

namespace Worker

/-- What `ngx_channel_handler` does with a message. -/
def receive (w : Worker) (ch : Channel) : Worker :=
  match ch.command with
  | .quit => { w with quit := true }
  | .terminate => { w with terminate := true }
  | .reopen => { w with reopen := true }
  | .openChannel => { w with
      pid := Function.update w.pid ch.slot ch.pid
      channel0 := Function.update w.channel0 ch.slot ch.fd }
  | .closeChannel => { w with
      closed := w.closed ++ [w.channel0 ch.slot]
      channel0 := Function.update w.channel0 ch.slot (-1) }

/-- `ngx_channel_handler`, with the messages that it reads. -/
def channelHandler (w : Worker) (messages : List Channel) : Worker := messages.foldl receive w

end Worker

/-- The messages for a process, in order; `recv` gives the descriptor that arrives for one sent. -/
def delivered (recv : ℤ → ℤ) (n : ℕ) (events : List Event) : List Channel :=
  events.filterMap fun event =>
    match event with
    | .write target ch => if target = n then some { ch with fd := recv ch.fd } else none
    | _ => none

theorem mem_delivered {recv : ℤ → ℤ} {n : ℕ} {events : List Event} {ch : Channel} :
    ch ∈ delivered recv n events ↔ ∃ sent, .write n sent ∈ events ∧ ch = { sent with fd := recv sent.fd } := by
  unfold delivered
  rw [List.mem_filterMap]
  constructor
  · rintro ⟨event,hmem,hsome⟩
    cases event with
    | write target sent =>
      rw [Option.ite_none_right_eq_some] at hsome
      obtain ⟨rfl,hch⟩ := hsome
      exact ⟨sent,hmem,(Option.some.inj hch).symm⟩
    | _ => cases hsome
  · rintro ⟨sent,hmem,rfl⟩
    exact ⟨_,hmem,if_pos rfl⟩

/-- What a message does to the descriptor of a slot. -/
theorem Worker.receive_channel0 (w : Worker) (ch : Channel) (i : ℕ) : (w.receive ch).channel0 i =
    if ch.slot = i ∧ ch.command = .openChannel then ch.fd
    else if ch.slot = i ∧ ch.command = .closeChannel then -1
    else w.channel0 i := by
  unfold receive
  by_cases hslot : ch.slot = i
  · subst hslot
    cases hcommand : ch.command <;> simp
  · cases hcommand : ch.command <;> simp [hslot,Ne.symm hslot]

/-- A worker that is told to close the channel of a slot, and never to open it, has no descriptor
for it in the end. -/
theorem Worker.channelHandler_closed {i : ℕ} {messages : List Channel} (w : Worker)
    (hclose : ∀ ch ∈ messages, ch.slot = i → ch.command ≠ .openChannel)
    (hsome : (∃ ch ∈ messages, ch.slot = i ∧ ch.command = .closeChannel) ∨ w.channel0 i = -1) :
    (w.channelHandler messages).channel0 i = -1 := by
  induction messages generalizing w with
  | nil => exact hsome.resolve_left (by simp)
  | cons ch messages ih =>
    obtain ⟨hhead,htail⟩ := List.forall_mem_cons.mp hclose
    refine ih (w.receive ch) htail ?_
    rw [receive_channel0,if_neg fun h => hhead h.1 h.2]
    rcases hsome with ⟨ch',hmem,hch'⟩ | hnone
    · rcases List.mem_cons.mp hmem with rfl | hmem
      · exact .inr (if_pos hch')
      · exact .inl ⟨ch',hmem,hch'⟩
    · right
      split
      · rfl
      · exact hnone

/-! ### The messages of a reaping pass -/

namespace Master

/-- A slot whose child has exited. -/
def Exits (s : Master) (i : ℕ) : Prop :=
  i < s.lastProcess ∧ (s.processes i).pid ≠ -1 ∧ (s.processes i).exited = true

/-- A slot whose child has exited and had a channel. -/
def Announced (s : Master) (i : ℕ) : Prop := s.Exits i ∧ (s.processes i).detached = false

/-- A slot that a pass gives a new child, when the system calls for it have these results. -/
def Respawned (s : Master) (o : ℕ → Outcome) (i : ℕ) : Prop :=
  s.Exits i ∧ ((s.processes i).respawn && !(s.processes i).exiting && !s.flags.terminate && !s.flags.quit) = true ∧
    ((o i).forks (.slot i)).isSome

/-- A child that runs and has a channel. -/
def Survives (s : Master) (n : ℕ) : Prop :=
  n < s.lastProcess ∧ (s.processes n).exited = false ∧ (s.processes n).pid ≠ -1 ∧ (s.processes n).channel0 ≠ -1

end Master

namespace Reaping

variable {r r' : Reaping} {i : ℕ} {o : Outcome}

/-- The message about the exit of the child in a slot. -/
def closing (r : Reaping) (i : ℕ) : Channel := { r.ch with pid := (r.master.processes i).pid, slot := i }

/-- The child in a slot has exited and had a channel. -/
def Closes (r : Reaping) (i : ℕ) : Prop :=
  (r.master.processes i).pid ≠ -1 ∧ (r.master.processes i).exited = true ∧ (r.master.processes i).detached = false

/-- The slot of an exited child gets a new one. -/
def Renews (r : Reaping) (i : ℕ) (o : Outcome) : Prop :=
  ((r.master.processes i).pid ≠ -1 ∧ (r.master.processes i).exited = true) ∧ r.respawns i = true ∧
    (o.forks (.slot i)).isSome

instance (r : Reaping) (i : ℕ) (o : Outcome) : Decidable (r.Renews i o) :=
  inferInstanceAs (Decidable (_ ∧ _ ∧ _))

/-- The events of the first part of a round, and the message that is kept. -/
theorem passClose_events (r : Reaping) (i : ℕ) (hexited : (r.master.processes i).exited = true) :
    (r.passClose i).ch = r.closing i ∧ ∃ events,
      (r.passClose i).master.log = r.master.log ++ events ∧
      (∀ cause ch, .broadcast cause ch ∈ events ↔ cause = .exit i (r.master.processes i).pid ∧ ch = r.closing i) ∧
      ∀ n ch, .write n ch ∈ events ↔ r.master.Survives n ∧ ch = r.closing i := by
  refine ⟨rfl,_,by simp [passClose,Master.closeChannel,Master.emit,Master.setChannel,Master.setEntry]; rfl,?_,?_⟩
  · intro cause ch
    simp [closing]
  · intro n ch
    by_cases hn : n = i
    · simp [hn,Master.Survives,hexited]
    · rw [eq_comm (a := ch)]
      simp [hn,Master.Survives,closing]

/-- What a round says: it tells every survivor about an exited child that had a channel, with the
command that the previous messages have left, and announces the new child. -/
structure Round (r : Reaping) (i : ℕ) (o : Outcome) (r' : Reaping) (events : List Event) : Prop where
  log : r'.master.log = r.master.log ++ events
  broadcast : ∀ cause ch, .broadcast cause ch ∈ events →
    (r.Closes i ∧ cause = .exit i (r.master.processes i).pid ∧ ch = r.closing i) ∨
    (r.Renews i o ∧ ∃ p, cause = .spawn (some ⟨i,p⟩) ∧ ch = ⟨.openChannel,p.pid,i,p.channel0⟩ ∧ p.exited = false)
  write : ∀ n ch, .write n ch ∈ events → (r.Closes i ∧ ch = r.closing i) ∨ (r.Renews i o ∧ ch.slot = i)
  told : r.Closes i → .broadcast (.exit i (r.master.processes i).pid) (r.closing i) ∈ events ∧
    ∀ n, r.master.Survives n → .write n (r.closing i) ∈ events
  command : r'.ch.command = if r.Renews i o then .openChannel else r.ch.command
  lastProcess : r'.master.lastProcess = r.master.lastProcess ∨
    r'.master.lastProcess ≤ i ∧ i + 1 = r.master.lastProcess
  flags : r'.master.flags.terminate = r.master.flags.terminate ∧ r'.master.flags.quit = r.master.flags.quit

theorem passOpenChannel_log (s : Master) (cause : Cause) (ch : Channel) :
    ∃ targets : List ℕ, (s.passOpenChannel cause ch).log = s.log ++ .broadcast cause ch :: targets.map (.write · ch) :=
  ⟨_,rfl⟩

/-- The message that announces a new child. -/
theorem openMessage_eq {s s' : Master} {mode : Respawn} {pid : ℤ} {p : Entry}
    (h : Master.SpawnForks s mode pid p s') :
    s'.openMessage = ⟨.openChannel,p.pid,s.spawnSlot mode,p.channel0⟩ := by
  unfold Master.openMessage
  rw [h.processSlot,h.processes,Function.update_self]

/-- The second part of a round: a new child, or none. -/
theorem respawn_events (h : r.respawn i o = .ok r') : ∃ events,
    r'.master.log = r.master.log ++ events ∧
    (∀ cause ch, .broadcast cause ch ∈ events → (o.forks (.slot i)).isSome ∧
      ∃ p, cause = .spawn (some ⟨i,p⟩) ∧ ch = ⟨.openChannel,p.pid,i,p.channel0⟩ ∧ p.exited = false) ∧
    (∀ n ch, .write n ch ∈ events → (o.forks (.slot i)).isSome ∧ ch.slot = i) ∧
    r'.ch.command = (if (o.forks (.slot i)).isSome then .openChannel else r.ch.command) ∧
    r'.master.lastProcess = r.master.lastProcess ∧ r'.master.flags = r.master.flags := by
  rcases respawn_cases h with ⟨hnone,s,hfails,rfl⟩ | ⟨pid,p,s,hfork,hforks,rfl⟩
  · obtain ⟨events,hlog,hquiet⟩ := hfails.log
    refine ⟨events,hlog,fun cause ch hmem => ?_,fun n ch hmem => ?_,?_,hfails.lastProcess,hfails.flags⟩
    · exact absurd (hquiet _ hmem) id
    · exact absurd (hquiet _ hmem) id
    · simp [hnone]
  · have hmessage := openMessage_eq hforks
    have hlast : s.lastProcess = r.master.lastProcess := by rw [hforks.lastProcess]; rfl
    have hexited : p.exited = false := by
      obtain ⟨fd0,fd1,hp⟩ := hforks.entry
      rw [hp]
      rfl
    obtain ⟨targets,htargets⟩ := passOpenChannel_log s (.spawn (some ⟨i,p⟩)) s.openMessage
    rw [hforks.log,List.append_assoc] at htargets
    refine ⟨_,htargets,fun cause ch hmem => ⟨by simp [hfork],p,?_⟩,fun n ch hmem => ⟨by simp [hfork],?_⟩,?_,
      hlast,hforks.flags⟩
    · simp only [List.cons_append,List.nil_append,List.mem_cons,List.mem_map,reduceCtorEq,false_or,and_false,
        exists_false,or_false,Event.broadcast.injEq] at hmem
      exact ⟨hmem.1,hmem.2.trans hmessage,hexited⟩
    · simp only [List.cons_append,List.nil_append,List.mem_cons,List.mem_map,reduceCtorEq,false_or,
        Event.write.injEq] at hmem
      obtain ⟨target,-,-,rfl⟩ := hmem
      rw [hmessage]
      rfl
    · simp [hfork,hmessage]

theorem slot_round (h : r.slot i o = .ok r') : ∃ events, Round r i o r' events := by
  rcases slot_cases h with ⟨hfree,rfl⟩ | ⟨hused,hrun,rfl⟩ | ⟨hused,hexited,r₁,hr₁,hcases⟩
  · refine ⟨[],by simp,by simp,by simp,fun hcloses => absurd hfree hcloses.1,?_,.inl rfl,rfl,rfl⟩
    rw [if_neg fun hrenews => hrenews.1.1 hfree]
  · have hnot : ¬ (r.master.processes i).exited = true := by simp [hrun]
    refine ⟨[],by simp,by simp,by simp,fun hcloses => absurd hcloses.2.1 hnot,?_,.inl rfl,rfl,rfl⟩
    rw [if_neg fun hrenews => hnot hrenews.1.2]
  -- what the first part has said
  obtain ⟨events₁,hlog₁,hbroadcast₁,hwrite₁,hcommand₁,hlast₁,hflags₁,hrespawns₁⟩ : ∃ events₁,
      r₁.master.log = r.master.log ++ events₁ ∧
      (∀ cause ch, .broadcast cause ch ∈ events₁ ↔
        (r.master.processes i).detached = false ∧ cause = .exit i (r.master.processes i).pid ∧ ch = r.closing i) ∧
      (∀ n ch, .write n ch ∈ events₁ ↔
        (r.master.processes i).detached = false ∧ r.master.Survives n ∧ ch = r.closing i) ∧
      r₁.ch.command = r.ch.command ∧ r₁.master.lastProcess = r.master.lastProcess ∧
      r₁.master.flags = r.master.flags ∧ r₁.respawns i = r.respawns i := by
    split at hr₁
    · rename_i hdetached
      subst hr₁
      exact ⟨[],by simp,by simp [hdetached],by simp [hdetached],rfl,rfl,rfl,rfl⟩
    · rename_i hdetached
      subst hr₁
      obtain ⟨hch,events,hlog,hbroadcast,hwrite⟩ := passClose_events r i hexited
      refine ⟨events,hlog,fun cause ch => ?_,fun n ch => ?_,?_,rfl,rfl,passClose_respawns r i⟩
      · rw [hbroadcast]
        simp [hdetached]
      · rw [hwrite]
        simp [hdetached]
      · rw [hch]
        rfl
  rcases hcases with ⟨hrespawns,hrespawn⟩ | ⟨hrespawns,rfl⟩
  · obtain ⟨events₂,hlog₂,hbroadcast₂,hwrite₂,hcommand₂,hlast₂,hflags₂⟩ := respawn_events hrespawn
    rw [hrespawns₁] at hrespawns
    have hrenews : r.Renews i o ↔ (o.forks (.slot i)).isSome := by simp [Renews,hused,hexited,hrespawns]
    refine ⟨events₁ ++ events₂,by rw [hlog₂,hlog₁,List.append_assoc],fun cause ch hmem => ?_,fun n ch hmem => ?_,
      fun hcloses => ⟨?_,fun n hn => ?_⟩,?_,.inl (hlast₂.trans hlast₁),?_⟩
    · rcases List.mem_append.mp hmem with hmem | hmem
      · obtain ⟨hdetached,hsaid⟩ := (hbroadcast₁ cause ch).mp hmem
        exact .inl ⟨⟨hused,hexited,hdetached⟩,hsaid⟩
      · obtain ⟨hforks,hsaid⟩ := hbroadcast₂ cause ch hmem
        exact .inr ⟨hrenews.mpr hforks,hsaid⟩
    · rcases List.mem_append.mp hmem with hmem | hmem
      · obtain ⟨hdetached,-,hsaid⟩ := (hwrite₁ n ch).mp hmem
        exact .inl ⟨⟨hused,hexited,hdetached⟩,hsaid⟩
      · obtain ⟨hforks,hsaid⟩ := hwrite₂ n ch hmem
        exact .inr ⟨hrenews.mpr hforks,hsaid⟩
    · exact List.mem_append_left _ ((hbroadcast₁ _ _).mpr ⟨hcloses.2.2,rfl,rfl⟩)
    · exact List.mem_append_left _ ((hwrite₁ _ _).mpr ⟨hcloses.2.2,hn,rfl⟩)
    · rw [hcommand₂,hcommand₁]
      exact if_congr hrenews.symm rfl rfl
    · rw [hflags₂,hflags₁]
      exact ⟨rfl,rfl⟩
  · obtain ⟨hdropped,hlog₂,-,hch₂⟩ := r₁.drop_cases i
    rw [hrespawns₁] at hrespawns
    have hrenews : ¬ r.Renews i o := by simp [Renews,hrespawns]
    refine ⟨events₁,hlog₂.trans hlog₁,fun cause ch hmem => ?_,fun n ch hmem => ?_,
      fun hcloses => ⟨?_,fun n hn => ?_⟩,?_,?_,?_⟩
    · obtain ⟨hdetached,hsaid⟩ := (hbroadcast₁ cause ch).mp hmem
      exact .inl ⟨⟨hused,hexited,hdetached⟩,hsaid⟩
    · obtain ⟨hdetached,-,hsaid⟩ := (hwrite₁ n ch).mp hmem
      exact .inl ⟨⟨hused,hexited,hdetached⟩,hsaid⟩
    · exact (hbroadcast₁ _ _).mpr ⟨hcloses.2.2,rfl,rfl⟩
    · exact (hwrite₁ _ _).mpr ⟨hcloses.2.2,hn,rfl⟩
    · rw [hch₂,hcommand₁,if_neg hrenews]
    · rcases hdropped with ⟨hlast,hlast',-⟩ | ⟨-,hlast,-⟩
      · exact .inr ⟨hlast'.le,hlast.trans hlast₁⟩
      · exact .inl (hlast.trans hlast₁)
    · obtain ⟨hterminate,hquit⟩ := drop_flags r₁ i
      rw [hterminate,hquit,hflags₁]
      exact ⟨rfl,rfl⟩

/-- What a pass has done before the slot `i`, with the events since its start. -/
structure Pass (s : Master) (o : ℕ → Outcome) (i : ℕ) (r : Reaping) (events : List Event) : Prop where
  log : r.master.log = s.log ++ events
  rest : ∀ j, i ≤ j ∨ (s.processes j).exited = false → r.master.processes j = s.processes j
  lastProcess : r.master.lastProcess = s.lastProcess ∨ r.master.lastProcess ≤ i ∧ s.lastProcess ≤ i
  flags : r.master.flags.terminate = s.flags.terminate ∧ r.master.flags.quit = s.flags.quit
  command : r.ch.command = .openChannel ∧ (∃ k < i, s.Respawned o k) ∨
    r.ch.command = .closeChannel ∧ ∀ k < i, ¬ s.Respawned o k
  broadcast : ∀ cause ch, .broadcast cause ch ∈ events →
    (∃ j < i, s.Announced j ∧ cause = .exit j (s.processes j).pid ∧ ch.slot = j ∧ ch.pid = (s.processes j).pid ∧
      ((∀ k < j, ¬ s.Respawned o k) → ch.command = .closeChannel)) ∨
    ∃ j p, cause = .spawn (some ⟨j,p⟩) ∧ ch = ⟨.openChannel,p.pid,j,p.channel0⟩ ∧ p.exited = false
  write : ∀ n ch, .write n ch ∈ events → ∃ j < i, ch.slot = j ∧
    (s.Respawned o j ∨ s.Announced j ∧ ((∀ k < j, ¬ s.Respawned o k) → ch.command = .closeChannel))
  told : ∀ j < i, s.Announced j → ∃ ch, ch.slot = j ∧
    (ch.command = .openChannel ∧ (∃ k < j, s.Respawned o k) ∨
      ch.command = .closeChannel ∧ ∀ k < j, ¬ s.Respawned o k) ∧
    .broadcast (.exit j (s.processes j).pid) ch ∈ events ∧ ∀ n, s.Survives n → .write n ch ∈ events

variable {s : Master} {os : ℕ → Outcome} {events : List Event}

theorem pass_step (h : Pass s os i r events) (hi : i < r.master.lastProcess) (hslot : r.slot i (os i) = .ok r') :
    ∃ events', Pass s os (i + 1) r' events' := by
  obtain ⟨new,hround⟩ := slot_round hslot
  have hlast : r.master.lastProcess = s.lastProcess := h.lastProcess.resolve_right fun h => by omega
  have hentry : r.master.processes i = s.processes i := h.rest i (.inl le_rfl)
  have hcloses : r.Closes i ↔ s.Announced i := by
    unfold Closes Master.Announced Master.Exits
    rw [hentry,← hlast]
    tauto
  have hrenews : r.Renews i (os i) ↔ s.Respawned os i := by
    unfold Renews Master.Respawned Master.Exits respawns
    rw [hentry,← hlast,h.flags.1,h.flags.2]
    tauto
  have hcommand : (∀ k < i, ¬ s.Respawned os k) → r.ch.command = .closeChannel := fun hnone =>
    h.command.elim (fun ⟨_,k,hk,hsome⟩ => absurd hsome (hnone k hk)) fun h => h.1
  refine ⟨events ++ new,?_,fun j hj => ?_,?_,?_,?_,fun cause ch hmem => ?_,fun n ch hmem => ?_,fun j hj hann => ?_⟩
  · rw [hround.log,h.log,List.append_assoc]
  · have hother : j ≠ i ∨ (r.master.processes i).exited = false := by
      rcases hj with hj | hj
      · exact .inl (by omega)
      · by_cases hji : j = i
        · exact .inr (by rw [hentry,← hji,hj])
        · exact .inl hji
    exact (slot_other hslot hother).trans (h.rest j (hj.imp_left fun hj => by omega))
  · rcases hround.lastProcess with hsame | ⟨hle,hend⟩
    · exact .inl (hsame.trans hlast)
    · exact .inr (by omega)
  · exact ⟨hround.flags.1.trans h.flags.1,hround.flags.2.trans h.flags.2⟩
  · rw [hround.command]
    by_cases hrespawned : s.Respawned os i
    · exact .inl ⟨if_pos (hrenews.mpr hrespawned),i,Nat.lt_succ_self i,hrespawned⟩
    · rw [if_neg (hrenews.not.mpr hrespawned)]
      refine h.command.imp (fun ⟨hopen,k,hk,hsome⟩ => ⟨hopen,k,by omega,hsome⟩) fun ⟨hclose,hnone⟩ => ⟨hclose,fun k hk => ?_⟩
      rcases Nat.lt_succ_iff_lt_or_eq.mp hk with hk | rfl
      · exact hnone k hk
      · exact hrespawned
  · rcases List.mem_append.mp hmem with hmem | hmem
    · exact (h.broadcast cause ch hmem).imp_left fun ⟨j,hj,hsaid⟩ => ⟨j,by omega,hsaid⟩
    · rcases hround.broadcast cause ch hmem with ⟨hcl,rfl,rfl⟩ | ⟨-,p,hsaid⟩
      · exact .inl ⟨i,Nat.lt_succ_self i,hcloses.mp hcl,by rw [hentry],rfl,by rw [← hentry]; rfl,hcommand⟩
      · exact .inr ⟨i,p,hsaid⟩
  · rcases List.mem_append.mp hmem with hmem | hmem
    · obtain ⟨j,hj,hsaid⟩ := h.write n ch hmem
      exact ⟨j,by omega,hsaid⟩
    · rcases hround.write n ch hmem with ⟨hcl,rfl⟩ | ⟨hren,hch⟩
      · exact ⟨i,Nat.lt_succ_self i,rfl,.inr ⟨hcloses.mp hcl,hcommand⟩⟩
      · exact ⟨i,Nat.lt_succ_self i,hch,.inl (hrenews.mp hren)⟩
  · rcases Nat.lt_succ_iff_lt_or_eq.mp hj with hj | rfl
    · obtain ⟨ch,hch,hsaid,hmem,hwrite⟩ := h.told j hj hann
      exact ⟨ch,hch,hsaid,List.mem_append_left _ hmem,fun n hn => List.mem_append_left _ (hwrite n hn)⟩
    · obtain ⟨hmem,hwrite⟩ := hround.told (hcloses.mpr hann)
      refine ⟨r.closing j,rfl,h.command,List.mem_append_right _ (hentry ▸ hmem),fun n hn => ?_⟩
      refine List.mem_append_right _ (hwrite n ?_)
      have hn' := h.rest n (.inr hn.2.1)
      unfold Master.Survives
      rw [hlast,hn']
      exact hn

theorem pass_slots {n : ℕ} (h : Pass s os i r events) (hn : s.lastProcess ≤ i + n)
    (hslots : slots os n i r = .ok r') : ∃ j events', s.lastProcess ≤ j ∧ Pass s os j r' events' := by
  induction n generalizing i r events with
  | zero =>
    cases hslots
    exact ⟨i,events,hn,h⟩
  | succ n ih =>
    unfold slots at hslots
    split at hslots
    · rename_i hi
      obtain ⟨r₁,hslot,hrest⟩ := bind_ok hslots
      obtain ⟨events₁,h₁⟩ := pass_step h hi hslot
      exact ih h₁ (by omega) hrest
    · rename_i hi
      cases hslots
      exact ⟨i,events,by rcases h.lastProcess with hlast | ⟨-,hle⟩ <;> omega,h⟩

end Reaping

namespace Master

variable {s s' : Master} {o : ℕ → Outcome} {live : Bool}

/-- A whole pass. -/
theorem reapChildren_pass (h : s.reapChildren o = .ok (s',live)) :
    ∃ r j events, r.master = s' ∧ s.lastProcess ≤ j ∧ Reaping.Pass s o j r events := by
  obtain ⟨r,hslots,hr⟩ := bind_ok h
  cases hr
  have hstart : Reaping.Pass s o 0 ⟨s,⟨.closeChannel,0,0,-1⟩,false⟩ [] := by
    refine ⟨by simp,fun _ _ => rfl,.inl rfl,⟨rfl,rfl⟩,.inr ⟨rfl,?_⟩,?_,?_,?_⟩ <;> simp
  obtain ⟨j,events,hj,hpass⟩ := Reaping.pass_slots hstart (by omega) hslots
  exact ⟨r,j,events,rfl,hj,hpass⟩

/-- No exited child whose exit is announced has a slot after one that the same pass respawns. -/
def AnnouncedFirst (s : Master) (o : ℕ → Outcome) : Prop :=
  ∀ k i, s.Respawned o k → s.Announced i → ¬ k < i

theorem pass_truthful {r : Reaping} {j : ℕ} {events : List Event} (hj : s.lastProcess ≤ j)
    (h : Reaping.Pass s o j r events) : (∀ e ∈ events, e.Truthful) ↔ s.AnnouncedFirst o := by
  constructor
  · intro htruthful k i hk hi hki
    obtain ⟨ch,hch,hsaid,hmem,-⟩ := h.told i (lt_of_lt_of_le hi.1.1 hj) hi
    have hclose := (htruthful _ hmem).1
    rcases hsaid with ⟨hopen,-⟩ | ⟨-,hnone⟩
    · rw [hopen] at hclose
      cases hclose
    · exact hnone k hki hk
  · intro hfirst e hmem
    cases e with
    | broadcast cause ch =>
      rcases h.broadcast cause ch hmem with ⟨i,-,hi,rfl,hslot,hpid,hclose⟩ | ⟨i,p,rfl,rfl,hexited⟩
      · exact ⟨hclose fun k hk hsome => hfirst k i hsome hi hk,hslot,hpid⟩
      · exact ⟨rfl,hexited⟩
    | _ => exact True.intro

/-- What a survivor knows after the messages of a truthful pass. -/
theorem pass_survivor {r : Reaping} {j : ℕ} {events : List Event} (hj : s.lastProcess ≤ j)
    (h : Reaping.Pass s o j r events) (hfirst : s.AnnouncedFirst o) (recv : ℤ → ℤ) {n i : ℕ} (w : Worker)
    (hn : s.Survives n) (hi : s.Exits i) (hnot : ¬ s.Respawned o i)
    (hw : (s.processes i).detached = false ∨ w.channel0 i = -1) :
    (w.channelHandler (delivered recv n events)).channel0 i = -1 := by
  refine w.channelHandler_closed (fun ch hmem hslot => ?_) (hw.imp_left fun hdetached => ?_)
  · obtain ⟨sent,hsent,rfl⟩ := mem_delivered.mp hmem
    obtain ⟨k,-,hk,hsaid⟩ := h.write n sent hsent
    have hki : k = i := hk.symm.trans hslot
    subst hki
    rcases hsaid with hrespawned | ⟨hann,hclose⟩
    · exact absurd hrespawned hnot
    · have hcommand := hclose fun m hm hsome => hfirst m k hsome hann hm
      simp [hcommand]
  · have hann : s.Announced i := ⟨hi,hdetached⟩
    obtain ⟨ch,hslot,hsaid,-,hwrite⟩ := h.told i (lt_of_lt_of_le hi.1 hj) hann
    refine ⟨_,mem_delivered.mpr ⟨ch,hwrite n hn,rfl⟩,hslot,?_⟩
    rcases hsaid with ⟨-,k,hk,hsome⟩ | ⟨hclose,-⟩
    · exact absurd hk (hfirst k i hsome hann)
    · exact hclose

/-! ### The messages of a start of workers -/

/-- The slots below `ngx_last_process` that are free. -/
def unused (s : Master) : Finset ℕ := (Finset.range s.lastProcess).filter fun i => (s.processes i).pid = -1

/-- How many children the table has room for. -/
def freeSlots (s : Master) : ℕ := s.unused.card + (maxProcesses - s.lastProcess)

variable {mode : Respawn}

theorem spawnSlot_eq (hmode : mode.isSlot = false) : s.spawnSlot mode = s.search (-1) := by
  cases mode <;> simp_all [spawnSlot,Respawn.isSlot]

/-- The slot for a new child is unused, or the next one. -/
theorem spawnSlot_cases (hmode : mode.isSlot = false) :
    s.spawnSlot mode ∈ s.unused ∨ s.spawnSlot mode = s.lastProcess ∧ s.unused = ∅ := by
  rw [spawnSlot_eq hmode]
  obtain ⟨hnone,⟨hlt,hpid⟩ | heq⟩ := s.search_cases (-1)
  · exact .inl (Finset.mem_filter.mpr ⟨Finset.mem_range.mpr hlt,hpid⟩)
  · exact .inr ⟨heq,Finset.filter_eq_empty_iff.mpr fun j hj => hnone j (heq ▸ Finset.mem_range.mp hj)⟩

/-- The search for a slot fails when no slot is free. -/
theorem full_iff (hmode : mode.isSlot = false) (hlast : s.lastProcess ≤ maxProcesses) :
    s.spawnSlot mode = maxProcesses ↔ s.freeSlots = 0 := by
  unfold freeSlots
  rcases spawnSlot_cases (s := s) hmode with hmem | ⟨heq,hempty⟩
  · have hlt := Finset.mem_range.mp (Finset.mem_filter.mp hmem).1
    have hpos := Finset.card_pos.mpr ⟨_,hmem⟩
    omega
  · rw [heq,hempty,Finset.card_empty]
    omega

/-- A new child takes one of the free slots. -/
theorem SpawnForks.freeSlots {pid : ℤ} {p : Entry} (h : SpawnForks s mode pid p s')
    (hmode : mode.isSlot = false) (hpid : p.pid ≠ -1) (hlast : s.lastProcess ≤ maxProcesses) :
    s'.freeSlots + 1 = s.freeSlots ∧ s'.lastProcess ≤ maxProcesses := by
  have hrange := h.inRange
  have hlast' := h.lastProcess
  rcases spawnSlot_cases (s := s) hmode with hmem | ⟨heq,hempty⟩
  · have hlt := Finset.mem_range.mp (Finset.mem_filter.mp hmem).1
    rw [if_neg (by simp; omega)] at hlast'
    have hunused : s'.unused = s.unused.erase (s.spawnSlot mode) := by
      ext j
      simp only [unused,hlast',h.processes,Finset.mem_filter,Finset.mem_erase]
      by_cases hj : j = s.spawnSlot mode
      · simp [hj,hpid]
      · simp [hj]
    have hcard := Finset.card_erase_add_one hmem
    rw [Master.freeSlots,Master.freeSlots,hunused,hlast']
    omega
  · rw [if_pos (by simp [hmode,heq])] at hlast'
    have hunused : s'.unused = ∅ := by
      refine Finset.filter_eq_empty_iff.mpr fun j hj => ?_
      rw [hlast',Finset.mem_range] at hj
      rw [h.processes]
      by_cases hjs : j = s.spawnSlot mode
      · simpa [hjs] using hpid
      · rw [Function.update_of_ne hjs]
        exact Finset.filter_eq_empty_iff.mp hempty (Finset.mem_range.mpr (by omega))
    rw [Master.freeSlots,Master.freeSlots,hunused,hempty,hlast']
    simp only [Finset.card_empty]
    omega

/-- One round of a start tells the truth when its call of `ngx_spawn_process` succeeds. -/
theorem startWorker_events {o : Outcome} (h : s.startWorker mode o = .ok s') (hmode : mode.isSlot = false)
    (hlast : s.lastProcess ≤ maxProcesses) : ∃ events, s'.log = s.log ++ events ∧
      ((∀ e ∈ events, e.Truthful) ↔ (o.forks mode).isSome ∧ s.freeSlots ≠ 0) ∧
      ((o.forks mode).isSome ∧ s.freeSlots ≠ 0 → s'.freeSlots + 1 = s.freeSlots) ∧
      s'.lastProcess ≤ maxProcesses := by
  obtain ⟨⟨t,child⟩,hspawn,ht⟩ := bind_ok h
  cases ht
  obtain ⟨targets,htargets⟩ := Reaping.passOpenChannel_log t (.spawn child) t.openMessage
  rcases spawnProcess_cases hspawn with ⟨rfl,hfail,hfails⟩ | ⟨pid,p,hfork,rfl,hforks⟩
  · obtain ⟨events,hlog,-⟩ := hfails.log
    rw [hlog,List.append_assoc] at htargets
    have hnot : ¬ ((o.forks mode).isSome ∧ s.freeSlots ≠ 0) := by
      rintro ⟨hsome,hfree⟩
      rcases hfail with hnone | ⟨-,hfull⟩
      · simp [hnone] at hsome
      · exact hfree ((full_iff hmode hlast).mp hfull)
    refine ⟨_,htargets,⟨fun htruthful => ?_,fun h => absurd h hnot⟩,fun h => absurd h hnot,
      hfails.lastProcess.trans_le hlast⟩
    exact absurd (htruthful _ (List.mem_append_right _ List.mem_cons_self)) id
  · rw [hforks.log,List.append_assoc] at htargets
    obtain ⟨fd0,fd1,hp⟩ := hforks.entry
    have hpid : p.pid ≠ -1 := by
      have hpos := (Outcome.pid_eq_some hfork).2
      have hppid : p.pid = pid := by rw [hp]; cases mode <;> rfl
      omega
    have hexited : p.exited = false := by rw [hp]; cases mode <;> rfl
    have hfree : s.freeSlots ≠ 0 := by
      rw [Ne,← full_iff hmode hlast]
      exact hforks.inRange.ne
    obtain ⟨hcount,hlast'⟩ := hforks.freeSlots hmode hpid hlast
    refine ⟨_,htargets,⟨fun _ => ⟨by simp [hfork],hfree⟩,fun _ e he => ?_⟩,fun _ => hcount,hlast'⟩
    simp only [List.cons_append,List.nil_append,List.mem_cons,List.mem_map] at he
    rcases he with rfl | rfl | rfl | ⟨n,-,rfl⟩
    · exact True.intro
    · exact True.intro
    · exact ⟨Reaping.openMessage_eq hforks,hexited⟩
    · exact True.intro

/-- Every call of `ngx_spawn_process` of a start succeeds. -/
def AllStart (s : Master) (n : ℕ) (mode : Respawn) (o : ℕ → Outcome) : Prop :=
  (∀ i < n, ((o i).forks mode).isSome) ∧ n ≤ s.freeSlots

theorem start_events {n : ℕ} (h : s.startWorkerProcesses n mode o = .ok s') (hmode : mode.isSlot = false)
    (hlast : s.lastProcess ≤ maxProcesses) : ∃ events, s'.log = s.log ++ events ∧
      ((∀ e ∈ events, e.Truthful) ↔ s.AllStart n mode o) ∧
      (s.AllStart n mode o → s'.freeSlots + n = s.freeSlots) ∧ s'.lastProcess ≤ maxProcesses := by
  induction n generalizing s' with
  | zero =>
    cases h
    exact ⟨[],by simp,by simp [AllStart],fun _ => rfl,hlast⟩
  | succ n ih =>
    unfold startWorkerProcesses at h
    rw [List.range_succ,List.foldlM_append] at h
    obtain ⟨t,ht,hround⟩ := bind_ok h
    simp only [List.foldlM_cons,List.foldlM_nil] at hround
    obtain ⟨u,hu,hu'⟩ := bind_ok hround
    cases hu'
    obtain ⟨events,hlog,htruthful,hfree,htlast⟩ := ih ht
    obtain ⟨new,hnew,hsaid,hcount,hulast⟩ := startWorker_events hu hmode htlast
    have hall : s.AllStart (n + 1) mode o ↔ s.AllStart n mode o ∧ ((o n).forks mode).isSome ∧ t.freeSlots ≠ 0 := by
      constructor
      · rintro ⟨hforks,hroom⟩
        have hbefore : s.AllStart n mode o := ⟨fun i hi => hforks i (by omega),by omega⟩
        have := hfree hbefore
        exact ⟨hbefore,hforks n (by omega),by omega⟩
      · rintro ⟨hbefore,hforks,hroom⟩
        have := hfree hbefore
        refine ⟨fun i hi => ?_,by omega⟩
        rcases Nat.lt_succ_iff_lt_or_eq.mp hi with hi | rfl
        · exact hbefore.1 i hi
        · exact hforks
    refine ⟨events ++ new,by rw [hnew,hlog,List.append_assoc],?_,fun h => ?_,hulast⟩
    · rw [List.forall_mem_append,htruthful,hsaid,hall]
    · obtain ⟨hbefore,hround⟩ := hall.mp h
      have := hfree hbefore
      have := hcount hround
      omega

end Master

/-- The broadcasts of a reaping pass tell the truth, and leave no survivor a descriptor of an exited
child that is not respawned, exactly when the pass respawns no child before it announces an exit;
those of a start of workers exactly when each of its children can be forked. -/
theorem messages_truthful_iff (s s' : Master) (o : ℕ → Outcome) :
    (∀ live, s.reapChildren o = .ok (s',live) → ∃ events, s'.log = s.log ++ events ∧
      (((∀ e ∈ events, e.Truthful) ∧
        ∀ (recv : ℤ → ℤ) (n i : ℕ) (w : Worker), s.Survives n → s.Exits i → ¬ s.Respawned o i →
          (s.processes i).detached = false ∨ w.channel0 i = -1 →
          (w.channelHandler (delivered recv n events)).channel0 i = -1) ↔ s.AnnouncedFirst o)) ∧
    ∀ n mode, s.startWorkerProcesses n mode o = .ok s' → mode.isSlot = false →
      s.lastProcess ≤ maxProcesses → ∃ events, s'.log = s.log ++ events ∧
        ((∀ e ∈ events, e.Truthful) ↔ s.AllStart n mode o) := by
  constructor
  · intro live h
    obtain ⟨r,j,events,rfl,hj,hpass⟩ := Master.reapChildren_pass h
    refine ⟨events,hpass.log,⟨fun htrue => (Master.pass_truthful hj hpass).mp htrue.1,fun hfirst => ?_⟩⟩
    exact ⟨(Master.pass_truthful hj hpass).mpr hfirst,
      fun recv n i w => Master.pass_survivor hj hpass hfirst recv w⟩
  · intro n mode h hmode hlast
    obtain ⟨events,hlog,htruthful,-⟩ := Master.start_events h hmode hlast
    exact ⟨events,hlog,htruthful⟩

/-- Three workers with the pids 100, 101 and 102; those in the slots 0 and 1 have exited. -/
def threeWorkers : Master where
  processes i := ⟨100 + i,0,10 + 2*i,11 + 2*i,true,false,false,false,i < 2⟩
  lastProcess := 3
  processSlot := 2
  channel := 15
  flags := ⟨false,false,false,false,false,false,false,false,0,true,false,false,false⟩
  log := []

theorem messages_truthful_iff_three :
    (∃ s' events, threeWorkers.reapChildren (fun _ => ⟨.none,none⟩) = .ok (s',true) ∧
      s'.log = threeWorkers.log ++ events ∧ ∀ e ∈ events, e.Truthful) ∧
    ∃ s' events, threeWorkers.startWorkerProcesses 1 .respawn (fun _ => ⟨.ready 20 21,some 200⟩) = .ok s' ∧
      s'.log = threeWorkers.log ++ events ∧ ∀ e ∈ events, e.Truthful := by
  constructor
  · obtain ⟨s',hs'⟩ : ∃ s', threeWorkers.reapChildren (fun _ => ⟨.none,none⟩) = .ok (s',true) := ⟨_,rfl⟩
    obtain ⟨events,hlog,hiff⟩ := (messages_truthful_iff threeWorkers s' fun _ => ⟨.none,none⟩).1 true hs'
    exact ⟨s',events,hs',hlog,(hiff.mpr fun k i hk _ => absurd hk.2.2 Bool.false_ne_true).1⟩
  · obtain ⟨s',hs'⟩ : ∃ s', threeWorkers.startWorkerProcesses 1 .respawn (fun _ => ⟨.ready 20 21,some 200⟩) =
      .ok s' := ⟨_,rfl⟩
    obtain ⟨events,hlog,hiff⟩ := (messages_truthful_iff threeWorkers s' fun _ => ⟨.ready 20 21,some 200⟩).2 1
      .respawn hs' rfl (by decide)
    exact ⟨s',events,hs',hlog,hiff.mpr ⟨fun i _ => rfl,by decide⟩⟩

/-- When the first of two exited workers is respawned and the second one is not, the exit of the
second is broadcast as the opening of its channel, and the survivor keeps a descriptor for it. -/
theorem exit_announced_as_open : ∃ s' live,
    threeWorkers.reapChildren (fun i => if i = 0 then ⟨.ready 20 21,some 200⟩ else ⟨.none,none⟩) = .ok (s',live) ∧
    .broadcast (.exit 1 101) ⟨.openChannel,101,1,20⟩ ∈ s'.log ∧
    ∀ w : Worker, (w.channelHandler (delivered id 2 s'.log)).channel0 1 = 20 := by
  refine ⟨_,_,rfl,?_,fun w => rfl⟩
  decide

end InsideNginx.Process
