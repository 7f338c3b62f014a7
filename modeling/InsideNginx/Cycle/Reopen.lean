import InsideNginx.Cycle.InitCycle
import InsideNginx.Lists.Pushes

/-! `ngx_reopen_files`, and the descriptors that it opens and closes. -/
namespace InsideNginx.Cycle
open Palloc InsideNginx.Lists PartChain Transfer

/-- `(ngx_uid_t) NGX_CONF_UNSET_UINT`. -/
def unsetUser : ℕ := 2^32 - 1

/-- `S_IRUSR|S_IWUSR`. -/
def ownerMode : ℕ := 384

/-- `ngx_open_file_t`; `flush` tells whether it has a handler. -/
structure FlushedFile extends OpenFile where
  flush : Bool
  deriving DecidableEq, Repr

/-- The owner and the mode in `ngx_file_info_t`. -/
structure FileInfo where
  uid : ℕ
  mode : ℕ
  deriving DecidableEq, Repr

/-- What the system decides for the file at an address: whether the calls succeed, and which number a new
descriptor gets when some are open. -/
structure ReopenEnv where
  opens : ℕ → Bool
  number : ℕ → Finset ℤ → ℤ
  info : ℕ → Option FileInfo
  chown : ℕ → ℕ → Bool
  chmod : ℕ → ℕ → Bool
  fcntl : ℕ → Bool

/-- A new descriptor is a number that is not in use. -/
def ReopenEnv.Honest (env : ReopenEnv) : Prop := ∀ a table, env.number a table ∉ table ∧ env.number a table ≠ invalidFile

/-- The files, the open descriptors, those that the call has opened and closed, and the files that it has
flushed. -/
structure Reopening where
  files : ℕ → FlushedFile
  table : Finset ℤ
  calls : List (Transfer ℤ)
  flushed : List ℕ

namespace Reopening

/-- `ngx_open_file`. -/
def openFile (env : ReopenEnv) (a : ℕ) (s : Reopening) : ℤ × Reopening :=
  if env.opens a then
    let fd := env.number a s.table
    (fd,{ s with table := insert fd s.table, calls := s.calls ++ [handed fd] })
  else (invalidFile,s)

/-- `ngx_close_file`. -/
def closeFile (fd : ℤ) (s : Reopening) : Reopening :=
  { s with table := s.table.erase fd, calls := s.calls ++ [freed fd] }

end Reopening

/-- The end of a turn, from `fcntl` on. -/
def adoptFile (env : ReopenEnv) (a : ℕ) (fd : ℤ) (s : Reopening) : Reopening :=
  if env.fcntl a = false then s.closeFile fd
  else
    let s := s.closeFile (s.files a).fd
    { s with files := Function.update s.files a { s.files a with fd := fd } }

/-- A turn of the loop in `ngx_reopen_files`. -/
def reopenFile (env : ReopenEnv) (user a : ℕ) (s : Reopening) : Reopening :=
  if (s.files a).name.length = 0 then s
  else
    let s := if (s.files a).flush then { s with flushed := s.flushed ++ [a] } else s
    let (fd,s) := s.openFile env a
    if fd = invalidFile then s
    else if user ≠ unsetUser then
      match env.info a with
      | none => s.closeFile fd
      | some fi =>
        if fi.uid ≠ user ∧ env.chown a user = false then s.closeFile fd
        else if fi.mode &&& ownerMode ≠ ownerMode ∧ env.chmod a (fi.mode ||| ownerMode) = false then s.closeFile fd
        else adoptFile env a fd s
    else adoptFile env a fd s

/-- `ngx_reopen_files`; at its end it calls `ngx_log_redirect_stderr`. -/
def reopenFiles (env : ReopenEnv) (redirect : Reopening → Reopening) (fuel : ℕ) (openFiles : NgxList)
    (files : ℕ → FlushedFile) (table : Finset ℤ) (user : ℕ) : Except Fault Reopening :=
  (iterate openFiles (fun a s => (reopenFile env user a s,(none : Option Empty))) fuel ⟨files,table,[],[]⟩).map fun r =>
    redirect r.1

/-! ### One file -/

/-- All steps for a file succeed. -/
def ReopenEnv.Passes (env : ReopenEnv) (user a : ℕ) : Prop :=
  env.opens a = true ∧ (user ≠ unsetUser → ∃ fi, env.info a = some fi ∧ (fi.uid = user ∨ env.chown a user = true) ∧
    (fi.mode &&& ownerMode = ownerMode ∨ env.chmod a (fi.mode ||| ownerMode) = true)) ∧ env.fcntl a = true

/-- What a turn of the loop can do: nothing without a name; otherwise a new descriptor takes the place of the
old one, or it is closed again if it was opened at all. -/
inductive Turn (env : ReopenEnv) (user a : ℕ) (s : Reopening) : Reopening → Prop
  | unnamed (hname : (s.files a).name = []) : Turn env user a s s
  | failed {s' : Reopening} (hname : (s.files a).name ≠ []) (hfail : ¬env.Passes user a) (hfiles : s'.files = s.files)
      (htable : s'.table = s.table)
      (hcalls : s'.calls = s.calls ∨ ∃ fd ∉ s.table, s'.calls = s.calls ++ [handed fd,freed fd]) : Turn env user a s s'
  | reopened {s' : Reopening} {fd : ℤ} (hname : (s.files a).name ≠ []) (hpass : env.Passes user a)
      (hfd : fd = env.number a s.table) (hnew : fd ∉ s.table)
      (hfiles : s'.files = Function.update s.files a { s.files a with fd := fd })
      (htable : s'.table = (insert fd s.table).erase (s.files a).fd)
      (hcalls : s'.calls = s.calls ++ [handed fd,freed (s.files a).fd]) : Turn env user a s s'

variable {env : ReopenEnv} {user a : ℕ} {s : Reopening}

/-- The state once the file is open. -/
def Reopening.opened (s : Reopening) (fd : ℤ) : Reopening :=
  { s with table := insert fd s.table, calls := s.calls ++ [handed fd] }

theorem turn_close {fd : ℤ} (hname : (s.files a).name ≠ []) (hfail : ¬env.Passes user a) (hnew : fd ∉ s.table) :
    Turn env user a s ((s.opened fd).closeFile fd) :=
  .failed hname hfail rfl (Finset.erase_insert hnew) (.inr ⟨fd,hnew,List.append_assoc ..⟩)

theorem turn_adopt {fd : ℤ} (hname : (s.files a).name ≠ []) (hpass : env.Passes user a ↔ env.fcntl a = true)
    (hfd : fd = env.number a s.table) (hnew : fd ∉ s.table) : Turn env user a s (adoptFile env a fd (s.opened fd)) := by
  unfold adoptFile
  split_ifs with hfcntl
  · exact turn_close hname (by rw [hpass,hfcntl]; exact Bool.false_ne_true) hnew
  · exact .reopened hname (hpass.mpr (by simpa using hfcntl)) hfd hnew rfl rfl (List.append_assoc ..)

theorem Turn.of_flushed {s' s'' : Reopening} (h : Turn env user a s' s'') (hname : (s.files a).name ≠ [])
    (hfiles : s'.files = s.files) (htable : s'.table = s.table) (hcalls : s'.calls = s.calls) : Turn env user a s s'' := by
  cases h with
  | unnamed hempty => exact absurd (hfiles ▸ hempty) hname
  | failed _ hfail hf ht hc => exact .failed hname hfail (hfiles ▸ hf) (htable ▸ ht) (by rwa [htable,hcalls] at hc)
  | reopened _ hpass hfd hnew hf ht hc =>
    rw [hfiles] at hf ht hc
    rw [htable] at hfd hnew ht
    rw [hcalls] at hc
    exact .reopened hname hpass hfd hnew hf ht hc

/-- The turn behind the flush. -/
theorem reopenFile_turn (henv : env.Honest) (user a : ℕ) (s : Reopening) : Turn env user a s (reopenFile env user a s) := by
  unfold reopenFile
  by_cases hname : (s.files a).name = []
  · rw [if_pos (by rw [hname]; rfl)]
    exact .unnamed hname
  rw [if_neg (by simpa using hname)]
  have hflush : ∀ s', s' = (if (s.files a).flush then { s with flushed := s.flushed ++ [a] } else s) →
      s'.files = s.files ∧ s'.table = s.table ∧ s'.calls = s.calls := by
    intro s' hs'
    split_ifs at hs' <;> rw [hs'] <;> exact ⟨rfl,rfl,rfl⟩
  dsimp only
  generalize hs₁ : (if (s.files a).flush then { s with flushed := s.flushed ++ [a] } else s) = s₁
  obtain ⟨hfiles,htable,hcalls⟩ := hflush s₁ hs₁.symm
  have hname₁ : (s₁.files a).name ≠ [] := hfiles ▸ hname
  refine Turn.of_flushed ?_ hname hfiles htable hcalls
  obtain ⟨hnew,hvalid⟩ := henv a s₁.table
  by_cases hopens : env.opens a = true
  · have hopen : s₁.openFile env a = (env.number a s₁.table,s₁.opened (env.number a s₁.table)) := by
      rw [Reopening.openFile,if_pos hopens]
      rfl
    rw [hopen]
    dsimp only
    rw [if_neg hvalid]
    by_cases huser : user ≠ unsetUser
    · rw [if_pos huser]
      cases hinfo : env.info a with
      | none => exact turn_close hname₁ (fun h => by obtain ⟨fi,hfi,-⟩ := h.2.1 huser; simp [hinfo] at hfi) hnew
      | some fi =>
        have hpass : env.Passes user a ↔ (fi.uid = user ∨ env.chown a user = true) ∧
            (fi.mode &&& ownerMode = ownerMode ∨ env.chmod a (fi.mode ||| ownerMode) = true) ∧ env.fcntl a = true := by
          simp [ReopenEnv.Passes,hopens,huser,hinfo,and_assoc]
        dsimp only
        split_ifs with hown hmode
        · refine turn_close hname₁ (fun h => ?_) hnew
          simp [hpass,hown.1,hown.2] at h
        · refine turn_close hname₁ (fun h => ?_) hnew
          simp [hpass,hmode.1,hmode.2] at h
        · refine turn_adopt hname₁ (hpass.trans ?_) rfl hnew
          have hown' : fi.uid = user ∨ env.chown a user = true := by
            rw [not_and_or] at hown
            exact hown.imp not_not.mp (by simp)
          have hmode' : fi.mode &&& ownerMode = ownerMode ∨ env.chmod a (fi.mode ||| ownerMode) = true := by
            rw [not_and_or] at hmode
            exact hmode.imp not_not.mp (by simp)
          simp [hown',hmode']
    · rw [if_neg huser]
      exact turn_adopt hname₁ (by simp [ReopenEnv.Passes,hopens,not_not.mp huser]) rfl hnew
  · have hopen : s₁.openFile env a = (invalidFile,s₁) := by rw [Reopening.openFile,if_neg hopens]
    rw [hopen]
    exact .failed hname₁ (fun h => hopens h.1) rfl rfl (.inl rfl)

/-! ### All files -/

/-- The entries with a name. -/
def named (files : ℕ → FlushedFile) (slots : List ℕ) : List ℕ := slots.filter fun a => (files a).name ≠ []

/-- The descriptors that the entries with a name hold. -/
def held (files : ℕ → FlushedFile) (slots : List ℕ) : List ℤ := (named files slots).map fun a => (files a).fd

/-- The descriptors of others. -/
def elsewhere (files : ℕ → FlushedFile) (table : Finset ℤ) (slots : List ℕ) : Finset ℤ := table \ (held files slots).toFinset

/-- What the entry `a` is afterwards: as it was, or with a new descriptor if all steps succeed. -/
def Result (env : ReopenEnv) (user a : ℕ) (file file' : FlushedFile) : Prop :=
  (file.name ≠ [] ∧ env.Passes user a → ∃ t, env.number a t ∉ t ∧ file' = { file with fd := env.number a t }) ∧
  (¬(file.name ≠ [] ∧ env.Passes user a) → file' = file)

/-- The invariant of the loop: the descriptors in the table are those of the entries and of others, and all
that are opened and not closed are with an entry. -/
structure Reopening.Sound (files : ℕ → FlushedFile) (table : Finset ℤ) (slots : List ℕ) (s : Reopening) : Prop where
  names : ∀ a, (s.files a).name = (files a).name
  log : Holds ((held files slots).map handed ++ s.calls) (held s.files slots)
  descriptors : s.table = elsewhere files table slots ∪ (held s.files slots).toFinset
  apart : ∀ fd ∈ held s.files slots, fd ∉ elsewhere files table slots

variable {files : ℕ → FlushedFile} {table : Finset ℤ} {slots : List ℕ} {s' : Reopening}

theorem Turn.result (h : Turn env user a s s') : Result env user a (s.files a) (s'.files a) ∧
    ∀ b ≠ a, s'.files b = s.files b := by
  cases h with
  | unnamed hname => exact ⟨⟨fun h => absurd hname h.1,fun _ => rfl⟩,fun _ _ => rfl⟩
  | failed _ hfail hfiles =>
    rw [hfiles]
    exact ⟨⟨fun h => absurd h.2 hfail,fun _ => rfl⟩,fun _ _ => rfl⟩
  | reopened hname hpass hfd hnew hfiles =>
    rw [hfiles,Function.update_self]
    refine ⟨⟨fun _ => ⟨s.table,hfd ▸ hnew,by rw [hfd]⟩,fun h => absurd ⟨hname,hpass⟩ h⟩,fun b hb => ?_⟩
    exact Function.update_of_ne hb _ _

theorem named_congr {files' : ℕ → FlushedFile} (h : ∀ a, (files' a).name = (files a).name) (slots : List ℕ) :
    named files' slots = named files slots := List.filter_congr fun a _ => by rw [h a]

/-- A named entry gets another descriptor. -/
theorem held_update (hnodup : slots.Nodup) (ha : a ∈ named files slots) (fd : ℤ) :
    ∃ rest, (held files slots).Perm ((files a).fd::rest) ∧
      (held (Function.update files a { files a with fd := fd }) slots).Perm (fd::rest) := by
  have hperm := List.perm_cons_erase ha
  have hnames : ∀ b, (Function.update files a { files a with fd := fd } b).name = (files b).name := by
    intro b
    by_cases hb : b = a
    · rw [hb,Function.update_self]
    · rw [Function.update_of_ne hb]
  refine ⟨((named files slots).erase a).map fun b => (files b).fd,hperm.map _,?_⟩
  unfold held
  rw [named_congr hnames]
  refine (hperm.map _).trans (List.Perm.of_eq ?_)
  rw [List.map_cons,Function.update_self]
  refine congrArg _ (List.map_congr_left fun b hb => ?_)
  rw [Function.update_of_ne]
  rintro rfl
  exact (hnodup.filter _).not_mem_erase hb

theorem Turn.sound (h : Turn env user a s s') (hs : s.Sound files table slots) (hnodup : slots.Nodup) (ha : a ∈ slots) :
    s'.Sound files table slots := by
  have hheld : ∀ fd ∉ s.table, fd ∉ held s.files slots := fun fd hfd hmem => hfd (by
    rw [hs.descriptors]
    exact Finset.mem_union_right _ (List.mem_toFinset.mpr hmem))
  cases h with
  | unnamed => exact hs
  | failed _ _ hfiles htable hcalls =>
    refine ⟨hfiles ▸ hs.names,?_,by rw [htable,hfiles,hs.descriptors],hfiles ▸ hs.apart⟩
    rw [hfiles]
    obtain hcalls | ⟨fd,hnew,hcalls⟩ := hcalls
    · rw [hcalls]
      exact hs.log
    · have hlog := (hs.log.hand (hheld fd hnew)).free
      rw [List.append_assoc,List.append_assoc] at hlog
      rw [hcalls]
      exact hlog
  | @reopened _ fd hname _ _ hnew hfiles htable hcalls =>
    have hnamed : a ∈ named s.files slots := List.mem_filter.mpr ⟨ha,by simpa using hname⟩
    obtain ⟨rest,hold,hupdate⟩ := held_update hnodup hnamed fd
    rw [← hfiles] at hupdate
    have hlog := (((hs.log.hand (hheld fd hnew)).perm (hold.cons fd)).perm (List.Perm.swap ..)).free
    rw [List.append_assoc,List.append_assoc] at hlog
    obtain ⟨hrest,-⟩ := List.nodup_cons.mp (hold.nodup hs.log.nodup)
    have hfd : fd ∉ elsewhere files table slots ∧ fd ∉ held s.files slots := by
      rw [hs.descriptors,Finset.mem_union,List.mem_toFinset,not_or] at hnew
      exact hnew
    have hne : fd ≠ (s.files a).fd := fun heq => hfd.2 (heq ▸ hold.symm.subset List.mem_cons_self)
    refine ⟨fun b => ?_,?_,?_,fun x hx => ?_⟩
    · rw [← hs.names b,hfiles]
      by_cases hb : b = a
      · rw [hb,Function.update_self]
      · rw [Function.update_of_ne hb]
    · rw [hcalls]
      exact hlog.perm hupdate.symm
    · ext x
      have happart := hs.apart (s.files a).fd (hold.symm.subset List.mem_cons_self)
      rw [htable,hs.descriptors]
      simp only [Finset.mem_erase,Finset.mem_insert,Finset.mem_union,List.mem_toFinset,hold.mem_iff,hupdate.mem_iff,
        List.mem_cons]
      grind
    · rcases List.mem_cons.mp (hupdate.subset hx) with rfl | hx
      · exact hfd.1
      · exact hs.apart x (hold.symm.subset (List.mem_cons_of_mem _ hx))

/-- What a call leaves of the files, the descriptors and its record of them. -/
structure Reopened (env : ReopenEnv) (user : ℕ) (slots : List ℕ) (files : ℕ → FlushedFile) (table : Finset ℤ)
    (s : Reopening) : Prop where
  entries : ∀ a ∈ slots, Result env user a (files a) (s.files a)
  distinct : (held s.files slots).Nodup
  opened : ∀ fd ∈ held s.files slots, fd ∈ s.table
  log : Holds ((held files slots).map handed ++ s.calls) (held s.files slots)
  others : ∀ fd ∉ held files slots ++ held s.files slots, fd ∈ s.table ↔ fd ∈ table

theorem reopenAll_files (henv : env.Honest) (user : ℕ) (hnodup : slots.Nodup) (s : Reopening) :
    ∃ s', visitAll (fun a s => (reopenFile env user a s,(none : Option Empty))) slots s = (s',none) ∧
      (∀ a ∈ slots, Result env user a (s.files a) (s'.files a)) ∧ ∀ a ∉ slots, s'.files a = s.files a := by
  induction slots generalizing s with
  | nil => exact ⟨s,rfl,by simp,fun _ _ => rfl⟩
  | cons a slots ih =>
    obtain ⟨ha,hrest⟩ := List.nodup_cons.mp hnodup
    obtain ⟨s',hwalk,hin,hout⟩ := ih hrest (reopenFile env user a s)
    obtain ⟨hresult,hkeep⟩ := (reopenFile_turn henv user a s).result
    refine ⟨s',hwalk,fun b hb => ?_,fun b hb => ?_⟩
    · rcases List.mem_cons.mp hb with rfl | hb
      · rwa [hout b ha]
      · have hne : b ≠ a := ne_of_mem_of_not_mem hb ha
        rw [← hkeep b hne]
        exact hin b hb
    · rw [List.mem_cons,not_or] at hb
      exact (hout b hb.2).trans (hkeep b hb.1)

/-- The loop keeps the invariant. -/
theorem reopenAll_sound (henv : env.Honest) (user : ℕ) {part : List ℕ} (hsub : ∀ a ∈ part, a ∈ slots) (hnodup : slots.Nodup)
    (hs : s.Sound files table slots) :
    (visitAll (fun a s => (reopenFile env user a s,(none : Option Empty))) part s).1.Sound files table slots := by
  induction part generalizing s with
  | nil => exact hs
  | cons a part ih =>
    obtain ⟨ha,hpart⟩ := List.forall_mem_cons.mp hsub
    exact ih hpart ((reopenFile_turn henv user a s).sound hs hnodup ha)

/-- Descriptors are neither lost nor left open, whatever fails. -/
theorem reopen_conserved {align pagesize size : ℕ} (halign : align ∣ poolAlignment) (hsize : poolAlignment ∣ size)
    (hheader : poolHeader ≤ size) {t : Listing} (h : (listing align pagesize size).Reachable t) {l : NgxList}
    (hl : t.list = some l) (henv : env.Honest) {redirect : Reopening → Reopening}
    (hredirect : ∀ s, (redirect s).files = s.files ∧ (redirect s).table = s.table ∧ (redirect s).calls = s.calls)
    (user : ℕ) (hdistinct : (held files t.returned).Nodup) (hopen : ∀ fd ∈ held files t.returned, fd ∈ table)
    {fuel : ℕ} (hfuel : t.returned.length < fuel) :
    ∃ s, reopenFiles env redirect fuel l files table user = .ok s ∧ Reopened env user t.returned files table s := by
  obtain ⟨chain,howned,hslots⟩ := (listing_sound halign hsize hheader h).owned hl
  have hnodup : t.returned.Nodup := hslots ▸ howned.slots_nodup
  have hstart : Reopening.Sound files table t.returned ⟨files,table,[],[]⟩ := by
    refine ⟨fun _ => rfl,?_,?_,fun fd hfd => ?_⟩
    · have hhanded : Holds ([] ++ (held files t.returned).map handed) (held files t.returned ++ []) :=
        Holds.nil.handAll (by simpa using hdistinct)
      simpa using hhanded
    · refine (Finset.sdiff_union_of_subset fun fd hfd => ?_).symm
      exact hopen fd (List.mem_toFinset.mp hfd)
    · simp [elsewhere,hfd]
  obtain ⟨s,hwalk,hin,-⟩ := reopenAll_files henv user hnodup ⟨files,table,[],[]⟩
  have hsound := reopenAll_sound henv user (fun a ha => ha) hnodup hstart
  rw [hwalk] at hsound
  obtain ⟨hfiles,htable,hcalls⟩ := hredirect s
  refine ⟨redirect s,?_,?_,?_,?_,?_,?_⟩
  · rw [reopenFiles,iterate_eq howned.chained _ (hslots ▸ hfuel),hslots,hwalk]
    rfl
  · rw [hfiles]
    exact hin
  · rw [hfiles]
    exact hsound.log.nodup
  · rw [hfiles,htable,hsound.descriptors]
    exact fun fd hfd => Finset.mem_union_right _ (List.mem_toFinset.mpr hfd)
  · rw [hfiles,hcalls]
    exact hsound.log
  · intro fd hfd
    rw [hfiles,List.mem_append,not_or] at hfd
    rw [htable,hsound.descriptors]
    simp [elsewhere,hfd.1,hfd.2]

/-- Three files with names and one without: the second one cannot be given its mode. -/
def logFiles (a : ℕ) : FlushedFile :=
  if a = 1160 then ⟨⟨[97],10⟩,true⟩
  else if a = 1200 then ⟨⟨[98],11⟩,false⟩
  else if a = 1208 then ⟨⟨[99],12⟩,true⟩
  else ⟨⟨[],2⟩,false⟩

def logEnv : ReopenEnv where
  opens _ := true
  number _ table := ∑ fd ∈ table, |fd| + 1
  info _ := some ⟨0,288⟩
  chown _ _ := true
  chmod a _ := a != 1200
  fcntl _ := true

theorem reopen_conserved_logs : ∃ (t : Listing) (l : NgxList) (s : Reopening), t.list = some l ∧
    t.returned = [1160,1168,1200,1208] ∧
    reopenFiles logEnv (fun s => s) 5 l logFiles {2,10,11,12} 1000 = .ok s ∧
    Reopened logEnv 1000 t.returned logFiles {2,10,11,12} s := by
  obtain ⟨t,l,hreach,hl,hreturned⟩ := fullOps_reachable
  have hhonest : logEnv.Honest := by
    intro a table
    have hpos : 0 ≤ ∑ fd ∈ table, |fd| := Finset.sum_nonneg fun fd _ => abs_nonneg fd
    refine ⟨fun hmem => ?_,?_⟩
    · have hle := Finset.single_le_sum (f := fun fd : ℤ => |fd|) (fun fd _ => abs_nonneg fd) hmem
      have habs := le_abs_self (∑ fd ∈ table, |fd| + 1)
      simp only [logEnv] at hle
      omega
    · simp only [logEnv,invalidFile]
      omega
  have hdistinct : (held logFiles t.returned).Nodup := by
    rw [hreturned]
    decide
  have hopen : ∀ fd ∈ held logFiles t.returned, fd ∈ ({2,10,11,12} : Finset ℤ) := by
    rw [hreturned]
    decide
  have hfuel : t.returned.length < 5 := by
    rw [hreturned]
    decide
  obtain ⟨s,hs,hconserved⟩ := reopen_conserved (by decide) (by decide) (by decide) hreach hl hhonest
    (fun _ => ⟨rfl,rfl,rfl⟩) 1000 hdistinct hopen hfuel
  exact ⟨t,l,s,hl,hreturned,hs,hconserved⟩

end InsideNginx.Cycle
