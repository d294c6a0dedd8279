import CameoDb.Theorems.Node.DataLocks

/-! Claiming a data directory again: a record is being written or complete unless a process ended in between, a lock
    is had by a process that has the file open, and so the host that had a directory last can have it again. -/

namespace CameoDb
open List Option Transition DataDir ProcessPhase

variable {env : LockEnv}

namespace DataDirs
variable {s s' : DataDirs} {p q : ProcessId} {dir : DirPath}

/-- No process ends between creating a record and completing it. -/
def NotTorn (s : DataDirs) : LockStep → Prop
  | .crash p => ∀ d, (s.phase p).stageAt d ≠ some .writing
  | _ => True

/-- The process is past locking `d`, with or without success. -/
def Opened (phase : ProcessPhase) (d : DirPath) : Prop :=
  d ∈ phase.files ∨ ∃ stage, phase.stageAt d = some stage ∧ stage ≠ .locking

theorem Opened.of_engaged {phase : ProcessPhase} {d : DirPath} (h : phase.Engaged d) : Opened phase d := by
  rcases h with h | ⟨stage, hstage, hpast⟩
  · exact .inl h
  · refine .inr ⟨stage, hstage, ?_⟩
    rintro rfl
    exact hpast

/-- What a call leaves behind on a directory: a record that is not complete is there already or is being written by
    the caller, and the lock is where it was or the caller has it. -/
structure Call (env : LockEnv) (s : DataDirs) (p : ProcessId) (dir : DirPath) (d : DataDir) (phase : ProcessPhase) :
    Prop where
  file : d.ownerFile = (s.dirs dir).ownerFile ∨ (s.dirs dir).ownerFile = none ∨ (s.phase p).Owns dir ∨
    (s.phase p).Removing dir
  torn : ∀ q, d.ownerFile = some ⟨q, none⟩ → q = p ∧ phase.stageAt dir = some .writing ∨
    (s.dirs dir).ownerFile = some ⟨q, none⟩ ∧ ((s.phase p).stageAt dir = some .writing → q ≠ p)
  elsewhere : ∀ x, x ≠ dir → (s.phase p).stageAt x = none
  lock : ∀ h q, d.lock h = some q → (s.dirs dir).lock h = some q ∨ q = p ∧ h = env.host p
  files : ∀ x, x ≠ dir → Opened (s.phase p) x → Opened phase x
  opened : d.lock (env.host p) = some p → Opened phase dir

section Call
variable {held rest : List DirPath} {stage next : ClaimStage} {d : DataDir}

theorem mem_files_afterClaim {x : DirPath} (h : x ∈ held ∨ x = dir ∧ next = .claimed) :
    x ∈ (afterClaim held dir rest next).files := by
  unfold afterClaim
  split
  · rcases nextDir_cases (held ++ [dir]) rest with heq | ⟨_, _, -, heq⟩ <;> rw [heq] <;> simpa [files] using h
  · next hclaimed => exact h.resolve_right fun h => hclaimed h.2

theorem opened_afterClaim (hnext : next ≠ .locking) : Opened (afterClaim held dir rest next) dir := by
  by_cases hclaimed : next = .claimed
  · exact .inl (mem_files_afterClaim (.inr ⟨rfl, hclaimed⟩))
  · refine .inr ⟨next, ?_, hnext⟩
    cases next <;> first | exact absurd rfl hclaimed | exact stageAt_claiming.mpr ⟨rfl, rfl⟩

theorem Call.of_claims (hphase : s.phase p = .claiming held dir stage rest)
    (hclaim : Claims env p dir (s.dirs dir) stage next d) : Call env s p dir d (afterClaim held dir rest next) := by
  have hnext : next ≠ .locking := by cases hclaim <;> nofun
  refine ⟨?_, fun q hq =>
    ?_, by grind [stageAt], fun h q hq => ?_, fun x hne hx => ?_, fun _ => opened_afterClaim hnext⟩
  · rw [hphase, owns_claiming, removing_claiming]
    cases hclaim <;> grind
  · cases hclaim <;> grind [stageAt_claiming, afterClaim, removeOwner_eq, writeOwner_eq]
  · cases hclaim <;> grind [Function.update_apply, removeOwner_eq, writeOwner_eq]
  · rw [hphase] at hx
    rcases hx with hx | ⟨_, hx, -⟩
    · exact .inl (mem_files_afterClaim (.inl hx))
    · exact absurd (stageAt_claiming.mp hx).1 hne

/-- What a step of a process makes of the directories: a call on one of them, a change of its phase that keeps its
    files open, or its crash. -/
inductive Moves (env : LockEnv) (s : DataDirs) (p : ProcessId) : LockStep → DataDirs → Prop where
  | call {e : LockStep} {dir : DirPath} {d : DataDir} {phase : ProcessPhase} (call : Call env s p dir d phase) :
      Moves env s p e ((s.setDir dir d).setPhase p phase)
  | turn {e : LockStep} {phase : ProcessPhase} (stages : ∀ d, (s.phase p).stageAt d = none)
      (files : ∀ d ∈ (s.phase p).files, d ∈ phase.files) : Moves env s p e (s.setPhase p phase)
  | crash : Moves env s p (.crash p) (setPhase { s with dirs := fun dir => (s.dirs dir).unlock env p } p .gone)

theorem proceed_moves (hwf : (s.phase p).WellFormed) (hstep : s.proceed env p = some s') :
    Moves env s p (.proceed p) s' := by
  unfold DataDirs.proceed at hstep
  split at hstep
  · next held dir why rest hphase =>
    cases hstep
    refine .call ⟨.inl unlock_eq.1, ?_, ?_, ?_, ?_, ?_⟩
    all_goals grind [unlock_eq, stageAt, Opened, files]
  · next held dir stage rest hnotRefused hphase =>
    cases hstep
    rw [hphase, wellFormed_claiming] at hwf
    exact .call (.of_claims hphase (claim_cases hwf.2.2))
  · next held node dir unrecorded hphase =>
    cases hstep
    rw [hphase, wellFormed_running, forall_mem_cons] at hwf
    have howns : (s.phase p).Owns dir := by simp [hphase, hwf]
    have hopened : Opened (.running held node unrecorded) dir := .inl hwf.2.1
    refine .call ⟨.inr (.inr (.inl howns)), ?_, ?_, fun _ _ => .inl, ?_, fun _ => hopened⟩
    all_goals grind [stageAt, Opened, files, writeOwnerReplacing, removeOwner]
  · next dir records files_ hphase =>
    cases hstep
    rw [hphase, wellFormed_dropping] at hwf
    have howns : (s.phase p).Owns dir := by simp [hphase]
    have hopened : Opened (.dropping records files_) dir := .inl (hwf.1 dir mem_cons_self)
    refine .call ⟨.inr (.inr (.inl howns)), ?_, ?_, fun _ _ => .inl, ?_, fun _ => hopened⟩
    all_goals grind [stageAt, Opened, files, writeOwnerReplacing, removeOwner]
  · next dir files_ hphase =>
    cases hstep
    refine .call ⟨.inl unlock_eq.1, ?_, ?_, ?_, ?_, ?_⟩
    all_goals grind [unlock_eq, stageAt, Opened, files]
  · next hphase =>
    cases hstep
    exact .turn (by simp [hphase, stageAt]) (by simp [hphase, files])
  · cases hstep

end Call

/-- A record that is not complete is being written. -/
def Untorn (s : DataDirs) : Prop := ∀ d q, (s.dirs d).ownerFile = some ⟨q, none⟩ → (s.phase q).stageAt d = some .writing

/-- A lock is had by a process of its host that has the file open. -/
def Locked (env : LockEnv) (s : DataDirs) : Prop :=
  ∀ d host q, (s.dirs d).lock host = some q → env.host q = host ∧ Opened (s.phase q) d

variable {d : DataDir} {phase : ProcessPhase} {e : LockStep}

theorem Call.untorn (h : Call env s p dir d phase) (hs : s.Untorn) : ((s.setDir dir d).setPhase p phase).Untorn := by
  obtain ⟨after, hafter, hphase, hdirs⟩ : ∃ after, after = (s.setDir dir d).setPhase p phase ∧ _ := call_eq
  rw [← hafter]
  unfold Untorn at hs ⊢
  grind [h.torn, h.elsewhere]

theorem Call.locked (h : Call env s p dir d phase) (hs : s.Locked env) :
    ((s.setDir dir d).setPhase p phase).Locked env := by
  obtain ⟨after, hafter, hphase, hdirs⟩ : ∃ after, after = (s.setDir dir d).setPhase p phase ∧ _ := call_eq
  rw [← hafter]
  intro x host q hq
  have hold := hs x host q
  have hlock := h.lock host q
  grind [h.files, h.opened]

/-- The directories of a run in which no record is left incomplete. -/
structure Whole (env : LockEnv) (s : DataDirs) : Prop where
  sound : s.Sound env
  untorn : s.Untorn
  locked : s.Locked env

theorem whole_initial : initial.Whole env :=
  ⟨sound_initial, fun _ _ hq => (nomatch hq), fun _ _ _ hq => nomatch hq⟩

theorem step_moves (hwf : ∀ p, (s.phase p).WellFormed) (hstep : s.step env e = some s') :
    ∃ p, s.phase p ≠ .gone ∧ Moves env s p e s' := by
  cases e with
  | proceed p =>
    have hlive : s.phase p ≠ .gone := fun hgone => by simp [DataDirs.step, DataDirs.proceed, hgone] at hstep
    exact ⟨p, hlive, proceed_moves (hwf p) hstep⟩
  | acquire p dirs =>
    simp only [DataDirs.step, ite_none_right_eq_some, some.injEq] at hstep
    obtain ⟨hphase, rfl⟩ := hstep
    exact ⟨p, by simp [hphase], .turn (by simp [hphase, stageAt]) (by simp [hphase, files])⟩
  | recordNode p node | exit p =>
    simp only [DataDirs.step] at hstep
    split at hstep
    · next hphase =>
      cases hstep
      exact ⟨p, by simp [hphase], .turn (by simp [hphase, stageAt]) (by simp [hphase, files])⟩
    · cases hstep
  | crash p =>
    simp only [DataDirs.step, ite_none_left_eq_some, some.injEq] at hstep
    obtain ⟨hlive, rfl⟩ := hstep
    exact ⟨p, fun hgone => hlive (.inr hgone), .crash⟩

theorem Untorn.step (h : s.Untorn) (hwf : ∀ p, (s.phase p).WellFormed) (htorn : NotTorn s e)
    (hstep : s.step env e = some s') : s'.Untorn := by
  obtain ⟨p, -, hmoves⟩ := step_moves hwf hstep
  cases hmoves with
  | call hcall => exact hcall.untorn h
  | turn hstages =>
    intro d q hq
    have hwriting := h d q hq
    rwa [phase_setPhase_of_ne fun heq => by simp [heq, hstages d] at hwriting]
  | crash =>
    intro d q hq
    have hwriting := h d q (unlock_eq.1.symm.trans hq)
    rwa [phase_setPhase_of_ne fun heq : q = p => htorn d (heq ▸ hwriting)]

theorem Locked.step (h : s.Locked env) (hwf : ∀ p, (s.phase p).WellFormed) (hstep : s.step env e = some s') :
    s'.Locked env := by
  obtain ⟨p, -, hmoves⟩ := step_moves hwf hstep
  cases hmoves with
  | call hcall => exact hcall.locked h
  | turn hstages hfiles =>
    obtain ⟨after, hafter, hphase, hdirs⟩ : ∃ after, after = s.setPhase p _ ∧ _ := setPhase_eq
    rw [← hafter]
    unfold Locked at h ⊢
    grind [Opened]
  | crash =>
    intro d host q hq
    simp only [dirs_setPhase, unlock_eq] at hq
    obtain ⟨hhost, hopened⟩ := h d host q (by grind)
    rw [phase_setPhase_of_ne (by grind)]
    exact ⟨hhost, hopened⟩

theorem Whole.step (h : s.Whole env) (halone : BeginsAlone env s e) (htorn : NotTorn s e)
    (hstep : s.step env e = some s') : s'.Whole env := by
  have hwf (p : ProcessId) := (h.sound.process p).wellFormed
  exact ⟨h.sound.step halone hstep, h.untorn.step hwf htorn hstep, h.locked.step hwf hstep⟩

/-- Some run of claims alone gets `p` the directory. -/
def CanClaim (env : LockEnv) (s : DataDirs) (p : ProcessId) (d : DirPath) : Prop :=
  ∃ steps s', run (step env) s steps = some s' ∧ Transition.Along (step env) (BeginsAlone env) s steps ∧
    (∀ e ∈ steps, (∃ q, e = .proceed q) ∨ ∃ q dirs, e = .acquire q dirs) ∧ d ∈ (s'.phase p).held

theorem CanClaim.step (hstep : s.step env e = some s') (halone : BeginsAlone env s e)
    (hcall : (∃ q, e = .proceed q) ∨ ∃ q dirs, e = .acquire q dirs) (h : CanClaim env s' p dir) :
    CanClaim env s p dir := by
  obtain ⟨steps, last, hrun, halong, hcalls, hheld⟩ := h
  refine ⟨e :: steps, last, ?_, ⟨halone, ?_⟩, forall_mem_cons.mpr ⟨hcall, hcalls⟩, hheld⟩
  · rw [run, hstep]
    exact hrun
  · rw [hstep]
    exact halong

theorem CanClaim.proceed (halone : BeginsAlone env s (.proceed q)) (hstep : s.proceed env q = some s')
    (h : CanClaim env s' p dir) : CanClaim env s p dir := h.step (e := .proceed q) hstep halone (.inl ⟨q, rfl⟩)

theorem beginsAlone_of_stage {held rest : List DirPath} {stage : ClaimStage}
    (hphase : s.phase p = .claiming held dir stage rest)
    (hstage : stage ≠ .locking) : BeginsAlone env s (.proceed p) := by
  intro held' dir' rest' heq
  rw [hphase] at heq
  cases heq
  exact absurd rfl hstage

section CanClaim
variable {held rest : List DirPath} {attempt : Nat}

theorem CanClaim.claim {stage next : ClaimStage} {d : DataDir} (hphase : s.phase p = .claiming held dir stage rest)
    (halone : BeginsAlone env s (.proceed p)) (hstage : ∀ why, stage ≠ .refused why)
    (hclaim : (s.dirs dir).claim env p dir stage = (next, d))
    (h : CanClaim env ((s.setDir dir d).setPhase p (afterClaim held dir rest next)) p dir) : CanClaim env s p dir := by
  refine .proceed halone ?_ h
  cases stage with
  | refused why => exact absurd rfl (hstage why)
  | locking | reading | removing | creating | writing | claimed => simp only [DataDirs.proceed, hphase, hclaim]

theorem canClaim_writing (hphase : s.phase p = .claiming held dir .writing rest) : CanClaim env s p dir := by
  refine .claim hphase (beginsAlone_of_stage hphase nofun) nofun rfl ⟨[], _, rfl, trivial, nofun, ?_⟩
  rw [phase_setPhase, afterClaim, held_nextDir]
  exact mem_append_right _ (mem_singleton.mpr rfl)

theorem canClaim_creating (hphase : s.phase p = .claiming held dir (.creating attempt) rest)
    (hfile : (s.dirs dir).ownerFile = none) : CanClaim env s p dir := by
  have hclaim : (s.dirs dir).claim env p dir (.creating attempt) =
      (.writing, { s.dirs dir with ownerFile := some ⟨p, none⟩ }) := by
    simp only [claim, createOwner, hfile]
  exact .claim hphase (beginsAlone_of_stage hphase (by simp)) (by simp) hclaim (canClaim_writing phase_setPhase)

theorem canClaim_removing (hphase : s.phase p = .claiming held dir (.removing attempt) rest) :
    CanClaim env s p dir := by
  refine .claim hphase (beginsAlone_of_stage hphase nofun) nofun rfl (canClaim_creating phase_setPhase ?_)
  rw [dirs_setPhase, dirs_setDir]
  rfl

theorem canClaim_reading (hphase : s.phase p = .claiming held dir (.reading attempt) rest)
    (hfile : ∀ q content, (s.dirs dir).ownerFile = some ⟨q, content⟩ → ∃ owner, content = some owner ∧
    owner.host = env.host p) : CanClaim env s p dir := by
  have halone : BeginsAlone env s (.proceed p) := beginsAlone_of_stage hphase (by simp)
  cases hrecord : (s.dirs dir).ownerFile with
  | none =>
    have hclaim : (s.dirs dir).claim env p dir (.reading attempt) = (.creating attempt, s.dirs dir) := by
      simp only [claim, readOwner, hrecord]
    refine .claim hphase halone (by simp) hclaim (canClaim_creating phase_setPhase ?_)
    rw [dirs_setPhase, dirs_setDir]
    exact hrecord
  | some file =>
    obtain ⟨q, content⟩ := file
    obtain ⟨owner, rfl, hhost⟩ := hfile q content hrecord
    have hclaim : (s.dirs dir).claim env p dir (.reading attempt) = (.removing attempt, s.dirs dir) := by
      simp only [claim, readOwner, hrecord, hhost, if_true]
    exact .claim hphase halone (by simp) hclaim (canClaim_removing phase_setPhase)

theorem canClaim_absent (hphase : s.phase p = .absent)
    (hlock : env.locks dir = true → (s.dirs dir).lock (env.host p) = none) (hfree : FreeOfHost env s p dir)
    (hfile : ∀ q content, (s.dirs dir).ownerFile = some ⟨q, content⟩ → ∃ owner, content = some owner ∧
    owner.host = env.host p) : CanClaim env s p dir := by
  have hstep : s.step env (.acquire p [dir]) = some (s.setPhase p (nextDir [] [dir])) := if_pos hphase
  refine .step hstep trivial (.inr ⟨p, [dir], rfl⟩) ?_
  have halone : BeginsAlone env (s.setPhase p (nextDir [] [dir])) (.proceed p) := by
    intro held dir' rest heq hlocks q hne
    rw [phase_setPhase] at heq
    cases heq
    rw [phase_setPhase_of_ne hne]
    exact hfree hlocks q hne
  obtain ⟨d, hclaim, hsame⟩ : ∃ d, (s.dirs dir).claim env p dir .locking = (.reading 0, d) ∧
    d.ownerFile = (s.dirs dir).ownerFile := by
    cases hlocks : env.locks dir with
    | false => simp [claim, hlocks]
    | true => simp [claim, tryLock, hlocks, hlock hlocks]
  refine .claim phase_setPhase halone (by simp) hclaim (canClaim_reading phase_setPhase ?_)
  rwa [dirs_setPhase, dirs_setDir, hsame]

/-- `q` is gone, and of `dir` only its lock may have changed. -/
structure Left (env : LockEnv) (s s' : DataDirs) (q : ProcessId) (dir : DirPath) : Prop where
  gone : s'.phase q = .gone
  others : ∀ r, r ≠ q → s'.phase r = s.phase r
  file : (s'.dirs dir).ownerFile = (s.dirs dir).ownerFile
  lock : ∀ host r, (s'.dirs dir).lock host = some r → (s.dirs dir).lock host = some r
  whole : s'.Whole env

/-- A call that leaves the record there and gives no lock away. -/
theorem Left.of_call {file : DirPath} {d : DataDir} {phase : ProcessPhase}
    (h : Left env ((s.setDir file d).setPhase q phase) s' q dir)
    (hfile : dir = file → d.ownerFile = (s.dirs dir).ownerFile ∧ ∀ host r, d.lock host = some r →
    (s.dirs dir).lock host = some r) : Left env s s' q dir := by
  obtain ⟨after, hafter, hphase, hdirs⟩ : ∃ after, after = (s.setDir file d).setPhase q phase ∧ _ := call_eq
  rw [← hafter] at h
  refine ⟨h.gone, ?_, ?_, ?_, h.whole⟩
  · grind [h.others]
  · grind [h.file]
  · intro host r hr
    have hlock := h.lock host r hr
    grind

theorem canClaim_dropping {records files : List DirPath} (hphase : s.phase q = .dropping records files)
    (hrecords : dir ∉ records)
    (hs : s.Whole env) (h : ∀ s', Left env s s' q dir → CanClaim env s' p dir) : CanClaim env s p dir := by
  have halone {records files : List DirPath} {s : DataDirs} (hphase : s.phase q = .dropping records files) :
      BeginsAlone env s (.proceed q) := by
    intro _ _ _ heq
    rw [hphase] at heq
    cases heq
  induction records generalizing s with
  | nil =>
    induction files generalizing s with
    | nil =>
      have hstep : s.proceed env q = some (s.setPhase q .gone) := by simp only [DataDirs.proceed, hphase]
      have hwhole := hs.step (halone hphase) trivial hstep
      exact .proceed (halone hphase) hstep
        (h _ ⟨phase_setPhase, fun r hne => phase_setPhase_of_ne hne, rfl, fun _ _ hlock => hlock, hwhole⟩)
    | cons file files ih =>
      have hstep : s.proceed env q = some ((s.setDir file ((s.dirs file).unlock env q)).setPhase q
          (.dropping [] files)) := by
        simp only [DataDirs.proceed, hphase]
      exact .proceed (halone hphase) hstep (ih phase_setPhase (hs.step (halone hphase) trivial hstep)
        fun s' hleft => h s' (hleft.of_call (by grind [unlock_eq])))
  | cons record records ih =>
    have hstep : s.proceed env q = some ((s.setDir record (s.dirs record).removeOwner).setPhase q
        (.dropping records files)) := by
      simp only [DataDirs.proceed, hphase]
    exact .proceed (halone hphase) hstep (ih phase_setPhase (by grind) (hs.step (halone hphase) trivial hstep)
      fun s' hleft => h s' (hleft.of_call (by grind)))

theorem canClaim_refused {why : ClaimRefusal}
    (hphase : s.phase q = .claiming held dir (.refused why) rest) (hs : s.Whole env)
    (h : ∀ s', Left env s s' q dir → CanClaim env s' p dir) : CanClaim env s p dir := by
  have hwf := (hs.sound.process q).wellFormed
  rw [hphase, wellFormed_claiming] at hwf
  have halone : BeginsAlone env s (.proceed q) := beginsAlone_of_stage hphase nofun
  have hstep : s.proceed env q = some ((s.setDir dir ((s.dirs dir).unlock env q)).setPhase q
      (.dropping held held)) := by
    simp only [DataDirs.proceed, hphase]
  exact .proceed halone hstep (canClaim_dropping phase_setPhase hwf.2.1 (hs.step halone trivial hstep)
    fun s' hleft => h s' (hleft.of_call (by grind [unlock_eq])))

end CanClaim

section Again
variable {r : ProcessId}

theorem Whole.record (h : s.Whole env) (hlast : (s.dirs dir).lastOwner = some r)
    (hnone : ∀ q, ¬ (s.phase q).Owns dir) {q : ProcessId}
    {content : Option Owner} (hfile : (s.dirs dir).ownerFile = some ⟨q, content⟩) :
    q = r ∧ ∃ owner, content = some owner ∧ owner.host = env.host r := by
  cases content with
  | none => exact absurd (.inr (h.untorn dir q hfile)) (hnone q)
  | some owner =>
    obtain ⟨hhost, hlast'⟩ := h.sound.signed dir q owner hfile
    rw [hlast] at hlast'
    obtain rfl := some.inj hlast'
    exact ⟨rfl, owner, rfl, hhost⟩

theorem Whole.record_of_host (h : s.Whole env) (hlast : (s.dirs dir).lastOwner = some r)
    (hnone : ∀ q, ¬ (s.phase q).Owns dir)
    (hhost : env.host p = env.host r) (q : ProcessId) (content : Option Owner)
    (hfile : (s.dirs dir).ownerFile = some ⟨q, content⟩) :
    ∃ owner, content = some owner ∧ owner.host = env.host p := by
  obtain ⟨-, owner, hcontent, howner⟩ := h.record hlast hnone hfile
  exact ⟨owner, hcontent, howner.trans hhost.symm⟩

/-- A process that has the file open and does not own the directory is about to claim it or about to close it. -/
theorem opened_cases (hwf : (s.phase q).WellFormed) (hopened : Opened (s.phase q) dir)
    (hnone : ¬ (s.phase q).Owns dir) :
    (∃ held rest attempt, s.phase q = .claiming held dir (.reading attempt) rest ∨ s.phase q = .claiming held dir
    (.removing attempt) rest ∨ s.phase q = .claiming held dir (.creating attempt) rest) ∨
      (∃ held why rest, s.phase q = .claiming held dir (.refused why) rest) ∨ ∃ records files, s.phase q =
      .dropping records files ∧ dir ∉ records := by
  cases hphase : s.phase q with
  | absent | gone => simp [hphase, Opened, files, stageAt] at hopened
  | running held node unrecorded => simp_all [Opened, files, stageAt]
  | dropping records files => exact .inr (.inr ⟨records, files, rfl, by simpa [hphase] using hnone⟩)
  | claiming held d stage rest =>
    rw [hphase, wellFormed_claiming] at hwf
    rw [hphase, owns_claiming] at hnone
    simp only [hphase, Opened, stageAt_claiming, files] at hopened
    cases stage <;> grind

/-- A process of the host that stands in the way of the others: it has the lock, or is at work where there are no
    locks. -/
structure Blocks (env : LockEnv) (s : DataDirs) (q : ProcessId) (host : String) (dir : DirPath) : Prop where
  ofHost : env.host q = host
  opened : Opened (s.phase q) dir
  lock : env.locks dir = true → (s.dirs dir).lock host = some q
  engaged : env.locks dir = false → (s.phase q).Engaged dir

theorem Whole.blocks_or_free (h : s.Whole env) (host : String) (dir : DirPath) :
    (∃ q, Blocks env s q host dir) ∨
      (env.locks dir = true → (s.dirs dir).lock host = none) ∧
      (env.locks dir = false → ∀ q, env.host q = host → ¬ (s.phase q).Engaged dir) := by
  cases hlocks : env.locks dir with
  | false =>
    by_cases hex : ∃ q, env.host q = host ∧ (s.phase q).Engaged dir
    · obtain ⟨q, hhost, hengaged⟩ := hex
      exact .inl ⟨q, hhost, .of_engaged hengaged, fun h => (nomatch hlocks.symm.trans h), fun _ => hengaged⟩
    · exact .inr ⟨nofun, fun _ q hhost hengaged => hex ⟨q, hhost, hengaged⟩⟩
  | true =>
    cases hlock : (s.dirs dir).lock host with
    | none => exact .inr ⟨fun _ => rfl, nofun⟩
    | some q =>
      obtain ⟨hhost, hopened⟩ := h.locked dir host q hlock
      exact .inl ⟨q, hhost, hopened, fun _ => hlock, fun h => nomatch hlocks.symm.trans h⟩

theorem Whole.canClaim_left (h : s.Whole env) (hlast : (s.dirs dir).lastOwner = some r)
    (hnone : ∀ q, ¬ (s.phase q).Owns dir)
    (hp : s.phase p = .absent) (hhost : env.host p = env.host r) (hblocks : Blocks env s q (env.host r) dir)
    (hleft : Left env s s' q dir) : CanClaim env s' p dir := by
  obtain ⟨hq, hopened, hlock, hengaged⟩ := hblocks
  have hpq : p ≠ q := by
    rintro rfl
    rw [hp] at hopened
    rcases hopened with h | ⟨_, h, -⟩ <;> cases h
  refine canClaim_absent ((hleft.others p hpq).trans hp) (fun hlocks => ?_) (fun hlocks x _ hx hxe => ?_)
    (by rw [hleft.file]; exact h.record_of_host hlast hnone hhost)
  · rw [hhost]
    cases hlock' : (s'.dirs dir).lock (env.host r) with
    | none => rfl
    | some x =>
      have hold := hleft.lock _ x hlock'
      rw [hlock hlocks] at hold
      obtain rfl := some.inj hold
      have hstill := (hleft.whole.locked dir _ q hlock').2
      rw [hleft.gone] at hstill
      rcases hstill with h | ⟨_, h, -⟩ <;> cases h
  · by_cases hxq : x = q
    · rw [hxq, hleft.gone] at hxe
      exact (ProcessPhase.idle (.inr rfl)).2 dir hxe
    · rw [hleft.others x hxq] at hxe
      exact hxq (h.sound.one_of_host hxe (hengaged hlocks) (hx.trans (hhost.trans hq.symm)))

theorem Whole.claimable (h : s.Whole env) (hlast : (s.dirs dir).lastOwner = some r)
    (hnone : ∀ q, ¬ (s.phase q).Owns dir)
    (hp : s.phase p = .absent) (hhost : env.host p = env.host r) :
    ∃ q, env.host q = env.host r ∧ CanClaim env s q dir := by
  rcases h.blocks_or_free (env.host r) dir with ⟨q, hblocks⟩ | ⟨hlock, hfree⟩
  · have hleave {s' : DataDirs} (hleft : Left env s s' q dir) := h.canClaim_left hlast hnone hp hhost hblocks hleft
    have hq := hblocks.ofHost
    rcases opened_cases (h.sound.process q).wellFormed hblocks.opened (hnone q) with
      ⟨held, rest, attempt, hphase | hphase | hphase⟩ | ⟨held, why, rest, hphase⟩ | ⟨records, files, hphase, hrecords⟩
    · exact ⟨q, hq, canClaim_reading hphase (h.record_of_host hlast hnone hq)⟩
    · exact ⟨q, hq, canClaim_removing hphase⟩
    · refine ⟨q, hq, canClaim_creating hphase ?_⟩
      -- A record would be the last owner's, and there is none of this host.
      have hforeign := (h.sound.process q).foreign dir (hphase ▸ creating_claiming.mpr ⟨rfl, attempt, rfl⟩)
      cases hfile : (s.dirs dir).ownerFile with
      | none => rfl
      | some file =>
        obtain ⟨rfl, -⟩ := h.record hlast hnone hfile
        exact absurd hq.symm (hforeign _ _ hfile)
    · exact ⟨p, hhost, canClaim_refused hphase h fun _ => hleave⟩
    · exact ⟨p, hhost, canClaim_dropping hphase hrecords h fun _ => hleave⟩
  · refine ⟨p, hhost, canClaim_absent hp (fun hlocks => ?_) (fun hlocks q _ hq => hfree hlocks q (hq.trans hhost))
      (h.record_of_host hlast hnone hhost)⟩
    rw [hhost]
    exact hlock hlocks

end Again

/-- A record that a process has left incomplete. -/
def Torn (s : DataDirs) (d : DirPath) : Prop := ∃ q, (s.dirs d).ownerFile = some ⟨q, none⟩ ∧ s.phase q = .gone

/-- It stays: nobody owns it, so nobody completes or drops it, and nobody reads a host in it, so nobody removes it. -/
theorem Torn.step (h : s.Torn dir) (hs : s.Sound env) {e : LockStep} (hstep : s.step env e = some s') :
    s'.Torn dir := by
  obtain ⟨q, hfile, hgone⟩ := h
  obtain ⟨p, hlive, hmoves⟩ := step_moves (fun p => (hs.process p).wellFormed) hstep
  have hqp : q ≠ p := by
    rintro rfl
    exact hlive hgone
  refine ⟨q, ?_, ?_⟩
  · cases hmoves with
    | @call _ dir' d phase hcall =>
      rw [dirs_setPhase]
      by_cases heq : dir = dir'
      · subst heq
        rw [dirs_setDir]
        rcases hcall.file with hsame | hnone | howns | hremoving
        · rw [hsame]
          exact hfile
        · rw [hnone] at hfile
          cases hfile
        · obtain ⟨content, hmine⟩ := (hs.process p).own dir howns
          rw [hfile] at hmine
          cases hmine
          exact absurd rfl hqp
        · obtain ⟨r, owner, hstale, -⟩ := (hs.process p).stale dir hremoving
          rw [hfile] at hstale
          cases hstale
      · rw [dirs_setDir_of_ne heq]
        exact hfile
    | turn => exact hfile
    | crash =>
      rw [dirs_setPhase, unlock_eq.1]
      exact hfile
  · cases hmoves
    all_goals
      rw [phase_setPhase_of_ne hqp]
      exact hgone

theorem owns_of_held (hp : dir ∈ (s.phase p).held) : (s.phase p).Owns dir := by
  cases hphase : s.phase p <;> simp_all [ProcessPhase.held]

theorem Torn.not_held (h : s.Torn dir) (hs : s.Sound env) (p : ProcessId) : dir ∉ (s.phase p).held := by
  intro hheld
  obtain ⟨q, hfile, hgone⟩ := h
  obtain ⟨content, hmine⟩ := (hs.process p).own dir (owns_of_held hheld)
  rw [hfile] at hmine
  cases hmine
  rw [hgone] at hheld
  cases hheld

/-- So nobody ever holds the directory again. -/
theorem Torn.never_held (h : s.Torn dir) (hs : s.Sound env) {steps : List LockStep}
    (halone : Transition.Along (DataDirs.step env) (BeginsAlone env) s steps)
    (hrun : run (DataDirs.step env) s steps = some s') (p : ProcessId) : dir ∉ (s'.phase p).held := by
  have hkeep (s : DataDirs) (e : LockStep) (s' : DataDirs) (h : s.Sound env ∧ s.Torn dir) (hok : BeginsAlone env s e)
      (hstep : s.step env e = some s') : s'.Sound env ∧ s'.Torn dir := ⟨h.1.step hok hstep, h.2.step h.1 hstep⟩
  have hlater : s'.Sound env ∧ s'.Torn dir := run_invariant hkeep ⟨hs, h⟩ halone hrun
  exact hlater.2.not_held hlater.1 p

end DataDirs

open DataDirs

/-- In every run in which, on a filesystem without locks, no process begins with a directory while another of its
    host is at it or holds it, no two processes hold one directory. If moreover no process ends between creating its
    record and completing it, a directory that nobody has can be claimed again, by calls alone, by a process of the
    host that had it last. -/
theorem one_process_per_directory {steps : List LockStep} {s : DataDirs}
    (hrun : run (DataDirs.step env) .initial steps = some s)
    (halone : Transition.Along (DataDirs.step env) (BeginsAlone env) .initial steps) :
    (∀ p q d, d ∈ (s.phase p).held → d ∈ (s.phase q).held → p = q) ∧
      (Transition.Along (DataDirs.step env) NotTorn .initial steps → ∀ d last p, (s.dirs d).lastOwner = some last →
        (∀ q, ¬ (s.phase q).Owns d) → s.phase p = .absent → env.host p = env.host last →
          ∃ q, env.host q = env.host last ∧ CanClaim env s q d) := by
  constructor
  · have hsound : s.Sound env := run_invariant (fun s e s' h hok hstep => Sound.step h hok hstep)
      sound_initial halone hrun
    intro p q d hp hq
    obtain ⟨content, hfile⟩ := (hsound.process p).own d (owns_of_held hp)
    obtain ⟨content', hfile'⟩ := (hsound.process q).own d (owns_of_held hq)
    rw [hfile] at hfile'
    cases hfile'
    rfl
  · intro htorn d last p hlast hnone hp hhost
    have hwhole : s.Whole env :=
      run_invariant (fun s e s' h hok hstep => Whole.step h hok.1 hok.2 hstep) whole_initial (halone.and htorn) hrun
    exact hwhole.claimable hlast hnone hp hhost

/-- Two processes on one host, and a third on another. -/
def threeProcesses (locks : Bool) : LockEnv where
  locks _ := locks
  owner p := ⟨if p = 3 then "b" else "a", p, "", "", "node", none⟩

def claimAndCrash : List LockStep := [.acquire 1 ["/data"], .proceed 1, .proceed 1, .proceed 1, .proceed 1, .crash 1]

theorem one_process_per_directory_claimAndCrash :
    ∃ s, run (DataDirs.step (threeProcesses false)) .initial claimAndCrash = some s ∧
      ∃ q, (threeProcesses false).host q = "a" ∧ CanClaim (threeProcesses false) s q "/data" := by
  have halone : Transition.Along (DataDirs.step (threeProcesses false)) (BeginsAlone (threeProcesses false))
      .initial claimAndCrash := by
    refine ⟨trivial, ?_, beginsAlone_of_stage rfl nofun, beginsAlone_of_stage rfl nofun,
      beginsAlone_of_stage rfl nofun, trivial, trivial⟩
    intro held dir rest _ _ q hne _ hengaged
    rw [phase_setPhase_of_ne hne] at hengaged
    rcases hengaged with h | ⟨_, h, -⟩ <;> cases h
  have htorn : Transition.Along (DataDirs.step (threeProcesses false)) NotTorn .initial claimAndCrash :=
    ⟨trivial, trivial, trivial, trivial, trivial, fun d => nofun, trivial⟩
  obtain ⟨-, hclaim⟩ := one_process_per_directory rfl halone
  refine ⟨_, rfl, hclaim htorn "/data" 1 2 rfl (fun q howns => ?_) rfl rfl⟩
  by_cases hq : q = 1
  · subst hq
    rcases howns with h | h <;> cases h
  · simp only [setPhase, setDir, Function.update_of_ne hq, initial] at howns
    rcases howns with h | h <;> cases h

/-- Without locks, the record of a running process is taken for a stale one by the next process of its host. With
    locks, a crash between creating the record and completing it keeps every process out of the directory, whatever
    happens after it. -/
theorem record_misjudged :
    (∃ s, run (DataDirs.step (threeProcesses false)) .initial
        [.acquire 1 ["/data"], .proceed 1, .proceed 1, .proceed 1, .proceed 1,
          .acquire 2 ["/data"], .proceed 2, .proceed 2, .proceed 2, .proceed 2, .proceed 2] = some s ∧
      "/data" ∈ (s.phase 1).held ∧ "/data" ∈ (s.phase 2).held) ∧
    ∃ s, run (DataDirs.step (threeProcesses true)) .initial
        [.acquire 1 ["/data"], .proceed 1, .proceed 1, .proceed 1, .crash 1] = some s ∧
      ∀ steps s', run (DataDirs.step (threeProcesses true)) s steps = some s' → ∀ q, "/data" ∉ (s'.phase q).held := by
  refine ⟨⟨_, rfl, by decide, by decide⟩, ?_⟩
  have hcrash : ∃ s, run (DataDirs.step (threeProcesses true)) .initial
      [.acquire 1 ["/data"], .proceed 1, .proceed 1, .proceed 1, .crash 1] = some s ∧ s.Torn "/data" :=
        ⟨_, rfl, 1, rfl, rfl⟩
  have halone (s : DataDirs) (steps : List LockStep) :
      Transition.Along (DataDirs.step (threeProcesses true)) (BeginsAlone (threeProcesses true)) s steps := by
    refine Transition.Along.of_forall (fun e _ s => ?_) s
    cases e with
    | proceed p => exact fun _ _ _ _ => nofun
    | acquire | recordNode | exit | crash => trivial
  obtain ⟨s, hrun, htorn⟩ := hcrash
  have hsound : s.Sound (threeProcesses true) :=
    run_invariant (fun s e s' h hok hstep => Sound.step h hok hstep) sound_initial (halone _ _) hrun
  exact ⟨s, hrun, fun steps s' hlater q => Torn.never_held htorn hsound (halone s steps) hlater q⟩

end CameoDb
