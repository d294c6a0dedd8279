import CameoDb.Node.DataLock
import Mathlib.Data.List.Nodup

/-! Claims of data directories: a process past the lock is the only one of its host there, so the record of a
    process that holds a directory stays in place, and one process holds it at a time. -/

namespace CameoDb
open List Function Option

variable {env : LockEnv}

namespace ProcessPhase

def held : ProcessPhase → List DirPath
  | .claiming held .. | .running held .. => held
  | _ => []

/-- The directories whose record it has completed and not yet removed. -/
def records : ProcessPhase → List DirPath
  | .claiming held .. | .running held .. | .dropping held _ => held
  | _ => []

/-- The directories it has claimed and not yet closed the lock file of. -/
def files : ProcessPhase → List DirPath
  | .claiming held .. | .running held .. | .dropping _ held => held
  | _ => []

def stageAt : ProcessPhase → DirPath → Option ClaimStage
  | .claiming _ dir stage _, d => if d = dir then some stage else none
  | _, _ => none

/-- The process holds `d` or is writing its owner file. -/
def Owns (phase : ProcessPhase) (d : DirPath) : Prop := d ∈ phase.records ∨ phase.stageAt d = some .writing

/-- The stages of a claim after the advisory lock. -/
def PastLock : ClaimStage → Prop
  | .reading _ | .removing _ | .creating _ | .writing => True
  | _ => False

/-- The process may touch the owner file of `d`. -/
def Engaged (phase : ProcessPhase) (d : DirPath) : Prop :=
  d ∈ phase.files ∨ ∃ stage, phase.stageAt d = some stage ∧ PastLock stage

def Removing (phase : ProcessPhase) (d : DirPath) : Prop := ∃ attempt, phase.stageAt d = some (.removing attempt)

def Creating (phase : ProcessPhase) (d : DirPath) : Prop := ∃ attempt, phase.stageAt d = some (.creating attempt)

structure WellFormed (phase : ProcessPhase) : Prop where
  records_files : ∀ d ∈ phase.records, d ∈ phase.files
  records_nodup : phase.records.Nodup
  files_nodup : phase.files.Nodup
  fresh : ∀ d stage, phase.stageAt d = some stage → d ∉ phase.files
  unclaimed : ∀ d, phase.stageAt d ≠ some .claimed
  unrecorded : ∀ held node unrecorded, phase = .running held node unrecorded → ∀ d ∈ unrecorded, d ∈ held

variable {phase : ProcessPhase} {d : DirPath}

theorem Owns.engaged (hwf : phase.WellFormed) (h : phase.Owns d) : phase.Engaged d := by
  rcases h with h | h
  · exact .inl (hwf.records_files d h)
  · exact .inr ⟨_, h, trivial⟩

theorem Removing.engaged (h : phase.Removing d) : phase.Engaged d :=
  .inr ⟨_, h.choose_spec, trivial⟩

theorem Creating.engaged (h : phase.Creating d) : phase.Engaged d :=
  .inr ⟨_, h.choose_spec, trivial⟩

section Phases
variable {held rest records_ files_ unrecorded : List DirPath} {dir d : DirPath} {stage : ClaimStage}
  {node : Option String}

theorem stageAt_claiming {at_ : ClaimStage} : (claiming held dir stage rest).stageAt d = some at_ ↔
    d = dir ∧ stage = at_ := by
  simp only [stageAt, ite_none_right_eq_some, some.injEq]

@[simp] theorem owns_claiming : (claiming held dir stage rest).Owns d ↔ d ∈ held ∨ d = dir ∧ stage = .writing := by
  rw [Owns, stageAt_claiming, records]

@[simp] theorem engaged_claiming : (claiming held dir stage rest).Engaged d ↔ d ∈ held ∨ d = dir ∧ PastLock stage := by
  simp only [Engaged, stageAt_claiming, files]
  grind

theorem removing_claiming : (claiming held dir stage rest).Removing d ↔ d = dir ∧ ∃ attempt, stage =
    .removing attempt := by
  simp only [Removing, stageAt_claiming, exists_and_left]

theorem creating_claiming : (claiming held dir stage rest).Creating d ↔ d = dir ∧ ∃ attempt, stage =
    .creating attempt := by
  simp only [Creating, stageAt_claiming, exists_and_left]

theorem wellFormed_claiming : (claiming held dir stage rest).WellFormed ↔ held.Nodup ∧ dir ∉ held ∧
    stage ≠ .claimed := by
  constructor
  · intro h
    exact ⟨h.files_nodup, h.fresh dir stage (stageAt_claiming.mpr ⟨rfl, rfl⟩), fun heq =>
      h.unclaimed dir (stageAt_claiming.mpr ⟨rfl, heq⟩)⟩
  · rintro ⟨hnodup, hfresh, hstage⟩
    exact ⟨fun d hd => hd, hnodup, hnodup, by grind [stageAt_claiming, files], by grind [stageAt_claiming], nofun⟩

@[simp] theorem owns_running : (running held node unrecorded).Owns d ↔ d ∈ held := by simp [Owns, records, stageAt]

@[simp] theorem engaged_running : (running held node unrecorded).Engaged d ↔ d ∈ held := by
  simp [Engaged, files, stageAt]

@[simp] theorem owns_dropping : (dropping records_ files_).Owns d ↔ d ∈ records_ := by simp [Owns, records, stageAt]

@[simp] theorem engaged_dropping : (dropping records_ files_).Engaged d ↔ d ∈ files_ := by
  simp [Engaged, files, stageAt]

theorem wellFormed_running : (running held node unrecorded).WellFormed ↔ held.Nodup ∧ ∀ d ∈ unrecorded, d ∈ held := by
  constructor
  · intro h
    exact ⟨h.files_nodup, h.unrecorded held node unrecorded rfl⟩
  · rintro ⟨hnodup, hunrecorded⟩
    exact ⟨fun d hd => hd, hnodup, hnodup, nofun, nofun, fun _ _ _ heq => by cases heq; exact hunrecorded⟩

theorem wellFormed_dropping :
    (dropping records_ files_).WellFormed ↔ (∀ d ∈ records_, d ∈ files_) ∧ records_.Nodup ∧ files_.Nodup :=
  ⟨fun h => ⟨h.records_files, h.records_nodup, h.files_nodup⟩, fun h => ⟨h.1, h.2.1, h.2.2, nofun, nofun, nofun⟩⟩

/-- A phase in which nothing is claimed. -/
theorem idle {phase : ProcessPhase} (h : phase = .absent ∨ phase = .gone) :
    phase.WellFormed ∧ ∀ d, ¬ phase.Engaged d := by
  rcases h with rfl | rfl
  all_goals exact ⟨⟨nofun, .nil, .nil, nofun, nofun, nofun⟩, fun d => by simp [Engaged, files, stageAt]⟩

end Phases

end ProcessPhase

open ProcessPhase

section NextDir
variable {held rest : List DirPath} {dir d : DirPath} {stage next : ClaimStage}

theorem nextDir_cases (held rest : List DirPath) : nextDir held rest = .running held none [] ∨
    ∃ dir others, dir ∉ held ∧ nextDir held rest = .claiming held dir .locking others := by
  induction rest with
  | nil => exact .inl rfl
  | cons dir rest ih =>
    rw [nextDir]
    split
    · exact ih
    · exact .inr ⟨dir, rest, by assumption, rfl⟩

theorem nextDir_wellFormed (h : held.Nodup) : (nextDir held rest).WellFormed := by
  rcases nextDir_cases held rest with heq | ⟨dir, others, hfresh, heq⟩
  · exact heq ▸ wellFormed_running.mpr ⟨h, nofun⟩
  · exact heq ▸ wellFormed_claiming.mpr ⟨h, hfresh, nofun⟩

theorem held_nextDir : (nextDir held rest).held = held := by
  rcases nextDir_cases held rest with heq | ⟨dir, others, -, heq⟩
  all_goals rw [heq]; rfl

theorem owns_nextDir : (nextDir held rest).Owns d ↔ d ∈ held := by
  rcases nextDir_cases held rest with heq | ⟨dir, others, -, heq⟩ <;> simp [heq]

theorem engaged_nextDir : (nextDir held rest).Engaged d ↔ d ∈ held := by
  rcases nextDir_cases held rest with heq | ⟨dir, others, -, heq⟩ <;> simp [heq, PastLock]

theorem stageAt_nextDir (h : (nextDir held rest).stageAt d = some stage) : stage = .locking := by
  rcases nextDir_cases held rest with heq | ⟨dir, others, -, heq⟩ <;> rw [heq] at h
  · cases h
  · exact (stageAt_claiming.mp h).2.symm

theorem engaged_afterClaim : (afterClaim held dir rest next).Engaged d ↔ d ∈ held ∨ d = dir ∧
    (PastLock next ∨ next = .claimed) := by
  unfold afterClaim
  split
  · simp [engaged_nextDir, PastLock]
  · grind [engaged_claiming]

theorem owns_afterClaim : (afterClaim held dir rest next).Owns d ↔ d ∈ held ∨ d = dir ∧
    (next = .writing ∨ next = .claimed) := by
  unfold afterClaim
  split
  · simp [owns_nextDir]
  · grind [owns_claiming]

theorem stageAt_afterClaim (h : (afterClaim held dir rest next).stageAt d = some stage) :
    d = dir ∧ next = stage ∨ stage = .locking := by
  unfold afterClaim at h
  split at h
  · exact .inr (stageAt_nextDir h)
  · exact .inl (stageAt_claiming.mp h)

theorem afterClaim_wellFormed (h : (claiming held dir stage rest).WellFormed) :
    (afterClaim held dir rest next).WellFormed := by
  obtain ⟨hnodup, hfresh, -⟩ := wellFormed_claiming.mp h
  unfold afterClaim
  split
  · exact nextDir_wellFormed (hnodup.append (nodup_singleton _) (by simpa using hfresh))
  · next hclaimed => exact wellFormed_claiming.mpr ⟨hnodup, hfresh, hclaimed⟩

end NextDir

/-! ### What one call does -/

/-- What a call of `claim` does, and where it leaves the claim. -/
inductive Claims (env : LockEnv) (p : ProcessId) (dir : DirPath) (d : DataDir) :
    ClaimStage → ClaimStage → DataDir → Prop
  | locked : env.locks dir = true → d.lock (env.host p) = none →
      Claims env p dir d .locking (.reading 0) { d with lock := update d.lock (env.host p) (some p) }
  | unlocked : env.locks dir = false → Claims env p dir d .locking (.reading 0) d
  | absent {attempt : Nat} : d.ownerFile = none → Claims env p dir d (.reading attempt) (.creating attempt) d
  | stale {attempt : Nat} {q : ProcessId} {owner : Owner} : d.ownerFile = some ⟨q, some owner⟩ →
      owner.host = env.host p → Claims env p dir d (.reading attempt) (.removing attempt) d
  | removed {attempt : Nat} : Claims env p dir d (.removing attempt) (.creating attempt) d.removeOwner
  | created {attempt : Nat} : d.ownerFile = none →
      Claims env p dir d (.creating attempt) .writing { d with ownerFile := some ⟨p, none⟩ }
  | taken {attempt : Nat} : Claims env p dir d (.creating attempt) (.reading (attempt + 1)) d
  | written : Claims env p dir d .writing .claimed (d.writeOwner env p)
  | refused {stage : ClaimStage} {why : ClaimRefusal} : stage ≠ .writing → Claims env p dir d stage (.refused why) d

section Calls
variable {p q : ProcessId} {dir : DirPath} {d : DataDir} {stage : ClaimStage}

theorem claim_cases (h : stage ≠ .claimed) : Claims env p dir d stage (d.claim env p dir stage).1
    (d.claim env p dir stage).2 := by
  cases stage with
  | claimed => exact absurd rfl h
  | writing => exact .written
  | removing attempt => exact .removed
  | refused why => exact .refused nofun
  | locking =>
    simp only [DataDir.claim, DataDir.tryLock]
    grind [Claims]
  | reading attempt =>
    simp only [DataDir.claim, DataDir.readOwner]
    grind [Claims]
  | creating attempt =>
    simp only [DataDir.claim, DataDir.createOwner]
    grind [Claims]

theorem removeOwner_eq : d.removeOwner.ownerFile = none ∧ d.removeOwner.lock = d.lock := ⟨rfl, rfl⟩

theorem writeOwner_eq : (d.writeOwner env p).lock = d.lock ∧ (d.writeOwner env p).lastOwner = some p ∧
    (d.writeOwner env p).ownerFile =
    if d.ownerFile = some ⟨p, none⟩ then some ⟨p, some (env.owner p)⟩ else d.ownerFile := ⟨rfl, rfl, rfl⟩

variable {next : ClaimStage} {d' : DataDir}

/-- A call lets go of no lock of another process. -/
theorem Claims.lock (h : Claims env p dir d stage next d') (hlock : d.lock (env.host q) = some q) :
    d'.lock (env.host q) = some q := by
  cases h with
  | locked hlocks hnone =>
    have hhost : env.host q ≠ env.host p := fun hsame => by simp [hsame, hnone] at hlock
    exact (update_of_ne hhost ..).trans hlock
  | _ => exact hlock

/-- Past its lock a call is on a directory that its process has locked, if the directory can be. -/
theorem Claims.past (h : Claims env p dir d stage next d') (hnext : PastLock next ∨ next = .claimed) :
    (env.locks dir = true → (PastLock stage → d.lock (env.host p) = some p) → d'.lock (env.host p) = some p) ∧
      (PastLock stage ∨ stage = .locking) := by
  cases h <;> grind [PastLock, removeOwner_eq, writeOwner_eq, update_self]

theorem unlock_eq : (d.unlock env p).ownerFile = d.ownerFile ∧ (d.unlock env p).lastOwner = d.lastOwner ∧
    ∀ host, (d.unlock env p).lock host = if host = env.host p ∧ d.lock host = some p then none else d.lock host := by
  unfold DataDir.unlock
  split
  · refine ⟨rfl, rfl, fun host => ?_⟩
    grind [update_apply]
  · grind

end Calls

/-! ### What holds in every state -/

/-- A process has the lock of what it is past the lock of and its record where it owns it. What it is about to
    remove is a record of its host, and where it is about to create one there is none of its host. -/
structure DataDirs.ProcessSound (env : LockEnv) (s : DataDirs) (p : ProcessId) : Prop where
  wellFormed : (s.phase p).WellFormed
  own : ∀ d, (s.phase p).Owns d → ∃ content, (s.dirs d).ownerFile = some ⟨p, content⟩
  locked : ∀ d, env.locks d = true → (s.phase p).Engaged d → (s.dirs d).lock (env.host p) = some p
  stale : ∀ d, (s.phase p).Removing d → ∃ q owner, (s.dirs d).ownerFile = some ⟨q, some owner⟩ ∧ owner.host = env.host p
  foreign : ∀ d, (s.phase p).Creating d → ∀ q content, (s.dirs d).ownerFile = some ⟨q, content⟩ →
    env.host q ≠ env.host p

/-- The invariant of the directories over a run. -/
structure DataDirs.Sound (env : LockEnv) (s : DataDirs) : Prop where
  process : ∀ p, s.ProcessSound env p
  alone : ∀ p q d, env.locks d = false → (s.phase p).Engaged d → (s.phase q).Engaged d → env.host p = env.host q → p = q
  signed : ∀ d q owner, (s.dirs d).ownerFile = some ⟨q, some owner⟩ → owner.host = env.host q ∧
    (s.dirs d).lastOwner = some q

namespace DataDirs
variable {s s' : DataDirs} {p q : ProcessId} {dir : DirPath}

theorem processSound_idle (h : s.phase p = .absent ∨ s.phase p = .gone) : s.ProcessSound env p := by
  obtain ⟨hwf, hidle⟩ := ProcessPhase.idle h
  exact ⟨hwf, fun d h => absurd (h.engaged hwf) (hidle d), fun d _ h => absurd h (hidle d), fun d h =>
    absurd h.engaged (hidle d), fun d h => absurd h.engaged (hidle d)⟩

theorem sound_initial : initial.Sound env :=
  ⟨fun _ => processSound_idle (.inl rfl), fun _ _ d _ h => absurd h ((ProcessPhase.idle (.inl rfl)).2 d), nofun⟩

theorem Sound.one_of_host (h : s.Sound env) (hp : (s.phase p).Engaged dir) (hq : (s.phase q).Engaged dir)
    (hhost : env.host p = env.host q) : p = q := by
  cases hlocks : env.locks dir with
  | false => exact h.alone p q dir hlocks hp hq hhost
  | true =>
    have hlock := (h.process p).locked dir hlocks hp
    rw [hhost, (h.process q).locked dir hlocks hq] at hlock
    exact (some.inj hlock).symm

/-- While the record is missing, its own, or one of its host, no other process owns it or is about to remove it. -/
theorem Sound.untouched (h : s.Sound env) (hp : (s.phase p).Engaged dir)
    (hrecord : ∀ r content, (s.dirs dir).ownerFile = some ⟨r, content⟩ → r = p ∨ ∃ owner, content = some owner ∧
    owner.host = env.host p) (hne : q ≠ p) : ¬ (s.phase q).Owns dir ∧ ¬ (s.phase q).Removing dir := by
  refine ⟨fun howns => ?_, fun hremoving => ?_⟩
  · have hq := howns.engaged (h.process q).wellFormed
    obtain ⟨content, hfile⟩ := (h.process q).own dir howns
    rcases hrecord q content hfile with heq | ⟨owner, rfl, hhost⟩
    · exact hne heq
    · exact hne (h.one_of_host hq hp ((h.signed dir q owner hfile).1.symm.trans hhost))
  · obtain ⟨r, owner, hfile, hhost⟩ := (h.process q).stale dir hremoving
    have hsame : owner.host = env.host p := by
      rcases hrecord r _ hfile with rfl | ⟨owner', heq, hhost'⟩
      · exact (h.signed dir r owner hfile).1
      · rw [some.inj heq]
        exact hhost'
    exact hne (h.one_of_host hremoving.engaged hp (hhost.symm.trans hsame))

/-- A step leaves the owner file of `d`, or writes it alone. -/
def Recorded (env : LockEnv) (s s' : DataDirs) (p : ProcessId) (d : DirPath) : Prop :=
  (s'.dirs d).ownerFile = (s.dirs d).ownerFile ∧ (s'.dirs d).lastOwner = (s.dirs d).lastOwner ∨
    (s.phase p).Engaged d ∧ (∀ q, q ≠ p → ¬ (s.phase q).Owns d ∧ ¬ (s.phase q).Removing d) ∧
      ∀ r content, (s'.dirs d).ownerFile = some ⟨r, content⟩ →
        r = p ∧ ∀ owner, content = some owner → owner.host = env.host p ∧ (s'.dirs d).lastOwner = some p

/-- What one process does keeps the others as they were. -/
theorem Sound.move (h : s.Sound env) (hphase : ∀ q, q ≠ p → s'.phase q = s.phase q)
    (hlock : ∀ q, q ≠ p → ∀ d, (s.dirs d).lock (env.host q) = some q → (s'.dirs d).lock (env.host q) = some q)
    (hrecorded : ∀ d, Recorded env s s' p d)
    (halone : ∀ d, env.locks d = false → (s'.phase p).Engaged d →
      (s.phase p).Engaged d ∨ ∀ q, q ≠ p → env.host q = env.host p → ¬ (s.phase q).Engaged d)
    (hself : s'.ProcessSound env p) : s'.Sound env := by
  simp only [Recorded] at hrecorded
  refine ⟨fun q => ?_, fun q r d hlocks hq hr hhost => ?_, fun d q owner hfile => ?_⟩
  · by_cases hne : q = p
    · exact hne ▸ hself
    have hq := h.process q
    have hsame := hphase q hne
    constructor
    · grind [hq.wellFormed]
    · grind [hq.own]
    · grind [hq.locked]
    · grind [hq.stale]
    · grind [hq.foreign, h.one_of_host, Creating.engaged]
  · grind [h.alone]
  · grind [h.signed]

section At
variable {phase : ProcessPhase} {d : DataDir}

@[simp] theorem phase_setPhase : (s.setPhase p phase).phase p = phase := update_self ..

@[simp] theorem phase_setPhase_of_ne (h : q ≠ p) : (s.setPhase p phase).phase q = s.phase q := update_of_ne h ..

@[simp] theorem dirs_setPhase : (s.setPhase p phase).dirs = s.dirs := rfl

@[simp] theorem dirs_setDir : (s.setDir dir d).dirs dir = d := update_self ..

@[simp] theorem dirs_setDir_of_ne {x : DirPath} (h : x ≠ dir) : (s.setDir dir d).dirs x = s.dirs x := update_of_ne h ..

theorem setPhase_eq : ∃ after, after = s.setPhase p phase ∧ (∀ q, after.phase q = if q = p then phase else s.phase q) ∧
    ∀ x, after.dirs x = s.dirs x :=
  ⟨_, rfl, fun _ => update_apply .., fun _ => rfl⟩

theorem call_eq : ∃ after, after = (s.setDir dir d).setPhase p phase ∧
    (∀ q, after.phase q = if q = p then phase else s.phase q) ∧
    ∀ x, after.dirs x = if x = dir then d else s.dirs x :=
  ⟨_, rfl, fun _ => update_apply .., fun _ => update_apply ..⟩

/-- One call of a process on one directory: it leaves the record alone, or takes it away or puts its own in place
    where no other process has to do with it. -/
theorem Sound.call (h : s.Sound env)
    (hlock : ∀ q, q ≠ p → (s.dirs dir).lock (env.host q) = some q → d.lock (env.host q) = some q)
    (hrecord : d.ownerFile = (s.dirs dir).ownerFile ∧ d.lastOwner = (s.dirs dir).lastOwner ∨
      (s.phase p).Engaged dir ∧
        (∀ r content, (s.dirs dir).ownerFile = some ⟨r, content⟩ → r = p ∨ ∃ owner, content = some owner ∧
        owner.host = env.host p) ∧
        ∀ r content, d.ownerFile = some ⟨r, content⟩ → r = p ∧ ∀ owner, content = some owner →
        owner.host = env.host p ∧ d.lastOwner = some p)
    (hwf : phase.WellFormed) (hown : phase.Owns dir → ∃ content, d.ownerFile = some ⟨p, content⟩)
    (hengaged : phase.Engaged dir → (env.locks dir = true → d.lock (env.host p) = some p) ∧
      (env.locks dir = false → (s.phase p).Engaged dir ∨ ∀ q, q ≠ p → env.host q = env.host p →
      ¬ (s.phase q).Engaged dir))
    (hstale : phase.Removing dir → ∃ q owner, d.ownerFile = some ⟨q, some owner⟩ ∧ owner.host = env.host p)
    (hforeign : phase.Creating dir → ∀ q content, d.ownerFile = some ⟨q, content⟩ → env.host q ≠ env.host p)
    (helsewhere : ∀ x, x ≠ dir → (phase.Owns x → (s.phase p).Owns x) ∧ (phase.Engaged x → (s.phase p).Engaged x) ∧
      ¬ phase.Removing x ∧ ¬ phase.Creating x) : ((s.setDir dir d).setPhase p phase).Sound env := by
  have hself := h.process p
  have huntouched (q : ProcessId) := @Sound.untouched _ _ p q dir h
  obtain ⟨after, hafter, hphase, hdirs⟩ : ∃ after, after = (s.setDir dir d).setPhase p phase ∧ _ := call_eq
  rw [← hafter]
  refine h.move (p := p) (by grind) (by grind) (fun x => ?_) (by grind) ⟨by grind, fun x hx => ?_, ?_, ?_, ?_⟩
  · grind [Recorded]
  · rw [hdirs]
    split <;> grind [hself.own]
  · grind [hself.locked]
  · grind
  · grind

/-- A process that gives up what it had and is in no call. -/
theorem Sound.rephase (h : s.Sound env) (hwf : phase.WellFormed)
    (hstage : ∀ d stage, phase.stageAt d = some stage → stage = .locking)
    (hfiles : ∀ d, phase.Engaged d → (s.phase p).Engaged d) (howns : ∀ d, phase.Owns d → (s.phase p).Owns d) :
    (s.setPhase p phase).Sound env := by
  have hself := h.process p
  obtain ⟨after, hafter, hphase, hdirs⟩ : ∃ after, after = s.setPhase p phase ∧ _ := setPhase_eq
  rw [← hafter]
  refine h.move (p := p) (by grind) (by grind) (fun x => .inl (by grind)) (by grind) ⟨by grind, ?_, ?_, ?_, ?_⟩
  · grind [hself.own]
  · grind [hself.locked]
  · grind [Removing]
  · grind [Creating]

end At

/-- Without locks, no process of the same host is engaged. -/
def FreeOfHost (env : LockEnv) (s : DataDirs) (p : ProcessId) (dir : DirPath) : Prop :=
  env.locks dir = false → ∀ q, q ≠ p → env.host q = env.host p → ¬ (s.phase q).Engaged dir

section Steps
variable {held rest : List DirPath} {stage next : ClaimStage} {d : DataDir}

theorem Sound.claimed (h : s.Sound env) (hphase : s.phase p = .claiming held dir stage rest)
    (hfree : stage = .locking → FreeOfHost env s p dir) (hclaim : Claims env p dir (s.dirs dir) stage next d) :
    ((s.setDir dir d).setPhase p (afterClaim held dir rest next)).Sound env := by
  have hself := h.process p
  have hwf := hself.wellFormed
  have hown := hself.own dir
  have hlocked := hself.locked dir
  have hstale (attempt : Nat) (hat : stage = .removing attempt) :=
    hself.stale dir (hphase ▸ removing_claiming.mpr ⟨rfl, attempt, hat⟩)
  rw [hphase] at hwf hown hlocked
  simp only [owns_claiming, engaged_claiming] at hown hlocked
  obtain ⟨-, hfresh, -⟩ := wellFormed_claiming.mp hwf
  refine h.call (fun _ _ => hclaim.lock) ?_ (afterClaim_wellFormed hwf) ?_ ?_ ?_ ?_ ?_
  · rw [hphase, engaged_claiming]
    cases hclaim <;> grind [removeOwner_eq, writeOwner_eq, PastLock, LockEnv.host, h.signed]
  · rw [owns_afterClaim]
    cases hclaim <;> grind [writeOwner_eq]
  · rw [engaged_afterClaim, hphase, engaged_claiming]
    rintro (hheld | ⟨-, hnext⟩)
    · exact absurd hheld hfresh
    · grind [hclaim.past hnext, FreeOfHost]
  · cases hclaim <;> grind [stageAt_afterClaim, Removing]
  · cases hclaim <;> grind [stageAt_afterClaim, Creating, removeOwner_eq]
  · grind [owns_afterClaim, owns_claiming, engaged_afterClaim, engaged_claiming, Removing, Creating, stageAt_afterClaim]

end Steps

/-! ### Runs -/

/-- No claim begins while the host is at the directory. -/
def BeginsAlone (env : LockEnv) (s : DataDirs) : LockStep → Prop
  | .proceed p => ∀ held dir rest, s.phase p = .claiming held dir .locking rest → FreeOfHost env s p dir
  | _ => True

theorem Sound.proceed (h : s.Sound env) (halone : BeginsAlone env s (.proceed p))
    (hstep : s.proceed env p = some s') : s'.Sound env := by
  have hself := h.process p
  have hwf := hself.wellFormed
  have hown := hself.own
  have hlocked := hself.locked
  unfold DataDirs.proceed at hstep
  split at hstep
  · next held dir why rest hphase =>
    cases hstep
    rw [hphase, wellFormed_claiming] at hwf
    refine h.call ?_ (.inl (by grind [unlock_eq]))
      (wellFormed_dropping.mpr ⟨fun d hd => hd, hwf.1, hwf.1⟩) ?_ ?_ nofun nofun ?_
    all_goals grind [unlock_eq, owns_dropping, engaged_dropping, owns_claiming, engaged_claiming,
      Removing, Creating, stageAt]
  · next held dir stage rest hnotRefused hphase =>
    cases hstep
    rw [hphase, wellFormed_claiming] at hwf
    exact h.claimed hphase (fun hlocking => halone held dir rest (hlocking ▸ hphase)) (claim_cases hwf.2.2)
  · next held node dir unrecorded hphase =>
    cases hstep
    rw [hphase, wellFormed_running, forall_mem_cons] at hwf
    obtain ⟨content, hfile⟩ := hown dir (by simp [hphase, hwf])
    refine h.call ?_ (.inr ?_) (wellFormed_running.mpr ⟨hwf.1, hwf.2.2⟩) (fun _ => ⟨_, rfl⟩) ?_ nofun nofun ?_
    all_goals grind [DataDir.writeOwnerReplacing, LockEnv.host, owns_running, engaged_running,
      Removing, Creating, stageAt]
  · next dir records files hphase =>
    cases hstep
    rw [hphase, wellFormed_dropping, nodup_cons] at hwf
    obtain ⟨content, hfile⟩ := hown dir (by simp [hphase])
    refine h.call ?_ (.inr ?_) (wellFormed_dropping.mpr ⟨by grind, hwf.2.1.2, hwf.2.2⟩) ?_ ?_ nofun nofun ?_
    all_goals grind [removeOwner_eq, owns_dropping, engaged_dropping, Removing, Creating, stageAt]
  · next dir files hphase =>
    cases hstep
    rw [hphase, wellFormed_dropping, nodup_cons] at hwf
    refine h.call ?_ (.inl (by grind [unlock_eq]))
      (wellFormed_dropping.mpr ⟨nofun, .nil, hwf.2.2.2⟩) ?_ ?_ nofun nofun ?_
    all_goals grind [unlock_eq, owns_dropping, engaged_dropping, Removing, Creating, stageAt]
  · cases hstep
    have hgone := @ProcessPhase.idle .gone (.inr rfl)
    exact h.rephase hgone.1 nofun (fun d hd => absurd hd (hgone.2 d)) fun d hd =>
      absurd (hd.engaged hgone.1) (hgone.2 d)
  · cases hstep

theorem Sound.step (h : s.Sound env) {e : LockStep} (halone : BeginsAlone env s e) (hstep : s.step env e = some s') :
    s'.Sound env := by
  have hgone := @ProcessPhase.idle .gone (.inr rfl)
  cases e with
  | acquire p dirs =>
    simp only [DataDirs.step, ite_none_right_eq_some, some.injEq] at hstep
    obtain ⟨-, rfl⟩ := hstep
    exact h.rephase (nextDir_wellFormed .nil) (fun d stage hd => stageAt_nextDir hd) (by simp [engaged_nextDir])
      (by simp [owns_nextDir])
  | proceed p => exact h.proceed halone hstep
  | recordNode p node =>
    simp only [DataDirs.step] at hstep
    split at hstep
    · next held _ hphase =>
      cases hstep
      have hwf := wellFormed_running.mp (hphase ▸ (h.process p).wellFormed)
      exact h.rephase (wellFormed_running.mpr ⟨hwf.1, fun d hd => hd⟩) nofun (by simp [hphase]) (by simp [hphase])
    · cases hstep
  | exit p =>
    simp only [DataDirs.step] at hstep
    split at hstep
    · next held _ _ hphase =>
      cases hstep
      have hwf := wellFormed_running.mp (hphase ▸ (h.process p).wellFormed)
      exact h.rephase (wellFormed_dropping.mpr ⟨fun d hd => hd, hwf.1, hwf.1⟩) nofun
        (by simp [hphase]) (by simp [hphase])
    · cases hstep
  | crash p =>
    simp only [DataDirs.step, ite_none_left_eq_some, some.injEq] at hstep
    obtain ⟨-, rfl⟩ := hstep
    refine h.move (p := p) (fun q hne => phase_setPhase_of_ne hne) ?_ (fun d => .inl ?_) ?_
      (processSound_idle (by simp))
    · grind [unlock_eq, dirs_setPhase]
    · grind [unlock_eq, dirs_setPhase]
    · simp [hgone.2]

end DataDirs

end CameoDb
