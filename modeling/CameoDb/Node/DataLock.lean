import CameoDb.Lib.Transition

/-! # One process per data directory

A directory has a file with an OS lock, seen on one host or on none, and an owner record that everyone sees. An
event is one call on the filesystem. -/

namespace CameoDb

abbrev ProcessId := Nat

abbrev DirPath := String

structure Owner where
  host : String
  pid : Nat
  started : String
  version : String
  command : String
  node : Option String
deriving DecidableEq

def Owner.describe (owner : Owner) : String :=
  let what := match owner.node with
    | some node => "node " ++ node
    | none => "`cameodb " ++ owner.command ++ "`"
  what ++ ", process " ++ toString owner.pid ++ " on host " ++ owner.host ++ ", started " ++
    owner.started ++ ", version " ++ owner.version

structure OwnerFile where
  creator : ProcessId
  content : Option Owner
deriving DecidableEq

/-- A data directory. The last process that completed a record there is kept for the statements, no code reads it. -/
structure DataDir where
  ownerFile : Option OwnerFile
  /-- The OS lock on `cameodb.lock`, as the processes of each host see it. -/
  lock : String → Option ProcessId
  lastOwner : Option ProcessId

/-- Which directories are on filesystems that lock files, and what each process writes of itself before its node is
    known. -/
structure LockEnv where
  locks : DirPath → Bool
  owner : ProcessId → Owner

def LockEnv.host (env : LockEnv) (p : ProcessId) : String := (env.owner p).host

inductive ClaimRefusal where
  | inUse (holder : String)
  | claimedBy (found : Owner)
  | unreadable (error : String)
  | lost
deriving DecidableEq

def ClaimRefusal.message (dir : DirPath) (host : String) : ClaimRefusal → String
  | .inUse holder =>
    dir ++ " is in use by another CameoDB process on this machine: " ++ holder ++
    ".\nA data directory serves one process at a " ++
      "time; two writers damage its files. Stop that process first, or give this one a data directory of its own."
  | .claimedBy found =>
    dir ++ " is claimed by " ++ found.describe ++ ".\nThat host is not this one (" ++ host ++
    "), so this machine's file locks " ++
      "cannot tell whether that process is still running — a container is a host of its own, and a bind-mounted directory does " ++
      "not carry a lock across. A data directory serves one process at a time; two writers damage its files.\nStop that " ++
      "process. If it is known not to be running — a container removed after a crash, say — remove its record with `cameodb " ++
      "unlock " ++ dir ++ "` and start again."
  | .unreadable error =>
    dir ++ "/cameodb.owner cannot be read: " ++ error ++
    ".\nIt names the process that holds this data directory. If no " ++
      "process does, remove it with `cameodb unlock " ++ dir ++ "`."
  | .lost => dir ++ " was claimed by another process while this one was claiming it"

/-- Where `claim` is: before its next call, or returned. -/
inductive ClaimStage where
  | locking
  | reading (attempt : Nat)
  | removing (attempt : Nat)
  | creating (attempt : Nat)
  | writing
  | claimed
  | refused (why : ClaimRefusal)
deriving DecidableEq

/-- A process: not started, in `acquire_as` with the directories it has so far, the one it is at and the ones to
    come, with all of them and records still to be rewritten by `record_node`, in `drop` with records to remove and
    files to close, or ended. -/
inductive ProcessPhase where
  | absent
  | claiming (held : List DirPath) (dir : DirPath) (stage : ClaimStage) (rest : List DirPath)
  | running (held : List DirPath) (node : Option String) (unrecorded : List DirPath)
  | dropping (records files : List DirPath)
  | gone
deriving DecidableEq

namespace DataDir
variable (env : LockEnv) (p : ProcessId) (dir : DirPath) (d : DataDir)

def readOwner : Except String (Option Owner) :=
  match d.ownerFile with
  | none => .ok none
  | some ⟨_, some owner⟩ => .ok (some owner)
  | some ⟨_, none⟩ => .error (dir ++ "/cameodb.owner is not an owner record")

def removeOwner : DataDir := { d with ownerFile := none }

def createOwner : Option DataDir :=
  match d.ownerFile with
  | none => some { d with ownerFile := some ⟨p, none⟩ }
  | some _ => none

def writeOwner : DataDir where
  ownerFile := if d.ownerFile = some ⟨p, none⟩ then some ⟨p, some (env.owner p)⟩ else d.ownerFile
  lock := d.lock
  lastOwner := some p

def writeOwnerReplacing (node : Option String) : DataDir :=
  { d with ownerFile := some ⟨p, some { env.owner p with node }⟩, lastOwner := some p }

def tryLock : Option DataDir :=
  match d.lock (env.host p) with
  | none => some { d with lock := Function.update d.lock (env.host p) (some p) }
  | some _ => none

/-- What the OS does when the lock file's handle is closed. -/
def unlock : DataDir :=
  if d.lock (env.host p) = some p then { d with lock := Function.update d.lock (env.host p) none } else d

def claim : ClaimStage → ClaimStage × DataDir
  | .locking =>
    if env.locks dir then
      match d.tryLock env p with
      | some locked => (.reading 0, locked)
      | none =>
        let holder := match d.readOwner dir with
          | .ok (some owner) => owner.describe
          | .ok none => "a process that has not written its owner record yet"
          | .error e => "a process whose owner record cannot be read (" ++ e ++ ")"
        (.refused (.inUse holder), d)
    -- `TryLockError::Error`: the claim goes on without the lock.
    else (.reading 0, d)
  | .reading attempt =>
    match d.readOwner dir with
    | .ok none => (.creating attempt, d)
    | .ok (some found) => if found.host = env.host p then (.removing attempt, d) else (.refused (.claimedBy found), d)
    | .error e => (.refused (.unreadable e), d)
  | .removing attempt => (.creating attempt, d.removeOwner)
  | .creating attempt =>
    match d.createOwner p with
    | some created => (.writing, created)
    | none => (if attempt + 1 < 2 then .reading (attempt + 1) else .refused .lost, d)
  | .writing => (.claimed, d.writeOwner env p)
  | .claimed => (.claimed, d)
  | .refused why => (.refused why, d)

end DataDir

def nextDir (held : List DirPath) : List DirPath → ProcessPhase
  | [] => .running held none []
  | dir :: rest => if dir ∈ held then nextDir held rest else .claiming held dir .locking rest

/-- What `acquire_as` makes of what a call of `claim` comes to. -/
def afterClaim (held : List DirPath) (dir : DirPath) (rest : List DirPath) : ClaimStage → ProcessPhase
  | .claimed => nextDir (held ++ [dir]) rest
  | stage => .claiming held dir stage rest

structure DataDirs where
  phase : ProcessId → ProcessPhase
  dirs : DirPath → DataDir

inductive LockStep where
  | acquire (p : ProcessId) (dirs : List DirPath)
  | proceed (p : ProcessId)
  | recordNode (p : ProcessId) (node : String)
  | exit (p : ProcessId)
  | crash (p : ProcessId)
deriving DecidableEq

namespace DataDirs

def initial : DataDirs := ⟨fun _ => .absent, fun _ => ⟨none, fun _ => none, none⟩⟩

def setPhase (s : DataDirs) (p : ProcessId) (phase : ProcessPhase) : DataDirs :=
  { s with phase := Function.update s.phase p phase }

def setDir (s : DataDirs) (dir : DirPath) (d : DataDir) : DataDirs := { s with dirs := Function.update s.dirs dir d }

def proceed (env : LockEnv) (s : DataDirs) (p : ProcessId) : Option DataDirs :=
  match s.phase p with
  -- The file that `claim` opened is closed as it returns, before the directories held so far are dropped.
  | .claiming held dir (.refused _) _ =>
    some ((s.setDir dir ((s.dirs dir).unlock env p)).setPhase p (.dropping held held))
  | .claiming held dir stage rest =>
    let (next, d) := (s.dirs dir).claim env p dir stage
    some ((s.setDir dir d).setPhase p (afterClaim held dir rest next))
  | .running held node (dir :: unrecorded) =>
    some ((s.setDir dir ((s.dirs dir).writeOwnerReplacing env p node)).setPhase p (.running held node unrecorded))
  | .dropping (dir :: records) files =>
    some ((s.setDir dir (s.dirs dir).removeOwner).setPhase p (.dropping records files))
  | .dropping [] (dir :: files) => some ((s.setDir dir ((s.dirs dir).unlock env p)).setPhase p (.dropping [] files))
  | .dropping [] [] => some (s.setPhase p .gone)
  | _ => none

def step (env : LockEnv) (s : DataDirs) : LockStep → Option DataDirs
  | .acquire p dirs => if s.phase p = .absent then some (s.setPhase p (nextDir [] dirs)) else none
  | .proceed p => s.proceed env p
  | .recordNode p node =>
    match s.phase p with
    | .running held _ [] => some (s.setPhase p (.running held (some node) held))
    | _ => none
  -- Also from within a `record_node` that failed.
  | .exit p =>
    match s.phase p with
    | .running held _ _ => some (s.setPhase p (.dropping held held))
    | _ => none
  | .crash p =>
    if s.phase p = .absent ∨ s.phase p = .gone then none
    else some (setPhase { s with dirs := fun dir => (s.dirs dir).unlock env p } p .gone)

end DataDirs

end CameoDb
