import CameoDb.Lib.Transition

/-! # The idle-commit supervisors of a shard

A write signals the supervisor of its index, or starts one; a supervisor that hears nothing has the index committed
and leaves the map. What happens under the map's lock is one step. -/

namespace CameoDb

abbrev WriteId := Nat
abbrev TaskId := Nat
/-- Writers are numbered in the order they were launched, and so are their channels. -/
abbrev WriterId := Nat

/-- Where a write's `signal_supervisor` is: not called, with the sender it snapshotted, past the fast path without
    an entry, or returned. -/
inductive SignalPhase where
  | acknowledged
  | loaded (writer : WriterId)
  | missed (writer : WriterId)
  | signalled
deriving DecidableEq

structure ShardWrite (I : Type) where
  index : I
  phase : SignalPhase
  committed : Bool
deriving DecidableEq

/-- Where a supervisor's loop is: selecting between its channel and its timer, sending its commit, waiting for the
    reply, with the reply, with the reply's sender dropped, or ended. -/
inductive SupervisorPhase where
  | waiting
  | sending
  | awaiting
  | replied (committed : Bool)
  | replyDropped
  | ended
deriving DecidableEq

structure Supervisor (I : Type) where
  index : I
  writer : WriterId
  /-- The signals on its channel. -/
  pending : Nat
  phase : SupervisorPhase
deriving DecidableEq

def supervisorChannel : Nat := 64

def Supervisor.trySend {I : Type} (t : Supervisor I) : Supervisor I :=
  if t.phase = .ended ∨ supervisorChannel ≤ t.pending then t else { t with pending := t.pending + 1 }

structure SupervisedShard (I : Type) where
  /-- The writer whose sender is in the shared slot. It stays there while its thread is down. -/
  writer : WriterId
  serving : Bool
  /-- The commits on the current writer's channel, by the supervisors that wait for them. -/
  commits : List TaskId
  writes : WriteId → Option (ShardWrite I)
  written : Nat
  supervisors : I → Option TaskId
  tasks : TaskId → Option (Supervisor I)
  spawned : Nat

/-- `commit` stands for every other commit of the writer: at its threshold, or asked for. -/
inductive SupervisorStep (I : Type) where
  | write (index : I)
  | signal (write : WriteId)
  | receive (task : TaskId)
  | timeout (task : TaskId)
  | send (task : TaskId)
  | process (succeeds : Bool)
  | commit (index : I)
  | reply (task : TaskId)
  | dropped (task : TaskId)
  | crash
  | respawn
deriving DecidableEq

namespace SupervisedShard
variable {I : Type} [DecidableEq I]

def initial : SupervisedShard I := ⟨0, true, [], fun _ => none, 0, fun _ => none, fun _ => none, 0⟩

def setWrite (s : SupervisedShard I) (k : WriteId) (w : ShardWrite I) : SupervisedShard I :=
  { s with writes := Function.update s.writes k (some w) }

def setTask (s : SupervisedShard I) (t : TaskId) (task : Supervisor I) : SupervisedShard I :=
  { s with tasks := Function.update s.tasks t (some task) }

def commitIndex (s : SupervisedShard I) (index : I) : SupervisedShard I :=
  { s with writes := fun k => (s.writes k).map fun w => if w.index = index then { w with committed := true } else w }

def nudge (s : SupervisedShard I) (t : TaskId) : SupervisedShard I :=
  { s with tasks := fun u => if u = t then (s.tasks u).map Supervisor.trySend else s.tasks u }

def spawn (s : SupervisedShard I) (index : I) (writer : WriterId) : SupervisedShard I :=
  { s with
    supervisors := Function.update s.supervisors index (some s.spawned)
    tasks := Function.update s.tasks s.spawned (some ⟨index, writer, 0, .waiting⟩)
    spawned := s.spawned + 1 }

/-- One step of `signal_supervisor`: the snapshot, the look under the read lock, or the look under the write lock. -/
def signal (s : SupervisedShard I) (k : WriteId) (w : ShardWrite I) : Option (SupervisedShard I) :=
  match w.phase with
  | .acknowledged => some (s.setWrite k { w with phase := .loaded s.writer })
  | .loaded writer =>
    match s.supervisors w.index with
    | some t => some ((s.nudge t).setWrite k { w with phase := .signalled })
    | none => some (s.setWrite k { w with phase := .missed writer })
  | .missed writer =>
    match s.supervisors w.index with
    | some t => some ((s.nudge t).setWrite k { w with phase := .signalled })
    | none => some ((s.spawn w.index writer).setWrite k { w with phase := .signalled })
  | .signalled => none

def advance (s : SupervisedShard I) (t : TaskId) (task : Supervisor I) (phase : SupervisorPhase) : SupervisedShard I :=
  s.setTask t { task with phase }

def step (s : SupervisedShard I) : SupervisorStep I → Option (SupervisedShard I)
  | .write index =>
    if s.serving then
      some { s with
        writes := Function.update s.writes s.written (some ⟨index, .acknowledged, false⟩), written := s.written + 1 }
    else none
  | .signal k => (s.writes k).bind fun w => s.signal k w
  | .receive t => (s.tasks t).bind fun task =>
    if task.phase = .waiting ∧ task.pending ≠ 0 then some (s.setTask t { task with pending := task.pending - 1 })
    else none
  | .timeout t => (s.tasks t).bind fun task => if task.phase = .waiting then some (s.advance t task .sending) else none
  | .send t => (s.tasks t).bind fun task =>
    if task.phase = .sending then
      if task.writer = s.writer ∧ s.serving = true then
        some { s.advance t task .awaiting with commits := s.commits ++ [t] }
      -- The writer's channel is closed: the loop ends, and the entry stays.
      else some (s.advance t task .ended)
    else none
  | .process succeeds =>
    match s.serving, s.commits with
    | true, t :: rest => (s.tasks t).map fun task =>
      let answered := { s.advance t task (.replied succeeds) with commits := rest }
      if succeeds then answered.commitIndex task.index else answered
    | _, _ => none
  | .commit index => if s.serving then some (s.commitIndex index) else none
  | .reply t => (s.tasks t).bind fun task =>
    match task.phase with
    | .replied true =>
      -- Under the map's write lock.
      if task.pending = 0 then
        some { s.advance t task .ended with supervisors := Function.update s.supervisors task.index none }
      else some (s.advance t task .waiting)
    | .replied false => some (s.advance t task .waiting)
    | _ => none
  | .dropped t =>
    (s.tasks t).bind fun task => if task.phase = .replyDropped then some (s.advance t task .ended) else none
  | .crash =>
    if s.serving then
      some { s with
        serving := false
        commits := []
        tasks := fun t => (s.tasks t).map fun task => if t ∈ s.commits then
          { task with phase := .replyDropped } else task }
    else none
  | .respawn => if s.serving then none else some { s with writer := s.writer + 1, serving := true }

/-- A task that has not ended is registered for `index`. -/
def Supervised (s : SupervisedShard I) (index : I) : Prop :=
  ∃ t task, s.supervisors index = some t ∧ s.tasks t = some task ∧ task.phase ≠ .ended

end SupervisedShard

end CameoDb
