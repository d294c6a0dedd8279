import CameoDb.Lib.Transition

/-! # The count of writers that are down

A shard's writer thread counts itself down as it exits by a panic; the monitor that joins it counts it up again once
a replacement has been spawned. -/

namespace CameoDb

inductive WriterExit where
  | clean
  | crashed
deriving DecidableEq

/-- How a writer thread ends: out of its loop, by a panic that its own exit path catches, or by one that only `join`
    reports. -/
inductive ThreadEnd where
  | clean
  | crashed
  | unjoined
deriving DecidableEq

/-- What the monitor makes of joining the thread. -/
def ThreadEnd.joined : ThreadEnd → WriterExit
  | .clean => .clean
  | .crashed | .unjoined => .crashed

/-- A replacement is `relaunched`, and may have ended, until the monitor has counted it up. -/
inductive WriterPhase where
  | serving
  | ended (how : ThreadEnd)
  | relaunched
  | endedEarly (how : ThreadEnd)
  | unmonitored
deriving DecidableEq

structure ShardWriter where
  phase : WriterPhase
  shuttingDown : Bool
deriving DecidableEq

structure WriterLiveness where
  writers : List ShardWriter
  down : Nat
deriving DecidableEq

def markWriterDown (down : Nat) : Nat := down + 1

/-- `saturating_sub(1)`. -/
def markWriterUp (down : Nat) : Nat := down - 1

/-- What happens to a shard's writer: its thread ends, its actor shuts down, its monitor joins the thread and
    relaunches the writer or fails to spawn one, or the monitor counts the replacement up. -/
inductive WriterEvent where
  | ends (how : ThreadEnd)
  | shutDown
  | join (spawned : Bool)
  | markUp
deriving DecidableEq

def ShardWriter.step (w : ShardWriter) : WriterEvent → Option (ShardWriter × (Nat → Nat))
  | .ends how =>
    let count := if how = .crashed then markWriterDown else id
    match w.phase with
    | .serving => some ({ w with phase := .ended how }, count)
    | .relaunched => some ({ w with phase := .endedEarly how }, count)
    | _ => none
  | .shutDown => some ({ w with shuttingDown := true }, id)
  | .join spawned =>
    match w.phase with
    | .ended how =>
      let stops := w.shuttingDown || how.joined = .clean
      some ({ w with phase := if stops || !spawned then .unmonitored else .relaunched }, id)
    | _ => none
  | .markUp =>
    match w.phase with
    | .relaunched => some ({ w with phase := .serving }, markWriterUp)
    | .endedEarly how => some ({ w with phase := .ended how }, markWriterUp)
    | _ => none

inductive LivenessStep where
  | start
  | writer (shard : Nat) (event : WriterEvent)
deriving DecidableEq

namespace WriterLiveness

def initial : WriterLiveness := ⟨[], 0⟩

def step (s : WriterLiveness) : LivenessStep → Option WriterLiveness
  | .start => some { s with writers := s.writers ++ [⟨.serving, false⟩] }
  | .writer shard event => do
    let (w, count) ← (← s.writers[shard]?).step event
    return ⟨s.writers.set shard w, count s.down⟩

def notServing (s : WriterLiveness) : Nat := s.writers.countP (·.phase ≠ .serving)

end WriterLiveness

end CameoDb
