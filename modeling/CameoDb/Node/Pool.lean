import CameoDb.Lib.Transition
import Mathlib.Data.Fintype.BigOperators
import Mathlib.Data.BitVec

/-! # The worker pool and its admission gate

Every event is one atomic step of a sender, a worker or a job, so a job can be taken, and be done, before its sender
has counted it. -/

namespace CameoDb

/-- The counters are `AtomicUsize`, and `fetch_add` and `fetch_sub` wrap. -/
abbrev Usize := BitVec 64

inductive OpClass where
  | read
  | write
  | bulk
  | any
deriving DecidableEq, Repr

/-! ### The parties -/

/-- Where a sender is in `try_send`: at no job, trying one worker after the other from `start`, or with the job on a
    channel and one counter, or both, still to be raised. -/
inductive SendPhase (n : Nat) where
  | idle
  | trying (job : OpClass) (start offset : Nat)
  | enqueued (worker : Fin n)
  | counted
deriving DecidableEq

/-- What a worker's loop does with the job it has in hand. -/
inductive TakePhase where
  | idle
  | received (job : OpClass)
  | judging (job : OpClass)
  | waiting (job : OpClass)
  | permitted (job : OpClass)
  | shedding (job : OpClass)
deriving DecidableEq

/-- A spawned job: not entered yet, with its slot, or with the slot being dropped. -/
inductive TaskPhase where
  | spawned (job : OpClass)
  | running (job : OpClass)
  | leaving (finished : Bool)
deriving DecidableEq

structure Worker where
  queue : List OpClass
  phase : TakePhase
  tasks : List TaskPhase
  queueDepth : Usize
  inFlight : Usize
  jobsCompleted : Nat
deriving DecidableEq

def Worker.initial : Worker := ⟨[], .idle, [], 0, 0, 0⟩

structure Pool (n m : Nat) where
  capacity : Nat
  width : Nat
  workers : Fin n → Worker
  senders : Fin m → SendPhase n
  nextWorker : Nat
  outstanding : Usize
  abandoned : Nat
  jobsDropped : Nat

def Pool.initial (n m capacity width : Nat) : Pool n m :=
  ⟨capacity, width, fun _ => .initial, fun _ => .idle, 0, 0, 0, 0⟩

namespace Pool
variable {n m : Nat}

def setWorker (p : Pool n m) (w : Fin n) (worker : Worker) : Pool n m :=
  { p with workers := Function.update p.workers w worker }

def setSender (p : Pool n m) (s : Fin m) (phase : SendPhase n) : Pool n m :=
  { p with senders := Function.update p.senders s phase }

def jobLeftPool (p : Pool n m) : Pool n m :=
  { p with outstanding := if p.outstanding = 0 then 0 else p.outstanding - 1 }

/-! ### The steps -/

/-- A send begins: at the worker that owns the shard, or at the next one in turn. -/
def startSend (p : Pool n m) (s : Fin m) (job : OpClass) (affinity : Option Nat) : Pool n m :=
  match affinity with
  | some ordinal => p.setSender s (.trying job (ordinal % n) 0)
  | none => { p with nextWorker := p.nextWorker + 1 }.setSender s (.trying job p.nextWorker 0)

/-- One turn of the loop over the workers, whose channels are open until the node shuts down. Where none took the
    job, it goes back to the caller. -/
def trySend (p : Pool n m) (s : Fin m) (job : OpClass) (start offset : Nat) : Pool n m :=
  if h : offset < n then
    let w : Fin n := ⟨(start + offset) % n, Nat.mod_lt _ (Nat.zero_lt_of_lt h)⟩
    let worker := p.workers w
    if p.capacity ≤ worker.queue.length then p.setSender s (.trying job start (offset + 1))
    else (p.setWorker w { worker with queue := worker.queue ++ [job] }).setSender s (.enqueued w)
  else p.setSender s .idle

def countDepth (p : Pool n m) (s : Fin m) (w : Fin n) : Pool n m :=
  (p.setWorker w { p.workers w with queueDepth := (p.workers w).queueDepth + 1 }).setSender s .counted

def countOutstanding (p : Pool n m) (s : Fin m) : Pool n m :=
  { p with outstanding := p.outstanding + 1 }.setSender s .idle

end Pool

inductive PoolEvent (n m : Nat) where
  | start (sender : Fin m) (job : OpClass) (affinity : Option Nat)
  | attempt (sender : Fin m)
  | countDepth (sender : Fin m)
  | countOutstanding (sender : Fin m)
  | receive (worker : Fin n)
  | uncount (worker : Fin n)
  /-- The check before the wait for a permit; `stale` is what the clock says. -/
  | judge (worker : Fin n) (stale : Bool)
  | permit (worker : Fin n)
  /-- The check with the permit in hand. -/
  | judgeAgain (worker : Fin n) (stale : Bool)
  | shed (worker : Fin n)
  | enter (worker : Fin n) (task : Nat)
  /-- A job ends; one that was stopped, dropped or that panicked is not `finished`. -/
  | finish (worker : Fin n) (task : Nat) (finished : Bool)
  | leave (worker : Fin n) (task : Nat)
deriving DecidableEq

namespace Pool
variable {n m : Nat}

def takeStep (p : Pool n m) (w : Fin n) : PoolEvent n m → Option (Pool n m)
  | .receive _ =>
    match (p.workers w).phase, (p.workers w).queue with
    | .idle, job :: rest => some (p.setWorker w { p.workers w with phase := .received job, queue := rest })
    | _, _ => none
  | .uncount _ =>
    match (p.workers w).phase with
    | .received job =>
      some (p.setWorker w { p.workers w with phase := .judging job, queueDepth := (p.workers w).queueDepth - 1 })
    | _ => none
  | .judge _ stale =>
    match (p.workers w).phase with
    | .judging job => some (p.setWorker w { p.workers w with phase := if stale then .shedding job else .waiting job })
    | _ => none
  | .permit _ =>
    match (p.workers w).phase with
    | .waiting job =>
      if (p.workers w).tasks.length < max p.width 1 then
        some (p.setWorker w { p.workers w with phase := .permitted job })
      else none
    | _ => none
  | .judgeAgain _ stale =>
    match (p.workers w).phase with
    | .permitted job =>
      some (p.setWorker w (if stale then { p.workers w with phase := .shedding job }
        else { p.workers w with phase := .idle, tasks := (p.workers w).tasks ++ [.spawned job] }))
    | _ => none
  | .shed _ =>
    match (p.workers w).phase with
    | .shedding _ =>
      some ({ p with abandoned := p.abandoned + 1 }.setWorker w { p.workers w with phase := .idle }).jobLeftPool
    | _ => none
  | _ => none

def taskStep (p : Pool n m) (w : Fin n) (k : Nat) : PoolEvent n m → Option (Pool n m)
  | .enter _ _ =>
    match (p.workers w).tasks[k]? with
    | some (.spawned job) => some (p.setWorker w { p.workers w with
        tasks := (p.workers w).tasks.set k (.running job), inFlight := (p.workers w).inFlight + 1 })
    | _ => none
  | .finish _ _ finished =>
    match (p.workers w).tasks[k]? with
    | some (.running _) => some (p.setWorker w { p.workers w with
        tasks := (p.workers w).tasks.set k (.leaving finished)
        inFlight := (p.workers w).inFlight - 1
        jobsCompleted := if finished then (p.workers w).jobsCompleted + 1 else (p.workers w).jobsCompleted })
    | _ => none
  | .leave _ _ =>
    match (p.workers w).tasks[k]? with
    | some (.leaving finished) =>
      some ({ p with jobsDropped := if finished then p.jobsDropped else p.jobsDropped + 1 }.setWorker w
        { p.workers w with tasks := (p.workers w).tasks.eraseIdx k }).jobLeftPool
    | _ => none
  | _ => none

end Pool

def poolStep {n m : Nat} (p : Pool n m) (e : PoolEvent n m) : Option (Pool n m) :=
  match e with
  | .start s job affinity => if p.senders s = .idle ∧ 0 < n then some (p.startSend s job affinity) else none
  | .attempt s =>
    match p.senders s with
    | .trying job start offset => some (p.trySend s job start offset)
    | _ => none
  | .countDepth s =>
    match p.senders s with
    | .enqueued w => some (p.countDepth s w)
    | _ => none
  | .countOutstanding s => if p.senders s = .counted then some (p.countOutstanding s) else none
  | .receive w | .uncount w | .judge w _ | .permit w | .judgeAgain w _ | .shed w => p.takeStep w e
  | .enter w k | .finish w k _ | .leave w k => p.taskStep w k e

/-! ### The gate -/

/-- The gate's own settings and estimates: the jobs that run at once, the wait it predicts at a depth, the time a
    job of a class should still have. -/
structure QueueLoad where
  width : Nat
  predictedWaitAt : Nat → Nat
  serviceReserveFor : OpClass → Nat → Nat

/-- Whether a request is refused, and on which wait; a pool with a free slot always takes it. -/
def QueueLoad.wouldRefuse (load : QueueLoad) (outstanding : Usize) (job : OpClass) (remaining : Option Nat) :
    Option Nat :=
  remaining.bind fun remaining =>
    let depth := outstanding.toNat
    if depth < max load.width 1 then none
    else if remaining < load.predictedWaitAt depth + load.serviceReserveFor job remaining then
      some (load.predictedWaitAt depth)
    else none

end CameoDb
