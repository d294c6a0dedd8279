import CameoDb.Node.Pool
import Mathlib.Tactic.LinearCombination

/-! # What the pool's counters come to

As long as no job leaves a pool whose count is zero, the counters are behind by exactly the senders' pending
increments. -/

namespace CameoDb
open List Function TakePhase

theorem sum_update {ι α : Type} [Fintype ι] [DecidableEq ι] (table : ι → α) (i : ι) (new : α) (f : α → Nat) :
    ∑ x, f (update table i new x) + f (table i) = ∑ x, f (table x) + f new := by
  rw [← Finset.add_sum_erase _ (fun x => f (update table i new x)) (Finset.mem_univ i),
    ← Finset.add_sum_erase _ (fun x => f (table x)) (Finset.mem_univ i), update_self]
  have hrest : ∑ x ∈ Finset.univ.erase i, f (update table i new x) = ∑ x ∈ Finset.univ.erase i, f (table x) :=
    Finset.sum_congr rfl fun x hx => by rw [update_of_ne (Finset.ne_of_mem_erase hx)]
  omega

/-! ### The accounts -/

section Account
variable {x : Usize} {a b : Nat}

theorem account_count (h : x + ((a + 1 : Nat) : Usize) = (b : Usize)) : x + 1 + (a : Usize) = (b : Usize) := by
  rw [← h, Nat.cast_add, Nat.cast_one, add_assoc, add_comm 1 (a : Usize)]

theorem account_uncount (h : x + (a : Usize) = ((b + 1 : Nat) : Usize)) : x - 1 + (a : Usize) = (b : Usize) := by
  rw [Nat.cast_add, Nat.cast_one] at h
  rw [sub_add_eq_add_sub, h, add_sub_cancel_right]

end Account

def SendPhase.uncounted {n : Nat} : SendPhase n → Nat
  | enqueued _ | counted => 1
  | _ => 0

def SendPhase.sentTo {n : Nat} (w : Fin n) : SendPhase n → Nat
  | enqueued worker => if worker = w then 1 else 0
  | _ => 0

def TakePhase.inHand : TakePhase → Nat
  | idle => 0
  | _ => 1

def TakePhase.unread : TakePhase → Nat
  | received _ => 1
  | _ => 0

def Worker.jobs (w : Worker) : Nat := w.queue.length + w.phase.inHand + w.tasks.length

/-- The jobs on the channel, one that was just taken off included. -/
def Worker.waiting (w : Worker) : Nat := w.queue.length + w.phase.unread

namespace Pool
variable {n m : Nat} {p p' : Pool n m} {e : PoolEvent n m}

def uncounted (p : Pool n m) : Nat := ∑ s, (p.senders s).uncounted

def sentTo (p : Pool n m) (w : Fin n) : Nat := ∑ s, (p.senders s).sentTo w

def inPool (p : Pool n m) : Nat := ∑ w, (p.workers w).jobs

/-- No job is queued, running or being sent. -/
def Quiescent (p : Pool n m) : Prop :=
  (∀ s, p.senders s = .idle) ∧ ∀ w, (p.workers w).queue = [] ∧ (p.workers w).phase = .idle ∧ (p.workers w).tasks = []

/-- Every counter is behind by exactly the increments that are still to come. -/
structure Accounted (p : Pool n m) : Prop where
  outstanding : p.outstanding + (p.uncounted : Usize) = (p.inPool : Usize)
  depth : ∀ w, (p.workers w).queueDepth + (p.sentTo w : Usize) = ((p.workers w).waiting : Usize)

/-- The job that leaves a queue has been counted. -/
def Counts (p : Pool n m) : PoolEvent n m → Prop
  | .shed _ | .leave _ _ => p.outstanding ≠ 0
  | _ => True

theorem accounted_initial (capacity width : Nat) : (initial n m capacity width).Accounted := by
  refine ⟨?_, fun w => ?_⟩
  · simp [initial, uncounted, inPool, SendPhase.uncounted, Worker.jobs, Worker.initial, inHand]
  · simp [initial, sentTo, SendPhase.sentTo, Worker.waiting, Worker.initial, unread]

/-! ### One party at a time -/

theorem setWorker_inPool (w : Fin n) (worker : Worker) :
    (p.setWorker w worker).inPool + (p.workers w).jobs = p.inPool + worker.jobs :=
  sum_update p.workers w worker Worker.jobs

theorem setSender_uncounted (s : Fin m) (phase : SendPhase n) :
    (p.setSender s phase).uncounted + (p.senders s).uncounted = p.uncounted + phase.uncounted :=
  sum_update p.senders s phase SendPhase.uncounted

theorem setSender_sentTo (s : Fin m) (phase : SendPhase n) (w : Fin n) :
    (p.setSender s phase).sentTo w + (p.senders s).sentTo w = p.sentTo w + phase.sentTo w :=
  sum_update p.senders s phase (SendPhase.sentTo w)

variable {w : Fin n} {worker : Worker} {s : Fin m} {phase : SendPhase n} {job : OpClass}

theorem setWorker_depth (hdepth : ∀ w, (p.workers w).queueDepth + (p.sentTo w : Usize) =
    ((p.workers w).waiting : Usize))
    (hworker : worker.queueDepth + (p.sentTo w : Usize) = (worker.waiting : Usize)) (x : Fin n) :
    ((p.setWorker w worker).workers x).queueDepth + (p.sentTo x : Usize) =
      (((p.setWorker w worker).workers x).waiting : Usize) := by
  by_cases hx : x = w
  · subst hx
    simpa [setWorker] using hworker
  · simpa [setWorker, update_of_ne hx] using hdepth x

theorem Accounted.setWorker (h : p.Accounted) (hjobs : worker.jobs = (p.workers w).jobs)
    (hdepth : worker.queueDepth + (p.sentTo w : Usize) = (worker.waiting : Usize)) :
    (p.setWorker w worker).Accounted := by
  have hpool := @setWorker_inPool _ _ p w worker
  refine ⟨?_, setWorker_depth h.depth hdepth⟩
  have hsame : (p.setWorker w worker).inPool = p.inPool := by omega
  rw [hsame]
  exact h.outstanding

/-- A worker is done with a job, and the count goes down. -/
theorem Accounted.jobLeft (h : p.Accounted) (hjobs : worker.jobs + 1 = (p.workers w).jobs)
    (hdepth : worker.queueDepth + (p.sentTo w : Usize) = (worker.waiting : Usize)) (hcount : p.outstanding ≠ 0) :
    (p.setWorker w worker).jobLeftPool.Accounted := by
  have hpool := @setWorker_inPool _ _ p w worker
  refine ⟨?_, setWorker_depth h.depth hdepth⟩
  have hless : p.inPool = (p.setWorker w worker).inPool + 1 := by omega
  have hnow := h.outstanding
  rw [hless] at hnow
  have hless : (p.setWorker w worker).jobLeftPool.outstanding = p.outstanding - 1 := if_neg hcount
  rw [hless]
  exact account_uncount hnow

/-- A sender that has nothing on a channel goes on without one. -/
theorem Accounted.setSender (h : p.Accounted) (hbefore : (p.senders s).uncounted = 0) (hafter : phase.uncounted = 0) :
    (p.setSender s phase).Accounted := by
  have hsent : ∀ (w : Fin n) (q : SendPhase n), q.uncounted = 0 → q.sentTo w = 0 := by
    intro w q hq
    cases q <;> first | rfl | cases hq
  refine ⟨?_, fun w => ?_⟩
  · have hsame : (p.setSender s phase).uncounted = p.uncounted := by
      have := @setSender_uncounted _ _ p s phase
      omega
    rw [hsame]
    exact h.outstanding
  · have hsame : (p.setSender s phase).sentTo w = p.sentTo w := by
      have := @setSender_sentTo _ _ p s phase w
      have := hsent w _ hbefore
      have := hsent w _ hafter
      omega
    rw [hsame]
    exact h.depth w

/-! ### The steps -/

theorem Accounted.move (h : p.Accounted)
    (hcount : (phase.uncounted : Usize) + ((p.workers w).jobs : Usize) = ((p.senders s).uncounted : Usize) +
    (worker.jobs : Usize))
    (hdepth : worker.queueDepth + (phase.sentTo w : Usize) + ((p.workers w).waiting : Usize) =
      (p.workers w).queueDepth + ((p.senders s).sentTo w : Usize) + (worker.waiting : Usize))
    (hother : ∀ x ≠ w, phase.sentTo x = (p.senders s).sentTo x) :
    ((p.setWorker w worker).setSender s phase).Accounted := by
  have hsent (x : Fin n) := congrArg (Nat.cast : Nat → Usize) (@setSender_sentTo _ _ (p.setWorker w worker) s phase x)
  refine ⟨?_, fun x => ?_⟩
  · have hpool := congrArg (Nat.cast : Nat → Usize) (@setWorker_inPool _ _ p w worker)
    have huncounted := congrArg (Nat.cast : Nat → Usize) (@setSender_uncounted _ _ (p.setWorker w worker) s phase)
    push_cast at hpool huncounted
    change p.outstanding + _ = ((p.setWorker w worker).inPool : Usize)
    have hnow := h.outstanding
    change _ = (p.uncounted : Usize) + _ at huncounted
    change _ + ((p.senders s).uncounted : Usize) = _ at huncounted
    linear_combination hnow + huncounted - hpool + hcount
  · have hnow := h.depth x
    have hset := hsent x
    push_cast at hset
    change _ + ((p.senders s).sentTo x : Usize) = (p.sentTo x : Usize) + _ at hset
    change (update p.workers w worker x).queueDepth + _ = ((update p.workers w worker x).waiting : Usize)
    by_cases hx : x = w
    · subst hx
      rw [update_self]
      linear_combination hnow + hset + hdepth
    · rw [update_of_ne hx]
      rw [hother x hx] at hset
      linear_combination hnow + hset

theorem Accounted.enqueue (h : p.Accounted) (w : Fin n) (hsender : (p.senders s).uncounted = 0)
    (hidle : ∀ x, (p.senders s).sentTo x = 0) :
    ((p.setWorker w { p.workers w with queue := (p.workers w).queue ++ [job] }).setSender s
    (.enqueued w)).Accounted := by
  refine h.move ?_ ?_ fun x hx => ?_
  · rw [hsender]
    simp only [SendPhase.uncounted, Worker.jobs, length_append, length_singleton]
    push_cast
    grind
  · rw [hidle]
    simp only [SendPhase.sentTo, if_pos, Worker.waiting, length_append, length_singleton]
    push_cast
    grind
  · rw [hidle]
    exact if_neg (Ne.symm hx)

theorem Accounted.countDepth (h : p.Accounted) (hsender : p.senders s = .enqueued w) :
    (p.countDepth s w).Accounted := by
  refine h.move ?_ ?_ fun x hx => ?_
  · rw [hsender]
    rfl
  · simp only [SendPhase.sentTo, if_pos, hsender, Worker.waiting]
    push_cast
    grind
  · rw [hsender]
    exact (if_neg (Ne.symm hx)).symm

theorem Accounted.countOutstanding (h : p.Accounted) (hsender : p.senders s = .counted) :
    (p.countOutstanding s).Accounted := by
  have hset := @setSender_uncounted _ _ p s .idle
  have hsents := @setSender_sentTo _ _ p s .idle
  simp only [hsender, SendPhase.uncounted, SendPhase.sentTo, Nat.add_zero] at hset hsents
  refine ⟨account_count ?_, fun w => ?_⟩
  · have hnow := h.outstanding
    rw [← hset] at hnow
    exact hnow
  · have hdepth := h.depth w
    rw [← hsents] at hdepth
    exact hdepth

theorem Accounted.startSend (h : p.Accounted) (hidle : p.senders s = .idle) (job : OpClass) (affinity : Option Nat) :
    (p.startSend s job affinity).Accounted := by
  cases affinity with
  | some ordinal => exact h.setSender (by rw [hidle]; rfl) rfl
  | none =>
    have hnext : { p with nextWorker := p.nextWorker + 1 }.Accounted := ⟨h.outstanding, h.depth⟩
    exact hnext.setSender (congrArg SendPhase.uncounted hidle) rfl

theorem Accounted.trySend (h : p.Accounted) {start offset : Nat}
    (hsender : p.senders s = .trying job start offset) : (p.trySend s job start offset).Accounted := by
  have hbefore : (p.senders s).uncounted = 0 := by rw [hsender]; rfl
  unfold Pool.trySend
  split
  · dsimp only
    split
    · exact h.setSender hbefore rfl
    · exact h.enqueue _ hbefore fun x => by rw [hsender]; rfl
  · exact h.setSender hbefore rfl

theorem Accounted.keep (h : p.Accounted) (hjobs : worker.jobs = (p.workers w).jobs)
    (hwaiting : worker.waiting = (p.workers w).waiting) (hdepth : worker.queueDepth = (p.workers w).queueDepth) :
    (p.setWorker w worker).Accounted := by
  refine h.setWorker hjobs ?_
  rw [hdepth, hwaiting]
  exact h.depth w

/-- A step of a worker's loop moves the job it has in hand, or ends it. -/
theorem Accounted.takeStep (h : p.Accounted) (hcounts : p.Counts e) (hstep : p.takeStep w e = some p') :
    p'.Accounted := by
  have hdepth := h.depth w
  cases e <;> simp only [Pool.takeStep, reduceCtorEq] at hstep
  case uncount =>
    split at hstep <;> cases hstep
    rename_i job hphase
    simp only [Worker.waiting, hphase] at hdepth
    exact h.setWorker (by simp [Worker.jobs, hphase, inHand]) (account_uncount hdepth)
  case shed =>
    split at hstep <;> cases hstep
    rename_i job hphase
    simp only [Worker.waiting, hphase] at hdepth
    have habandoned : { p with abandoned := p.abandoned + 1 }.Accounted := ⟨h.outstanding, h.depth⟩
    exact habandoned.jobLeft (by simp [Worker.jobs, hphase, inHand]; omega) hdepth hcounts
  case permit =>
    split at hstep
    · split_ifs at hstep
      cases hstep
      exact h.keep (by grind [Worker.jobs, inHand]) (by grind [Worker.waiting, unread]) rfl
    · cases hstep
  all_goals
    split at hstep <;> cases hstep
    exact h.keep (by grind [Worker.jobs, inHand]) (by grind [Worker.waiting, unread]) (by grind)

/-- A step of a spawned job keeps it, or ends it. -/
theorem Accounted.taskStep (h : p.Accounted) {k : Nat} (hcounts : p.Counts e) (hstep : p.taskStep w k e = some p') :
    p'.Accounted := by
  cases e <;> simp only [Pool.taskStep, reduceCtorEq] at hstep
  case leave =>
    split at hstep <;> cases hstep
    rename_i finished hat
    have hdropped : { p with jobsDropped := if finished then p.jobsDropped else p.jobsDropped + 1 }.Accounted :=
      ⟨h.outstanding, h.depth⟩
    have hlt : k < (p.workers w).tasks.length := (List.getElem?_eq_some_iff.mp hat).1
    refine hdropped.jobLeft ?_ (h.depth w) hcounts
    simp only [Worker.jobs, length_eraseIdx, hlt, ↓reduceIte]
    omega
  all_goals
    split at hstep <;> cases hstep
    exact h.keep (by simp [Worker.jobs]) rfl rfl

theorem Accounted.step (h : p.Accounted) (hcounts : p.Counts e) (hstep : poolStep p e = some p') : p'.Accounted := by
  cases e <;> simp only [poolStep] at hstep
  case start s job affinity =>
    split at hstep <;> cases hstep
    rename_i hidle
    exact h.startSend hidle.1 job affinity
  case attempt s =>
    split at hstep <;> cases hstep
    exact h.trySend ‹_›
  case countDepth s =>
    split at hstep <;> cases hstep
    exact h.countDepth ‹_›
  case countOutstanding s =>
    split at hstep <;> cases hstep
    exact h.countOutstanding ‹_›
  case enter | finish | leave => exact h.taskStep hcounts hstep
  all_goals exact h.takeStep hcounts hstep

/-- An idle pool has nothing to count. -/
theorem Accounted.quiescent (h : p.Accounted) (hquiet : p.Quiescent) :
    p.outstanding = 0 ∧ ∀ w, (p.workers w).queueDepth = 0 := by
  obtain ⟨hsenders, hworkers⟩ := hquiet
  refine ⟨?_, fun w => ?_⟩
  · have hnow := h.outstanding
    have huncounted : p.uncounted = 0 := Finset.sum_eq_zero fun s _ => by rw [hsenders s]; rfl
    have hpool : p.inPool = 0 := Finset.sum_eq_zero fun w _ => by
      obtain ⟨hqueue, hphase, htasks⟩ := hworkers w
      simp [Worker.jobs, hqueue, hphase, htasks, inHand]
    simpa [huncounted, hpool] using hnow
  · have hdepth := h.depth w
    obtain ⟨hqueue, hphase, -⟩ := hworkers w
    have hsent : p.sentTo w = 0 := Finset.sum_eq_zero fun s _ => by rw [hsenders s]; rfl
    simpa [hsent, Worker.waiting, hqueue, hphase, unread] using hdepth

end Pool

/-- In every run in which no job leaves the pool while the pool counts none, whenever no job is queued, running or
    being sent the counts are zero, and the gate lets every request through. -/
theorem pool_accounting_exact {n m : Nat} (capacity width : Nat) (events : List (PoolEvent n m)) (p : Pool n m)
    (hrun : Transition.run poolStep (Pool.initial n m capacity width) events = some p)
    (counts : Transition.Along poolStep Pool.Counts (Pool.initial n m capacity width) events) (quiet : p.Quiescent) :
    p.outstanding = 0 ∧ (∀ w, (p.workers w).queueDepth = 0) ∧
      ∀ (load : QueueLoad) (job : OpClass) (remaining : Option Nat), load.wouldRefuse p.outstanding job
      remaining = none := by
  have haccounted : p.Accounted := Transition.run_invariant
    (fun _ _ _ h hcounts hstep => Pool.Accounted.step h hcounts hstep)
    (Pool.accounted_initial capacity width) counts hrun
  obtain ⟨hzero, hdepth⟩ := haccounted.quiescent quiet
  refine ⟨hzero, hdepth, fun load job remaining => ?_⟩
  rw [hzero]
  cases remaining with
  | none => rfl
  | some remaining => exact if_pos (Nat.lt_of_lt_of_le Nat.zero_lt_one (Nat.le_max_right ..))

instance {n m : Nat} (p : Pool n m) : DecidablePred p.Counts
  | .shed _ | .leave _ _ => inferInstanceAs (Decidable (p.outstanding ≠ 0))
  | .start .. | .attempt _ | .countDepth _ | .countOutstanding _ | .receive _ | .uncount _ | .judge .. | .permit _
  | .judgeAgain .. | .enter .. | .finish .. => .isTrue trivial

instance {n m : Nat} (p : Pool n m) : Decidable p.Quiescent := inferInstanceAs (Decidable (_ ∧ _))

def oneJob : List (PoolEvent 1 1) :=
  [.start 0 .read none, .attempt 0, .countDepth 0, .countOutstanding 0, .receive 0, .uncount 0,
    .judge 0 false, .permit 0, .judgeAgain 0 false, .enter 0 0, .finish 0 0 true, .leave 0 0]

theorem pool_accounting_exact_oneJob :
    ∃ p, Transition.run poolStep (Pool.initial 1 1 4 8) oneJob = some p ∧ p.outstanding = 0 ∧
      (∀ w, (p.workers w).queueDepth = 0) ∧ (p.workers 0).jobsCompleted = 1 := by
  obtain ⟨p, hrun, hquiet, hdone⟩ : ∃ p, Transition.run poolStep (Pool.initial 1 1 4 8) oneJob = some p ∧ p.Quiescent ∧
      (p.workers 0).jobsCompleted = 1 := by decide
  obtain ⟨hzero, hdepth, -⟩ := pool_accounting_exact 4 8 oneJob p hrun (by decide) hquiet
  exact ⟨p, hrun, hzero, hdepth, hdone⟩

/-- A stale job is taken off the channel and refused before its sender has counted it: the count stays at zero
    there, and the sender's increment then stays for ever. -/
theorem shed_before_counted_leaks :
    ∃ p, Transition.run poolStep (Pool.initial 1 1 4 8)
    [.start 0 .read none, .attempt 0, .receive 0, .uncount 0, .judge 0 true,
        .shed 0, .countDepth 0, .countOutstanding 0] = some p ∧ p.Quiescent ∧ p.outstanding = 1 := by
  decide

end CameoDb
