import CameoDb.Node.WriterLiveness

/-! # What the count of down writers says

A thread that ends without counting itself down is counted up all the same once it is replaced, and takes another
shard's mark away. -/

namespace CameoDb
open Transition

namespace ShardWriter

/-- What a writer adds to the number of those that do not serve. -/
def missing (w : ShardWriter) : Nat := if w.phase = .serving then 0 else 1

/-- A thread that ends while it serves does so by a panic its exit path catches. A replacement that ends before the
    monitor has counted it up does not count itself down, and is not counted up. -/
def Counted (w : ShardWriter) : WriterEvent → Prop
  | .ends how => (w.phase = .serving → how = .crashed) ∧ (w.phase = .relaunched → how ≠ .crashed)
  | .markUp => ∀ how, w.phase ≠ .endedEarly how
  | _ => True

variable {w w' : ShardWriter} {event : WriterEvent} {count : Nat → Nat}

theorem step_count (h : w.step event = some (w', count)) {n : Nat} (hn : w.missing ≤ n) :
    count n = n - w.missing + w'.missing ↔ w.Counted event := by
  cases event <;> cases hphase : w.phase <;> simp only [step, hphase, reduceCtorEq,
    Option.some.injEq, Prod.mk.injEq] at h
  all_goals
    obtain ⟨rfl, rfl⟩ := h
    grind [missing, Counted, markWriterDown, markWriterUp]

theorem counted_of_step_none (h : w.step event = none) : w.Counted event := by
  cases event <;> cases hphase : w.phase <;> grind [step, Counted]

end ShardWriter

namespace WriterLiveness

/-- The count of writers down is the number not serving. -/
def Exact (s : WriterLiveness) : Prop := s.down = s.notServing

def Counted (s : WriterLiveness) : LivenessStep → Prop
  | .start => True
  | .writer shard event => ∀ w ∈ s.writers[shard]?, w.Counted event

variable {s s' : WriterLiveness} {e : LivenessStep}

theorem step_writer {shard : Nat} {event : WriterEvent} (h : s.step (.writer shard event) = some s') :
    ∃ w w' count, s.writers[shard]? = some w ∧ w.step event = some (w', count) ∧
    s' = ⟨s.writers.set shard w', count s.down⟩ := by
  simp only [step, Option.bind_eq_bind, Option.bind_eq_some_iff, Option.pure_def, Option.some.injEq] at h
  obtain ⟨w, hw, ⟨w', count⟩, hone, rfl⟩ := h
  exact ⟨w, w', count, hw, hone, rfl⟩

theorem notServing_set {shard : Nat} {w : ShardWriter} (hw : s.writers[shard]? = some w)
    (w' : ShardWriter) (down : Nat) :
    w.missing ≤ s.notServing ∧ notServing ⟨s.writers.set shard w', down⟩ = s.notServing - w.missing + w'.missing := by
  obtain ⟨hlt, rfl⟩ := List.getElem?_eq_some_iff.mp hw
  have hle := List.boole_getElem_le_countP (p := fun w : ShardWriter => decide (w.phase ≠ .serving)) hlt
  have hset := List.countP_set (p := fun w : ShardWriter => decide (w.phase ≠ .serving)) (a := w') hlt
  unfold notServing ShardWriter.missing
  grind

theorem Exact.step_iff (h : s.Exact) (hstep : s.step e = some s') : s'.Exact ↔ s.Counted e := by
  have hexact : s.down = s.notServing := h
  cases e with
  | start =>
    cases hstep
    simpa [Exact, notServing, Counted] using hexact
  | writer shard event =>
    obtain ⟨w, w', count, hw, hone, rfl⟩ := step_writer hstep
    obtain ⟨hle, hset⟩ := notServing_set hw w' (count s.down)
    rw [Exact, hset, hexact, ShardWriter.step_count hone hle]
    simp [Counted, hw]

theorem counted_of_step_none (h : s.step e = none) : s.Counted e := by
  cases e with
  | start => cases h
  | writer shard event =>
    intro w hw
    refine ShardWriter.counted_of_step_none ?_
    cases hone : w.step event with
    | none => rfl
    | some after => simp [step, Option.mem_def.mp hw, hone] at h

end WriterLiveness

open WriterLiveness in
theorem down_writers_exact_iff (steps : List LivenessStep) :
    Along step (fun s e => ∀ s', s.step e = some s' → s'.Exact) initial steps ↔ Along step Counted initial steps := by
  have hexact : initial.Exact := rfl
  refine Along.congr (fun s e s' _ hexact hstep => hexact s' hstep) (fun s e hs => ?_) hexact steps
  cases hstep : s.step e with
  | none => exact ⟨fun _ => counted_of_step_none hstep, nofun⟩
  | some s' => simpa using hs.step_iff hstep

open WriterLiveness in
/-- The replacement of a thread whose panic only `join` saw takes away the mark of another shard's: nothing is down,
    and one writer is. -/
theorem unjoined_writer_hides_another :
    run step initial [.start, .start, .writer 0 (.ends .crashed), .writer 1 (.ends .unjoined),
    .writer 1 (.join true), .writer 1 .markUp] = some ⟨[⟨.ended .crashed, false⟩, ⟨.serving, false⟩], 0⟩ ∧
    ¬ Exact ⟨[⟨.ended .crashed, false⟩, ⟨.serving, false⟩], 0⟩ := by
  refine ⟨by decide, ?_⟩
  unfold Exact
  decide

end CameoDb
