import CameoDb.Theorems.Storage.Accepted
import CameoDb.Theorems.Storage.Convergence

namespace CameoDb
open Std Crash IndexSchema

/-! # What batches teach a schema

A batch is looked through only when some field of it is new, so a value that only widens a field may not be learned. -/

/-- Whether what a batch teaches reaches the schema: some field of it is new, or nothing it says about the others is. -/
def LearnsAll (env : Env) (schema : IndexSchema) (ops : List WalOp) : Prop :=
  bringsNewField schema ops = true ∨ schema.taughtBy env.parsers ops = schema

instance (env : Env) (schema : IndexSchema) (ops : List WalOp) : Decidable (LearnsAll env schema ops) := instDecidableOr

theorem learned_eq_taughtBy_iff (env : Env) (schema : IndexSchema) (ops : List WalOp) :
    schema.learned env ops = schema.taughtBy env.parsers ops ↔ LearnsAll env schema ops := by
  unfold learned LearnsAll
  split
  · next h => simp [h]
  · next h => simp [h, eq_comm]

/-- Batches each of which teaches the schema all it says. -/
def LearnsAlong (env : Env) : IndexSchema → List (List WalOp) → Prop
  | _, [] => True
  | schema, ops :: rest => LearnsAll env schema ops ∧ LearnsAlong env (schema.taughtBy env.parsers ops) rest

instance decidableLearnsAlong (env : Env) : ∀ (schema : IndexSchema) (batches : List (List WalOp)),
    Decidable (LearnsAlong env schema batches)
  | _, [] => instDecidableTrue
  | schema, ops :: rest =>
    have := decidableLearnsAlong env (schema.taughtBy env.parsers ops) rest
    inferInstanceAs (Decidable (LearnsAll env schema ops ∧ _))

/-- The row of a schema that has become another: a schema that did not change is not written again. -/
def storedAfter (schema : IndexSchema × Option IndexSchema) (now : IndexSchema) : IndexSchema × Option IndexSchema :=
  (now, if now = schema.1 then schema.2 else some now)

section Runs
variable {env : Env} {s s' : Store}

theorem evolution_or_row (schema : IndexSchema × Option IndexSchema) (ops : List WalOp) :
    (schema.1.learned env ops, (schema.1.evolution env ops).or schema.2) = storedAfter schema
    (schema.1.learned env ops) := by
  unfold storedAfter evolution
  split <;> rfl

/-- What one batch after another taught is what they teach together: a type that went up did not come back. -/
theorem storedAfter_append (schema : IndexSchema × Option IndexSchema) (first second : List WalOp) :
    storedAfter (storedAfter schema (schema.1.taughtBy env.parsers first))
        ((schema.1.taughtBy env.parsers first).taughtBy env.parsers second) =
      storedAfter schema (schema.1.taughtBy env.parsers (first ++ second)) := by
  rw [taughtBy_append]
  generalize hfirst : schema.1.taughtBy env.parsers first = now
  unfold storedAfter
  by_cases h : now.taughtBy env.parsers second = schema.1
  · -- Had the first part changed the schema, the whole would have.
    have hnow : now = schema.1 := by
      have habs := absorbing_teach env.parsers
      have hall : schema.1.taughtBy env.parsers (first ++ second) = schema.1 := by
        rw [taughtBy_append, hfirst, h]
      rw [← hfirst]
      unfold taughtBy at hall ⊢
      rw [List.flatMap_append] at hall
      rw [habs.foldl_eq_self_iff] at hall ⊢
      exact fun a ha => hall a (List.mem_append_left _ ha)
    simp [hnow]
  · by_cases h' : now.taughtBy env.parsers second = now
    · simp [h']
    · simp [h, h']

/-- A run of accepted batches that each teach all they say leaves the schema they teach together. -/
theorem AcceptedRun.schema {batches : List (List WalOp)} {rs : List (List Nat × Nat)}
    (h : AcceptedRun env s batches rs s')
    (hs : s.mem.writer.isSome = true → s.dir.columns?.isSome = true) (hlearn : LearnsAlong env s.openedSchema.1 batches)
    (hsome : batches.flatten ≠ []) :
    s'.Holds (storedAfter s.openedSchema (s.openedSchema.1.taughtBy env.parsers batches.flatten)) := by
  induction h with
  | nil s => exact absurd rfl hsome
  | @cons s s₁ s₂ ops batches fates rest r rs first more ih =>
    obtain ⟨hone, hmore⟩ := hlearn
    by_cases hops : ops = []
    · subst hops
      cases first
      exact ih hs hmore hsome
    · obtain ⟨_, _, _, happlied⟩ := applyBatch_applied hs hops first
      have hstep := happlied.schema
      rw [evolution_or_row, (learned_eq_taughtBy_iff ..).mpr hone] at hstep
      have hopened := hstep.openedSchema
      rw [List.flatten_cons]
      by_cases hrest : batches.flatten = []
      · rw [hrest, List.append_nil, more.of_flatten_eq_nil hrest]
        exact hstep
      · have hlast := ih (fun _ => hstep.built) (by rw [hopened]; exact hmore) hrest
        rw [hopened] at hlast
        exact storedAfter_append s.openedSchema ops batches.flatten ▸ hlast

end Runs

/-- A batch leaves the schema its values teach exactly when it brings a new field or they teach nothing; and batches
    all of which do, in any order and cut in any way, leave one schema. -/
theorem learned_schema_unordered_iff (env : Env) (s : Store)
    (hs : s.mem.writer.isSome = true → s.dir.columns?.isSome = true) :
    (∀ ops fates r rest s', ops ≠ [] → applyBatch env ops fates s = ⟨.ok r, rest, s'⟩ →
        (s'.openedSchema.1 = s.openedSchema.1.taughtBy env.parsers ops ↔ LearnsAll env s.openedSchema.1 ops)) ∧
      ∀ xs ys rs₁ rs₂ s₁ s₂, AcceptedRun env s xs rs₁ s₁ → AcceptedRun env s ys rs₂ s₂ →
      LearnsAlong env s.openedSchema.1 xs → LearnsAlong env s.openedSchema.1 ys → xs.flatten.Perm ys.flatten →
        s₁.tables.schema = s₂.tables.schema ∧ s₁.openedSchema = s₂.openedSchema := by
  refine ⟨fun ops fates r rest s' hops h => ?_, fun xs ys rs₁ rs₂ s₁ s₂ hxs hys hlx hly hperm => ?_⟩
  · obtain ⟨_, _, _, happlied⟩ := applyBatch_applied hs hops h
    rw [happlied.schema.openedSchema]
    exact learned_eq_taughtBy_iff env _ ops
  · have htaught := taughtBy_perm env.parsers s.openedSchema.1 hperm
    by_cases hnil : xs.flatten = []
    · rw [hxs.of_flatten_eq_nil hnil, hys.of_flatten_eq_nil (List.perm_nil.mp (hnil ▸ hperm.symm))]
      exact ⟨rfl, rfl⟩
    · have hx := hxs.schema hs hlx hnil
      have hy := hys.schema hs hly fun hc => hnil (List.perm_nil.mp (hc ▸ hperm))
      rw [htaught] at hx
      exact ⟨hx.row.trans hy.row.symm, hx.openedSchema.trans hy.openedSchema.symm⟩

def Store.afterBatches (env : Env) (s : Store) (batches : List (List WalOp)) : Store :=
  (Prog.forEach (applyBatch env) batches [] s).state

theorem AcceptedRun.quiet (env : Env) (s : Store) (batches : List (List WalOp))
    (h : Succeeds (Prog.forEach (applyBatch env) batches) s) :
    ∃ rs, AcceptedRun env s batches rs (s.afterBatches env batches) := by
  obtain ⟨rs, s', hret⟩ := h
  have hstate : s.afterBatches env batches = s' := congrArg Result.state hret
  rw [hstate]
  exact ⟨rs, .of_forEach hret⟩

def putNumber (id name : String) (n : UInt64) : WalOp := .put id (some (.object [(name, .number (.posInt n))]))

def putText (id name text : String) : WalOp := .put id (some (.object [(name, .string text)]))

theorem learned_schema_unordered_iff_numbers :
    ((Store.initial none).afterBatches plainEnv [[putNumber "a" "x" 1], [putNumber "b" "y" 2]]).tables.schema =
      ((Store.initial none).afterBatches plainEnv [[putNumber "b" "y" 2, putNumber "a" "x" 1]]).tables.schema := by
  obtain ⟨rs₁, h₁⟩ := AcceptedRun.quiet plainEnv (Store.initial none)
    [[putNumber "a" "x" 1], [putNumber "b" "y" 2]] (by decide +kernel)
  obtain ⟨rs₂, h₂⟩ := AcceptedRun.quiet plainEnv (Store.initial none)
    [[putNumber "b" "y" 2, putNumber "a" "x" 1]] (by decide +kernel)
  exact ((learned_schema_unordered_iff plainEnv (Store.initial none) nofun).2 _ _ rs₁ rs₂ _ _ h₁ h₂ (by decide +kernel)
    (by decide +kernel) (List.Perm.swap ..)).1

/-- Beside a new field a text makes a learned number a text; in a batch of its own it is not looked at. -/
theorem widening_lost_alone :
    let s := (Store.initial none).afterBatches plainEnv [[putNumber "a" "x" 1]]
    Succeeds (Prog.forEach (applyBatch plainEnv) [[putText "b" "x" "one", putNumber "c" "y" 2]]) s ∧
      Succeeds (Prog.forEach (applyBatch plainEnv) [[putText "b" "x" "one"], [putNumber "c" "y" 2]]) s ∧
      ((s.afterBatches plainEnv [[putText "b" "x" "one", putNumber "c" "y" 2]]).tables.schema.bind fun c =>
        c.fields["x"]?.map FieldDef.fieldType) = some .text ∧
      ((s.afterBatches plainEnv [[putText "b" "x" "one"], [putNumber "c" "y" 2]]).tables.schema.bind fun c =>
        c.fields["x"]?.map FieldDef.fieldType) = some .i64 := by
  refine ⟨?_, ?_, ?_, ?_⟩ <;> decide +kernel

end CameoDb
