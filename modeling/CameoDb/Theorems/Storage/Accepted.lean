import CameoDb.Theorems.Storage.Kept
import CameoDb.Theorems.Storage.Learned

namespace CameoDb
open Std Crash Prog

/-! # A batch that was accepted

Nothing after a batch's commit, the death of the writer included, changes a row or the schema. -/

section Schema
variable (env : Env)

def IndexSchema.learned (schema : IndexSchema) (ops : List WalOp) : IndexSchema :=
  if bringsNewField schema ops then schema.taughtBy env.parsers ops else schema

/-- The schema a batch commits, if it changed. -/
def IndexSchema.evolution (schema : IndexSchema) (ops : List WalOp) : Option IndexSchema :=
  if schema.learned env ops = schema then none else some (schema.learned env ops)

variable {env} {s : Store} {schema : IndexSchema}

theorem IndexSchema.evolution_or (schema : IndexSchema) (ops : List WalOp) :
    (schema.evolution env ops).or (some schema) = some (schema.learned env ops) := by
  unfold evolution
  split
  · next h => rw [h]; rfl
  · rfl

theorem evolvedSchema_cached (hc : s.mem.schemaCache = some schema) (ops : List WalOp) (fates : List Fate) :
    evolvedSchema env schema ops fates s = ⟨.ok (schema.evolution env ops), fates, s⟩ := by
  unfold evolvedSchema IndexSchema.evolution IndexSchema.learned
  split
  · simp only [getSchemaCached, bind_apply, gets, hc]
    show (⟨.ok (if (evolveBatch env schema ops).2 = [] then none else some (evolveBatch env schema ops).1), fates, s⟩ :
      Result Store StoreError (Option IndexSchema)) = _
    simp only [evolveBatch_snd, evolveBatch_fst]
  · rw [if_pos rfl]
    rfl

end Schema

/-! ### After the commit -/

section Committed
variable {env : Env} {s s₀ : Store}

theorem wp_reopenAttempts_reopens (attempts : Nat) (s : Store) (h : Reopened s₀ s)
    (hbuilt : s₀.dir.columns?.isSome = true) : wp (reopenAttempts env attempts) (reopens s₀ Unit) s := by
  refine wp_reopenAttempts_of (P := Reopened s₀) (fun s h => ?_) (fun _ _ h => h) attempts s h
  obtain ⟨fields, hfields⟩ := Option.isSome_iff_exists.mp hbuilt
  obtain ⟨index, hdir⟩ := IndexDir.built_of_columns? (h.columns.trans hfields)
  exact wp_getOrCreateIndex_reopens h hdir

theorem wp_indexBatch_reopens (prepared : List PreparedOp) (finals : List FinalEntry)
    (hbuilt : s.dir.columns?.isSome = true) : wp (indexBatch env prepared finals)
      (.returning fun r s' => r = (prepared.map PreparedOp.seq, newDocumentsCount finals) ∧ Reopened s s') s := by
  have edited (edits : Buffer) : Reopened s (s.bufferAll edits) := (Reopened.refl s).setMem fun _ => rfl
  refine wp_bind (wp_tantivyPass (wp_modify_bind (wp_pure ⟨rfl, (edited _).setMem fun _ => rfl⟩))
    (fun edits => ?_) fun _ => trivial)
  have hdead : Reopened s ((s.bufferAll edits).setMem fun m => { m with writer := none }) :=
    (edited edits).setMem fun _ => rfl
  exact wp_bind (wp_modify_bind (wp_returning (wp_reopenAttempts_reopens 3 _ hdead hbuilt)
    fun _ s₂ h₂ => wp_pure ⟨rfl, h₂⟩))

end Committed

/-! ### The steps before it

What is left of the fates when a batch has committed is what its steps up to there did not use. -/

section Fates
open Prog
variable (env : Env)

theorem orderly_beginRead : Orderly beginRead := (Orderly.step _ _).bind fun _ => .gets _

theorem orderly_getSchemaCached : Orderly getSchemaCached := by
  refine (Orderly.gets _).bind fun mem => ?_
  split
  · exact .pure _
  · refine orderly_beginRead.bind fun t => (Orderly.gets _).bind fun dir => ?_
    split
    · split
      · exact (Orderly.modify _).bind fun _ => .pure _
      · exact .pure _
    · exact .throw _
    · exact (Orderly.step _ _).bind fun _ => (Orderly.modify _).bind fun _ => .pure _

theorem orderly_checkpointSeq (index : TantivyIndex) : Orderly (checkpointSeq index) := by
  refine orderly_beginRead.bind fun t => ?_
  split
  · exact .pure _
  · exact .ite (.pure _) (.ite (.pure _) ((Orderly.step _ _).attempt.bind fun _ => .pure _))

theorem orderly_durabilityBarrier : Orderly (durabilityBarrier env) := .ite (.pure _) (.step _ _)

theorem orderly_replayId (fields : SchemaFields) (schema : IndexSchema) (t : Tables) (id : String) (seq : Nat) :
    Orderly (replayId env fields schema t id seq) := by
  unfold replayId
  split
  · exact (Orderly.ofExcept _).bind fun _ => (Orderly.step _ _).bind fun _ => .pure _
  · exact .pure _

theorem orderly_replayEntries (fields : SchemaFields) (schema : IndexSchema) (t : Tables)
    (entries : List (Nat × WalEntry)) (r : Replay) : Orderly (replayEntries env fields schema t entries r) := by
  induction entries generalizing r with
  | nil => exact .pure _
  | cons x rest ih =>
    unfold replayEntries
    refine .ite (ih _) ((orderly_replayId env fields schema t _ _).bind fun edits => .ite ?_ (ih _))
    exact (orderly_durabilityBarrier env).bind fun _ => (Orderly.step _ _).bind fun _ => ih _

theorem orderly_recoverIndex (index : TantivyIndex) : Orderly (recoverIndex env index) := by
  refine orderly_beginRead.bind fun t => (orderly_checkpointSeq index).bind fun checkpoint =>
    .ite (.pure _) (.ite ?_ ?_)
  · exact (Orderly.ite (.pure _) (.step _ _)).attempt.bind fun _ => .pure _
  · refine orderly_beginRead.bind fun snapshot => orderly_getSchemaCached.bind fun schema => ?_
    exact (orderly_replayEntries env _ _ _ _ _).bind fun r => .ite ((Orderly.modify _).bind fun _ => .pure _) (.pure _)

theorem orderly_openWriter (index : TantivyIndex) : Orderly (openWriter env index) :=
  (Orderly.step _ _).bind fun _ => (orderly_recoverIndex env index).bind fun _ =>
    (Orderly.modify _).bind fun _ => .pure _

theorem orderly_createIndex (schema : IndexSchema) : Orderly (createIndex schema) :=
  (Orderly.step _ _).bind fun _ => (Orderly.step _ _).bind fun _ => orderly_getSchemaCached.bind fun _ =>
    .ite (.pure _) ((Orderly.step _ _).bind fun _ => (Orderly.modify _).bind fun _ => .pure _)

theorem orderly_getOrCreateIndex : Orderly (getOrCreateIndex env) := by
  refine (Orderly.gets _).bind fun mem => ?_
  split
  · split
    · exact .pure _
    · exact (Orderly.modify _).bind fun _ => .pure _
  · refine orderly_getSchemaCached.bind fun schema => (Orderly.gets _).bind fun dir => ?_
    split
    · exact (Orderly.step _ _).bind fun _ => orderly_openWriter env _
    · exact (orderly_createIndex _).bind fun index => orderly_openWriter env index

theorem orderly_openForWrite : Orderly (openForWrite env) :=
  (orderly_getOrCreateIndex env).bind fun _ => orderly_getSchemaCached.bind fun _ => .pure _

theorem orderly_admitBatch (ops : List WalOp) : Orderly (admitBatch env ops) := by
  have hexists : Orderly indexExists := (Orderly.gets _).bind fun mem => by
    split
    · exact .pure _
    · exact .ite (.pure _) (orderly_beginRead.attempt.bind fun read => by split <;> exact .pure _)
  have hdropped : Orderly indexWasDropped := (Orderly.gets _).bind fun mem => by
    split
    · exact .pure _
    · exact orderly_beginRead.attempt.bind fun read => by split <;> exact .pure _
  exact (Orderly.ite (hexists.bind fun _ => .pure _) (.pure _)).bind fun missing =>
    .ite (.throw _) (hdropped.bind fun dropped => .ite (.throw _) (.pure _))

end Fates

/-! ### The whole batch -/

def Store.committed (env : Env) (s : Store) (last n : Nat) (evolved : Option IndexSchema)
    (prepared : List PreparedOp) : Store where
  redb := s.redb.commit (env.config.walSync || evolved.isSome) (batchTxn evolved prepared)
  dir := s.dir
  mem := { s.mem with currentSeq := some (last + n), schemaCache := evolved.or s.mem.schemaCache }

theorem Store.tables_committed (env : Env) (s : Store) (last n : Nat) (evolved : Option IndexSchema)
    (prepared : List PreparedOp) :
    (s.committed env last n evolved prepared).tables = s.tables.run (batchTxn evolved prepared) := by
  show Tables.after (s.redb.commit _ _).all = _
  rw [Db.all_commit, after_concat]
  rfl

section Accepted
variable {env : Env} {s s' : Store} {ops : List WalOp} {fates rest : List Fate} {r : List Nat × Nat}

theorem applyBatch_ok (hops : ops ≠ []) (h : applyBatch env ops fates s = ⟨.ok r, rest, s'⟩) :
    ∃ fates₁ fates₂ opened s₁, openForWrite env fates₁ s = ⟨.ok opened, fates₂, s₁⟩ ∧
      applyOpened env ops opened.1 opened.2 fates₂ s₁ = ⟨.ok r, rest, s'⟩ ∧ (.fail ∉ fates → .fail ∉ fates₂) := by
  rw [applyBatch, if_neg hops] at h
  obtain ⟨_, fates₁, s₀, hadmit, hrest⟩ := bind_eq_ok h
  have hs₀ : s₀ = s := (wp_admitBatch ops (Q := .returning fun _ s' => s' = s) rfl (fun _ => trivial)
    trivial).of_ok hadmit
  rw [hs₀] at hrest
  obtain ⟨opened, fates₂, s₁, hopen, happly⟩ := bind_eq_ok hrest
  refine ⟨fates₁, fates₂, opened, s₁, hopen, happly, fun hno => ?_⟩
  exact (orderly_openForWrite env).fail_notMem hopen ((orderly_admitBatch env ops).fail_notMem hadmit hno)

theorem applyOpened_ok {fields : SchemaFields} {schema : IndexSchema} (hc : s.mem.schemaCache = some schema)
    (h : applyOpened env ops fields schema fates s = ⟨.ok r, rest, s'⟩) :
    ∃ last prepared fates', s.mem.currentSeq = some last ∧ prepareOps env fields schema ops (last + 1) = .ok prepared ∧
      indexBatch env prepared (finalOps s.tables.data prepared []) fates'
        (s.committed env last ops.length (schema.evolution env ops) prepared) = ⟨.ok r, rest, s'⟩ ∧
      (.fail ∉ fates → .fail ∉ fates') := by
  obtain ⟨evolved, fates₁, s₁, hevolved, h₁⟩ := bind_eq_ok h
  rw [evolvedSchema_cached hc] at hevolved
  cases hevolved
  obtain ⟨start, fates₂, s₂, hreserve, h₂⟩ := bind_eq_ok h₁
  simp only [reserveSeqs, bind_apply, gets] at hreserve
  cases hseq : s.mem.currentSeq with
  | none =>
    rw [hseq] at hreserve
    cases hreserve
  | some last =>
    rw [hseq] at hreserve
    cases hreserve
    obtain ⟨prepared, fates₃, s₃, hprep, h₃⟩ := bind_eq_ok h₂
    cases hops : prepareOps env fields schema ops (last + 1) with
    | error e =>
      rw [hops] at hprep
      cases hprep
    | ok ps =>
      rw [hops] at hprep
      cases hprep
      obtain ⟨t, _, _, ht, h₄⟩ := bind_eq_ok h₃
      cases ht
      obtain ⟨_, fates₄, s₄, hcommit, h₅⟩ := bind_eq_ok h₄
      have hs₄ := (wp_step (Q := .returning fun _ s' => s' = _) rfl trivial trivial).of_ok hcommit
      rw [hs₄] at h₅
      exact ⟨last, prepared, fates₄, rfl, hops, h₅, (Prog.Orderly.step _ _).fail_notMem hcommit⟩

structure AppliedBatch (env : Env) (s : Store) (ops : List WalOp) (r : List Nat × Nat) (s' : Store)
    (fields : SchemaFields) (last : Nat) (prepared : List PreparedOp) : Prop where
  prepare : prepareOps env fields s.openedSchema.1 ops (last + 1) = .ok prepared
  result : r = (prepared.map PreparedOp.seq, newDocumentsCount (finalOps s.tables.data prepared []))
  rows : s'.tables.data = prepared.foldl PreparedOp.writeRow s.tables.data
  schema : s'.Holds (s.openedSchema.1.learned env ops, (s.openedSchema.1.evolution env ops).or s.openedSchema.2)

theorem applyBatch_applied (hs : s.mem.writer.isSome = true → s.dir.columns?.isSome = true) (hops : ops ≠ [])
    (h : applyBatch env ops fates s = ⟨.ok r, rest, s'⟩) :
    ∃ fields last prepared, AppliedBatch env s ops r s' fields last prepared := by
  obtain ⟨fates₁, fates₂, opened, s₁, hopen, happly, -⟩ := applyBatch_ok hops h
  have hopened : OpenedFor s opened s₁ := (wp_openForWrite_frame hs).of_ok hopen
  rw [hopened.schema] at happly
  obtain ⟨last, prepared, fates', -, hprep, hindex, -⟩ := applyOpened_ok hopened.holds.cached happly
  generalize hevolved : s.openedSchema.1.evolution env ops = evolved at hindex
  obtain ⟨hr, hkept⟩ := (wp_indexBatch_reopens (s := s₁.committed env last ops.length evolved prepared) prepared
    (finalOps s₁.tables.data prepared []) hopened.holds.built).of_ok hindex
  have htables := s₁.tables_committed env last ops.length evolved prepared
  have hholds : (s₁.committed env last ops.length evolved prepared).Holds
      (s.openedSchema.1.learned env ops, (s.openedSchema.1.evolution env ops).or s.openedSchema.2) := by
    refine ⟨hopened.holds.built, ?_, ?_⟩
    · show evolved.or s₁.mem.schemaCache = _
      rw [hopened.holds.cached, ← hevolved, IndexSchema.evolution_or]
    · rw [htables, batchTxn_schema, hopened.holds.row, hevolved]
  refine ⟨opened.1, last, prepared, hprep, hopened.data ▸ hr, ?_, hholds.reopened hkept⟩
  rw [hkept.data, htables, batchTxn_data, hopened.data]

end Accepted

/-! ### One batch after another -/

/-- Batches accepted one after the other, whatever the environment does meanwhile, with what each returned. -/
inductive AcceptedRun (env : Env) : Store → List (List WalOp) → List (List Nat × Nat) → Store → Prop where
  | nil (s : Store) : AcceptedRun env s [] [] s
  | cons {s s' s'' : Store} {ops : List WalOp} {batches : List (List WalOp)}
      {fates rest : List Fate} {r : List Nat × Nat}
      {rs : List (List Nat × Nat)} (first : applyBatch env ops fates s = ⟨.ok r, rest, s'⟩)
        (more : AcceptedRun env s' batches rs s'') :
      AcceptedRun env s (ops :: batches) (r :: rs) s''

section Runs
variable {env : Env} {s s' : Store} {batches : List (List WalOp)} {rs : List (List Nat × Nat)}

theorem AcceptedRun.of_forEach {fates rest : List Fate}
    (h : forEach (applyBatch env) batches fates s = ⟨.ok rs, rest, s'⟩) : AcceptedRun env s batches rs s' := by
  induction batches generalizing fates rs s with
  | nil =>
    cases h
    exact .nil _
  | cons ops batches ih =>
    obtain ⟨r, fates₁, s₁, first, h₁⟩ := bind_eq_ok h
    obtain ⟨rs', fates₂, s₂, hmore, h₂⟩ := bind_eq_ok h₁
    cases h₂
    exact .cons first (ih hmore)

theorem AcceptedRun.of_flatten_eq_nil (h : AcceptedRun env s batches rs s') (hnil : batches.flatten = []) : s' = s := by
  induction h with
  | nil s => rfl
  | cons first more ih =>
    obtain ⟨rfl, hrest⟩ := List.append_eq_nil_iff.mp hnil
    cases first
    exact ih hrest

end Runs

end CameoDb
