import CameoDb.Theorems.Storage.Runs

namespace CameoDb
open Std Crash Store

/-! # What opening an index leaves alone

Whether it succeeds or not, opening writes no row and no log entry, and a built index keeps its schema. -/

def Store.createdSchema (s : Store) (schema : IndexSchema) : IndexSchema × Option IndexSchema :=
  let current := s.mem.schemaCache.getD (mergeDerived s.tables.schema (createSchemaFromDefinition schema))
  if current.fields.contains "id" then (current, s.tables.schema) else (current.withId, some current.withId)

def Store.openedSchema (s : Store) : IndexSchema × Option IndexSchema :=
  match s.dir.columns? with
  | some fields => (s.mem.schemaCache.getD (mergeDerived s.tables.schema fields), s.tables.schema)
  | none => (s.withCache s.schemaRead).createdSchema (s.schemaRead.getD .default)

/-- What holds between a state and one reached by opening an index that was built. -/
structure Reopened (s s' : Store) : Prop extends SameTables s s' where
  columns : s'.dir.columns? = s.dir.columns?
  cache : s'.mem.schemaCache = s.mem.schemaCache ∨ s'.mem.schemaCache = s.schemaRead

namespace Reopened
variable {s₀ s s' : Store}

theorem refl (s : Store) : Reopened s s := ⟨SameTables.refl s, rfl, Or.inl rfl⟩

theorem schemaRead (h : Reopened s s') : s'.schemaRead = s.schemaRead := by
  rcases h.cache with hc | hc
  · rw [Store.schemaRead, Store.schemaRead, hc, h.columns, h.schema]
  · rw [Store.schemaRead, hc, h.columns, h.schema, Store.schemaRead]
    cases s.mem.schemaCache with
    | some schema => rfl
    | none => exact Option.or_self

theorem trans (h : Reopened s₀ s) (h' : Reopened s s') : Reopened s₀ s' where
  data := h'.data.trans h.data
  schema := h'.schema.trans h.schema
  log := h'.log.trans h.log
  columns := h'.columns.trans h.columns
  cache := by
    rcases h'.cache with hc | hc
    · rw [hc]
      exact h.cache
    · exact Or.inr (hc.trans h.schemaRead)

theorem commit (h : Reopened s₀ s) (immediate : Bool) {txn : Txn} (hdata : ∀ t : Tables, (t.run txn).data = t.data)
    (hschema : ∀ t : Tables, (t.run txn).schema = t.schema) (hlog : ∀ log, txn.foldl logWrite log = log) :
    Reopened s₀ { s with redb := s.redb.commit immediate txn } :=
  ⟨h.toSameTables.commit immediate hdata hschema hlog, h.columns, h.cache⟩

/-- The caches but the schema's are free to change. -/
theorem setMem (h : Reopened s₀ s) {f : Memory → Memory} (hf : ∀ m, (f m).schemaCache = m.schemaCache) :
    Reopened s₀ (s.setMem f) := by
  refine ⟨⟨h.data, h.schema, h.log⟩, h.columns, ?_⟩
  show (f s.mem).schemaCache = _ ∨ (f s.mem).schemaCache = _
  rw [hf]
  exact h.cache

theorem withCache (h : Reopened s₀ s) : Reopened s₀ (s.withCache s.schemaRead) :=
  ⟨⟨h.data, h.schema, h.log⟩, h.columns, Or.inr h.schemaRead⟩

end Reopened

section Opening
variable {env : Env} {s : Store}

/-- A program that only opens: whether it returns or fails, what it leaves is `Reopened`. -/
def reopens (s₀ : Store) (α : Type) : Post Store StoreError α :=
  ⟨fun _ s' => Reopened s₀ s', fun _ s' => Reopened s₀ s', fun _ => True⟩

variable {s₀ : Store} {schema : IndexSchema × Option IndexSchema} {columns : SchemaFields}

theorem wp_reopens_bind {α β : Type} {m : StoreM α} {f : α → StoreM β} (hm : wp m (reopens s₀ α) s)
    (hf : ∀ a s', Reopened s₀ s' → wp (f a) (reopens s₀ β) s') : wp (m >>= f) (reopens s₀ β) s :=
  wp_bind (wp_imp hm hf)

theorem wp_durabilityBarrier_reopens (h : Reopened s₀ s) : wp (durabilityBarrier env) (reopens s₀ Unit) s := by
  unfold durabilityBarrier
  split
  · exact wp_pure h
  · exact wp_step (h.commit true (fun _ => rfl) (fun _ => rfl) fun _ => rfl) h trivial

theorem wp_commitWriter_reopens (h : Reopened s₀ s) (buffer : Buffer) (seq : Option Nat) :
    wp (commitWriter buffer seq) (reopens s₀ Unit) s := by
  refine wp_step ?_ h trivial
  show Reopened s₀ _
  split
  · next index hdir =>
    refine ⟨⟨h.data, h.schema, h.log⟩, ?_, h.cache⟩
    rw [← h.columns, hdir]
    rfl
  · exact h

theorem wp_replayEntries_reopens (fields : SchemaFields) (schema : IndexSchema) (t : Tables)
    (entries : List (Nat × WalEntry))
    (r : Replay) (s : Store) (h : Reopened s₀ s) :
    wp (replayEntries env fields schema t entries r) (reopens s₀ Replay) s := by
  induction entries generalizing r s with
  | nil => exact wp_pure h
  | cons x rest ih =>
    unfold replayEntries
    split
    · exact ih _ _ h
    · have hone : wp (replayId env fields schema t (decodeWalEntry x.2) x.1) (reopens s₀ Buffer) s := by
        unfold replayId
        split
        · exact wp_bind (wp_ofExcept (fun _ _ => wp_step_bind (wp_pure h) h trivial) fun _ _ => h)
        · exact wp_pure h
      refine wp_reopens_bind hone fun edits s₁ h₁ => ?_
      split
      · refine wp_reopens_bind (wp_durabilityBarrier_reopens h₁) fun _ s₂ h₂ => ?_
        exact wp_reopens_bind (wp_commitWriter_reopens h₂ _ _) fun _ s₃ h₃ => ih _ _ h₃
      · exact ih _ _ h₁

theorem wp_recoverIndex_reopens (index : TantivyIndex) (h : Reopened s₀ s) :
    wp (recoverIndex env index) (reopens s₀ Recovery) s := by
  refine wp_bind (wp_beginRead ?_ h trivial)
  refine wp_bind (wp_checkpointSeq_frame index (fun checkpoint s₁ hdir hmem hsame => ?_) (fun _ => h) trivial)
  have h₁ : Reopened s₀ s₁ := h.trans ⟨hsame, by rw [hdir], Or.inl (by rw [hmem])⟩
  dsimp only
  split
  · exact wp_pure h₁
  · split
    · refine wp_bind (wp_attempt ?_)
      unfold checkpointCommitted
      split
      · exact wp_pure (wp_pure h₁)
      · exact wp_step (wp_pure (h₁.commit true (fun _ => rfl) (fun _ => rfl) fun _ => rfl)) (wp_pure h₁) trivial
    · refine wp_bind (wp_beginRead ?_ h₁ trivial)
      refine wp_bind (wp_getSchemaCached_frame ?_ (fun _ => h₁) trivial)
      refine wp_reopens_bind (wp_replayEntries_reopens _ _ _ _ _ _ h₁.withCache) fun r s₂ h₂ => ?_
      split
      · exact wp_modify_bind (wp_pure (h₂.setMem fun _ => rfl))
      · exact wp_pure h₂

theorem wp_openWriter_reopens (index : TantivyIndex) (h : Reopened s₀ s) :
    wp (openWriter env index) (reopens s₀ SchemaFields) s := by
  refine wp_step_bind (wp_reopens_bind (wp_recoverIndex_reopens index h) fun r s₁ h₁ => ?_) h trivial
  exact wp_modify_bind (wp_pure (h₁.setMem fun _ => rfl))

theorem wp_getOrCreateIndex_reopens {index : TantivyIndex} (h : Reopened s₀ s) (hdir : s.dir = .built index) :
    wp (getOrCreateIndex env) (reopens s₀ SchemaFields) s := by
  refine wp_getOrCreateIndex_of (fun w _ => h.setMem fun _ => rfl)
    (fun _ index _ => wp_openWriter_reopens index h.withCache)
    (fun _ hno => absurd hdir (hno index)) ?_ fun _ _ => trivial
  rintro _ _ (rfl | rfl)
  · exact h
  · exact h.withCache

/-- The index is built, with this schema cached and this row. -/
structure Store.Holds (s : Store) (schema : IndexSchema × Option IndexSchema) : Prop where
  built : s.dir.columns?.isSome = true
  cached : s.mem.schemaCache = some schema.1
  row : s.tables.schema = schema.2

theorem Store.Holds.schemaRead (h : s.Holds schema) : s.schemaRead = some schema.1 := by
  rw [Store.schemaRead, h.cached]
  rfl

theorem Store.Holds.reopened {s' : Store} (h : s.Holds schema) (h' : Reopened s s') :
    s'.Holds schema where
  built := h'.columns ▸ h.built
  cached := by
    rcases h'.cache with hc | hc
    · exact hc.trans h.cached
    · exact hc.trans h.schemaRead
  row := h'.schema.trans h.row

theorem Store.Holds.openedSchema (h : s.Holds schema) : s.openedSchema = schema := by
  obtain ⟨fields, hfields⟩ := Option.isSome_iff_exists.mp h.built
  rw [Store.openedSchema, hfields, h.cached, h.row]
  rfl

theorem Store.schemaRead_of_columns (hcols : s.dir.columns? = some columns) : s.schemaRead = some s.openedSchema.1 := by
  rw [Store.schemaRead, Store.openedSchema, hcols]
  cases s.mem.schemaCache <;> rfl

theorem Store.holds_withCache (hcols : s.dir.columns? = some columns) :
    (s.withCache s.schemaRead).Holds s.openedSchema := by
  refine ⟨congrArg Option.isSome hcols, schemaRead_of_columns hcols, ?_⟩
  rw [Store.openedSchema, hcols]
  rfl

theorem wp_createIndex_frame (schema : IndexSchema) {Q : Post Store StoreError TantivyIndex}
    (ok : ∀ index s', s'.dir = .built index → index.docs = [] → s'.Holds (s.createdSchema schema) →
      s'.tables.data = s.tables.data → logOf s'.redb.all = logOf s.redb.all → Q.ok index s')
    (err : ∀ e s', Q.error e s') (crash : ∀ s', Q.crashed s') : wp (createIndex schema) Q s := by
  refine wp_step_bind (wp_step_bind ?_ (err _ _) (crash _)) (err _ _) (crash _)
  refine wp_bind (wp_getSchemaCached_frame ?_ (fun _ => err _ _) (crash _))
  have hread : ((s.setDir .bare).setDir (.built ⟨createSchemaFromDefinition schema, [], none⟩)).schemaRead =
      some (s.mem.schemaCache.getD (mergeDerived s.tables.schema (createSchemaFromDefinition schema))) := by
    show s.mem.schemaCache.or (some _) = _
    cases s.mem.schemaCache <;> rfl
  unfold createdSchema at ok
  rw [hread]
  dsimp only [Option.getD_some] at ok ⊢
  generalize s.mem.schemaCache.getD (mergeDerived s.tables.schema (createSchemaFromDefinition schema)) = current at ok
  split
  · next hid =>
    rw [if_pos hid] at ok
    exact wp_pure (ok _ _ rfl rfl ⟨rfl, rfl, rfl⟩ rfl rfl)
  · next hid =>
    rw [if_neg hid] at ok
    have hall : (s.redb.commit true [.schemaInsert current.withId]).all =
      s.redb.all ++ [[.schemaInsert current.withId]] :=
      Db.all_commit ..
    have htables : Tables.after (s.redb.commit true [.schemaInsert current.withId]).all =
        s.tables.run [.schemaInsert current.withId] := by rw [hall, after_concat]; rfl
    refine wp_step_bind (wp_modify_bind (wp_pure (ok _ _ rfl rfl ⟨rfl, rfl, ?_⟩ ?_ ?_))) (err _ _) (crash _)
    · exact congrArg Tables.schema htables
    · exact (congrArg Tables.data htables).trans rfl
    · show logOf (s.redb.commit true [.schemaInsert current.withId]).all = _
      rw [hall, logOf_concat]
      rfl

structure OpenedFor (s : Store) (opened : SchemaFields × IndexSchema) (s' : Store) : Prop where
  schema : opened.2 = s.openedSchema.1
  holds : s'.Holds s.openedSchema
  data : s'.tables.data = s.tables.data
  log : logOf s'.redb.all = logOf s.redb.all

theorem wp_openForWrite_frame (hs : s.mem.writer.isSome = true → s.dir.columns?.isSome = true) :
    wp (openForWrite env) (.returning (OpenedFor s)) s := by
  -- The read that follows the opening finds the schema the opening left, in the cache or not.
  have read : ∀ fields s₁, s₁.schemaRead = some s.openedSchema.1 → (s₁.withCache s₁.schemaRead).Holds s.openedSchema →
      s₁.tables.data = s.tables.data → logOf s₁.redb.all = logOf s.redb.all →
      wp (getSchemaCached >>= fun cached => pure (fields, cached.getD .default))
        (.returning (OpenedFor s)) s₁ := by
    intro fields s₁ hread h₁ hdata hlog
    refine wp_bind (wp_getSchemaCached_frame (wp_pure ⟨?_, h₁, hdata, hlog⟩) (fun _ => trivial) trivial)
    rw [hread]
    rfl
  cases hcols : s.dir.columns? with
  | some columns =>
    have hread := schemaRead_of_columns hcols
    obtain ⟨index, hdir⟩ := IndexDir.built_of_columns? hcols
    refine wp_bind (wp_returning (wp_getOrCreateIndex_reopens (Reopened.refl s) hdir) fun fields s₁ h₁ => ?_)
    refine read fields s₁ (h₁.schemaRead.trans hread) ?_ h₁.data h₁.log
    rw [h₁.schemaRead]
    exact (holds_withCache hcols).reopened ⟨⟨h₁.data, h₁.schema, h₁.log⟩, h₁.columns, Or.inl rfl⟩
  | none =>
    have hopened : s.openedSchema = (s.withCache s.schemaRead).createdSchema (s.schemaRead.getD .default) := by
      rw [Store.openedSchema, hcols]
    refine wp_bind (wp_getOrCreateIndex_of (fun w hw => ?_) (fun _ index hdir => ?_) (fun _ _ => ?_)
      (fun _ _ _ => trivial) fun _ _ => trivial)
    · simp [hw, hcols] at hs
    · simp [hdir, IndexDir.columns?] at hcols
    · refine wp_bind (wp_createIndex_frame _ (fun index s₂ _ _ h₂ hdata hlog => ?_) (fun _ _ => trivial) fun _ =>
        trivial)
      refine wp_returning (wp_openWriter_reopens index (Reopened.refl s₂)) fun fields s₃ h₃ => ?_
      have hholds : s₃.Holds s.openedSchema := hopened ▸ h₂.reopened h₃
      exact read fields s₃ hholds.schemaRead ⟨hholds.built, hholds.schemaRead, hholds.row⟩
        (h₃.data.trans hdata) (h₃.log.trans hlog)

end Opening

end CameoDb
