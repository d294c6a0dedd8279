import CameoDb.Theorems.Storage.Mirrors
import CameoDb.Theorems.Storage.Admission

namespace CameoDb
open List Store Std Crash

/-! # A batch that was refused

What fails before its redb commit took numbers and read a schema; batches after it only have higher numbers. -/

/-! ### Up to the commit -/

structure CommittedBatch where
  evolved : Option IndexSchema
  prepared : List PreparedOp
  finals : List FinalEntry

def commitBatch (env : Env) (ops : List WalOp) : StoreM CommittedBatch := do
  admitBatch env ops
  let opened ← openForWrite env
  let evolved ← evolvedSchema env opened.2 ops
  let start ← reserveSeqs env ops.length
  let prepared ← Prog.ofExcept (prepareOps env opened.1 opened.2 ops start)
  let t ← Prog.gets tables
  commitTxn (env.config.walSync || evolved.isSome) (batchTxn evolved prepared)
  pure ⟨evolved, prepared, finalOps t.data prepared []⟩

/-- The rest of it. -/
def indexCommitted (env : Env) (batch : CommittedBatch) : StoreM (List Nat × Nat) := do
  Prog.modify (·.setMem fun m => { m with schemaCache := batch.evolved.or m.schemaCache })
  indexBatch env batch.prepared batch.finals

theorem applyBatch_eq_commitBatch (env : Env) {ops : List WalOp} (hops : ops ≠ []) :
    applyBatch env ops = commitBatch env ops >>= indexCommitted env := by
  rw [applyBatch, if_neg hops]
  simp only [commitBatch, Prog.bind_assoc]
  rfl

/-- `s'` is `s` but for `k` numbers taken and for caches that were empty: what a batch has done until it commits. -/
structure Unsent (s : Store) (k : Nat) (s' : Store) : Prop where
  redb : s'.redb = s.redb
  dir : s'.dir = s.dir
  writer : s'.mem.writer = s.mem.writer
  operations : s'.mem.operations = s.mem.operations
  counter : s'.mem.currentSeq = s.mem.currentSeq.map (· + k)
  schemaCache : s'.mem.schemaCache = s.mem.schemaCache ∨ s.mem.schemaCache = none ∧ s'.mem.schemaCache = s.schemaRead
  fieldsCache : s'.mem.fieldsCache = s.mem.fieldsCache ∨
    s.mem.fieldsCache = none ∧ s'.mem.fieldsCache = s.mem.writer.map Writer.fields

section Unsent
variable {env : Env} {s s' : Store} {w : Writer} {index : TantivyIndex} {k : Nat}

theorem Unsent.refl (s : Store) : Unsent s 0 s := ⟨rfl, rfl, rfl, rfl, by simp, Or.inl rfl, Or.inl rfl⟩

theorem Unsent.schemaRead (h : Unsent s k s') : s'.schemaRead = s.schemaRead := by
  have htables : s'.tables = s.tables := by rw [tables, tables, h.redb]
  rcases h.schemaCache with hc | ⟨hnone, hc⟩
  · rw [Store.schemaRead, Store.schemaRead, hc, h.dir, htables]
  · rw [Store.schemaRead, hc, h.dir, htables, Store.schemaRead, hnone]
    exact Option.or_self

theorem Unsent.withCache (h : Unsent s k s') : Unsent s k (s'.withCache s'.schemaRead) := by
  refine { h with schemaCache := ?_ }
  show s'.schemaRead = _ ∨ _ ∧ s'.schemaRead = _
  rw [h.schemaRead]
  cases hc : s.mem.schemaCache with
  | none => exact Or.inr ⟨rfl, rfl⟩
  | some schema => exact Or.inl (by rw [Store.schemaRead, hc]; rfl)

theorem Unsent.reserved (h : Unsent s 0 s') {last : Nat} (hlast : s'.mem.currentSeq = some last) (n : Nat) :
    Unsent s n (s'.reserved last n) := by
  refine { h with counter := ?_ }
  show some (last + n) = _
  have := h.counter
  rw [hlast] at this
  cases hc : s.mem.currentSeq with
  | none => rw [hc] at this; cases this
  | some m =>
    rw [hc] at this
    cases this
    rfl

theorem wp_openForWrite_unsent (hw : s.mem.writer = some w) (hdir : s.dir = .built index)
    {Q : Post Store StoreError (SchemaFields × IndexSchema)}
    (ok : ∀ opened s', Unsent s 0 s' → s'.mem.schemaCache = some opened.2 → Q.ok opened s')
    (err : ∀ e s', Unsent s 0 s' → Q.error e s') (crash : ∀ s', Q.crashed s') : wp (openForWrite env) Q s := by
  have read : ∀ fields s₁, Unsent s 0 s₁ → wp (getSchemaCached >>= fun cached =>
      pure (fields, cached.getD .default)) Q s₁ := by
    intro fields s₁ h₁
    obtain ⟨schema, hschema⟩ := schemaRead_of_built (h₁.dir.trans hdir)
    refine wp_bind (wp_getSchemaCached_frame (wp_pure (ok _ _ h₁.withCache ?_)) (fun e => err e _ h₁) (crash _))
    show s₁.schemaRead = _
    rw [hschema]
    rfl
  refine wp_bind (wp_gets_bind ?_)
  rw [hw]
  cases hf : s.mem.fieldsCache with
  | some fields => exact wp_pure (read fields s (Unsent.refl s))
  | none =>
    refine wp_modify_bind (wp_pure (read w.fields _ { Unsent.refl s with fieldsCache := Or.inr ⟨hf, ?_⟩ }))
    rw [hw]
    rfl

/-- On an open index, a batch that fails before its commit returns has changed neither table, index nor writer. -/
theorem wp_commitBatch_unsent (hw : s.mem.writer = some w) (hdir : s.dir = .built index) (ops : List WalOp) :
    wp (commitBatch env ops) ⟨fun _ _ => True, fun _ s' => ∃ k ≤ ops.length, Unsent s k s', fun _ => True⟩ s := by
  have early : ∀ s', Unsent s 0 s' → ∃ k ≤ ops.length, Unsent s k s' := fun s' h => ⟨0, Nat.zero_le _, h⟩
  refine wp_bind (wp_admitBatch ops ?_ (fun _ => early s (Unsent.refl s)) trivial)
  refine wp_bind (wp_openForWrite_unsent hw hdir (fun opened s₁ h₁ hc => ?_) (fun _ s₁ h₁ => early s₁ h₁) fun _ =>
    trivial)
  refine wp_bind fun fates => ?_
  rw [evolvedSchema_cached hc]
  show wp _ _ _
  refine wp_bind (wp_gets_bind ?_)
  cases hlast : s₁.mem.currentSeq with
  | none => exact wp_throw (early s₁ h₁)
  | some last =>
    have h₂ : ∃ k ≤ ops.length, Unsent s k (s₁.reserved last ops.length) :=
      ⟨_, Nat.le_refl _, h₁.reserved hlast ops.length⟩
    refine wp_modify_bind (wp_pure (wp_bind (wp_ofExcept (fun prepared _ => ?_) fun _ _ => h₂)))
    exact wp_gets_bind (wp_step_bind (wp_pure trivial) h₂ trivial)

end Unsent

/-! ### Higher numbers -/

section Ahead
variable (k : Nat)

/-- The same document with a number `k` higher. -/
def TantivyDocument.ahead (doc : TantivyDocument) : TantivyDocument := { doc with seq := doc.seq.map (· + k) }

def aheadEdit : Edit String TantivyDocument → Edit String TantivyDocument
  | .deleteTerm id => .deleteTerm id
  | .add doc => .add (doc.ahead k)

def PreparedOp.ahead (op : PreparedOp) : PreparedOp where
  seq := op.seq + k
  id := op.id
  kind :=
    match op.kind with
    | .put row doc => .put row (doc.ahead k)
    | .delete => .delete

def FinalEntry.ahead (e : FinalEntry) : FinalEntry := { e with op := e.op.map (TantivyDocument.ahead k) }

variable {env : Env} {fields : SchemaFields} {schema : IndexSchema}

theorem prepareOp_ahead (op : WalOp) (seq : Nat) :
    prepareOp env fields schema op (seq + k) = (prepareOp env fields schema op seq).map (PreparedOp.ahead k) := by
  cases op with
  | delete id => rfl
  | put id blob =>
    simp only [prepareOp, SchemaFields.document]
    generalize (if (schema.hasShadowFields || schema.hasGhostFields) = true then
      blob.map (filterUnstoredFieldsOwned schema)
      else blob) = row
    cases fields.bodyValues env.parsers schema row .refuse with
    | error e => rfl
    | ok values =>
      cases hseq : fields.seq <;> simp [Except.map, PreparedOp.ahead, TantivyDocument.ahead]

theorem prepareOps_ahead (ops : List WalOp) (start : Nat) :
    prepareOps env fields schema ops (start + k) =
      (prepareOps env fields schema ops start).map (map (PreparedOp.ahead k)) := by
  induction ops generalizing start with
  | nil => rfl
  | cons op rest ih =>
    rw [prepareOps, prepareOps, prepareOp_ahead, Nat.add_right_comm, ih]
    cases prepareOp env fields schema op start with
    | error e => rfl
    | ok first =>
      dsimp only [Except.map]
      cases prepareOps env fields schema rest (start + 1) <;> rfl

theorem recordFinal_ahead (finals : List FinalEntry) (id : String) (touched : Bool) (op : Option TantivyDocument) :
    recordFinal (finals.map (FinalEntry.ahead k)) id touched (op.map (TantivyDocument.ahead k)) =
      (recordFinal finals id touched op).map (FinalEntry.ahead k) := by
  have hany : (finals.map (FinalEntry.ahead k)).any (·.id = id) = finals.any (·.id = id) := by
    rw [any_map]
    rfl
  unfold recordFinal
  rw [hany]
  split
  · rw [map_map, map_map]
    refine map_congr_left fun e _ => ?_
    by_cases h : e.id = id <;> simp [FinalEntry.ahead, h]
  · rw [map_append]
    rfl

theorem finalOps_ahead (data : DataTable) (prepared : List PreparedOp)
    (finals : List FinalEntry) :
    finalOps data (prepared.map (PreparedOp.ahead k)) (finals.map (FinalEntry.ahead k)) =
      (finalOps data prepared finals).map (FinalEntry.ahead k) := by
  induction prepared generalizing data finals with
  | nil => rfl
  | cons op rest ih =>
    rw [map_cons, finalOps, finalOps]
    cases hk : op.kind with
    | put row doc =>
      rw [show (op.ahead k).kind = .put row (doc.ahead k) by simp [PreparedOp.ahead, hk]]
      dsimp only
      rw [← ih, ← recordFinal_ahead]
      rfl
    | delete =>
      rw [show (op.ahead k).kind = .delete by simp [PreparedOp.ahead, hk]]
      dsimp only
      rw [← ih, ← recordFinal_ahead]
      rfl

theorem edits_ahead (finals : List FinalEntry) :
    (finals.map (FinalEntry.ahead k)).flatMap FinalEntry.edits =
    (finals.flatMap FinalEntry.edits).map (aheadEdit k) := by
  rw [flatMap_map, map_flatMap]
  refine flatMap_congr fun e _ => ?_
  cases hop : e.op <;> cases hb : e.existedBefore <;> simp [FinalEntry.edits, FinalEntry.ahead, aheadEdit, hop, hb]

theorem newDocumentsCount_ahead (finals : List FinalEntry) :
    newDocumentsCount (finals.map (FinalEntry.ahead k)) = newDocumentsCount finals := by
  rw [newDocumentsCount, newDocumentsCount, filter_map, length_map]
  congr 2
  funext e
  simp [FinalEntry.ahead]

theorem writeRow_ahead (prepared : List PreparedOp) (data : DataTable) :
    (prepared.map (PreparedOp.ahead k)).foldl PreparedOp.writeRow data = prepared.foldl PreparedOp.writeRow data := by
  rw [foldl_map]
  congr 1
  funext data op
  unfold PreparedOp.writeRow PreparedOp.ahead
  cases op.kind <;> rfl

end Ahead

/-! ### A batch on an open index -/

def Store.readied (s : Store) (fields : SchemaFields) : Store :=
  s.setMem fun m => { m with fieldsCache := some fields, schemaCache := some s.openedSchema.1 }

section Open
variable {env : Env} {s : Store} {w : Writer}

theorem getSchemaCached_open (hcols : s.dir.columns?.isSome = true) :
    Returns getSchemaCached s (some s.openedSchema.1) (s.withCache (some s.openedSchema.1)) := by
  obtain ⟨columns, hcols⟩ := Option.isSome_iff_exists.mp hcols
  obtain ⟨index, hdir⟩ := IndexDir.built_of_columns? hcols
  rw [← schemaRead_of_columns hcols]
  exact returns_getSchemaCached (Or.inl (by simp [hdir]))

theorem openForWrite_open (hw : s.mem.writer = some w) (hcols : s.dir.columns?.isSome = true) :
    Returns (openForWrite env) s (s.mem.fieldsCache.getD w.fields, s.openedSchema.1)
      (s.readied (s.mem.fieldsCache.getD w.fields)) := by
  have hopen : Returns (getOrCreateIndex env) s (s.mem.fieldsCache.getD w.fields)
      (s.setMem fun m => { m with fieldsCache := some (s.mem.fieldsCache.getD w.fields) }) := by
    simp only [Returns, getOrCreateIndex, Prog.bind_apply, Prog.gets, hw]
    cases hf : s.mem.fieldsCache with
    | some fields =>
      have hsame : (s.setMem fun m => { m with fieldsCache := some fields }) = s := by simp only [setMem, ← hf]
      rw [Option.getD_some, hsame]
      rfl
    | none => rfl
  have hread := getSchemaCached_open (s := s.setMem fun m =>
    { m with fieldsCache := some (s.mem.fieldsCache.getD w.fields) }) hcols
  exact hopen.bind (hread.bind rfl)

theorem admitBatch_open (hw : s.mem.writer = some w) (hcols : s.dir.columns?.isSome = true) (ops : List WalOp) :
    admitBatch env ops [] s =
      ⟨if s.openedSchema.1.state = .dropped then .error (.indexNotFound env.index) else .ok (), [], s⟩ := by
  obtain ⟨columns, hcols⟩ := Option.isSome_iff_exists.mp hcols
  have hcond :
      ((ops.all WalOp.isDelete && !s.known) || (s.mem.schemaCache.or s.tables.schema).any (·.state = .dropped)) =
        decide (s.openedSchema.1.state = .dropped) := by
    rw [known, openedSchema, hcols]
    cases s.mem.schemaCache with
    | some schema => cases hstate : schema.state <;> simp [hstate]
    | none =>
      rw [hw]
      cases s.tables.schema with
      | none => simp [mergeDerived, IndexSchema.default]
      | some stored =>
        have hmerged : (mergeDerived (some stored) columns).state = stored.state := by
          unfold mergeDerived
          dsimp only
          split <;> rfl
        simp [hmerged]
  rw [admitBatch_quiet, hcond]
  by_cases h : s.openedSchema.1.state = .dropped <;> simp [h]

theorem applyBatch_open (hw : s.mem.writer = some w) (hcols : s.dir.columns?.isSome = true)
    {ops : List WalOp} (hops : ops ≠ []) : applyBatch env ops [] s =
      if s.openedSchema.1.state = .dropped then ⟨.error (.indexNotFound env.index), [], s⟩
      else applyOpened env ops (s.mem.fieldsCache.getD w.fields) s.openedSchema.1 []
      (s.readied (s.mem.fieldsCache.getD w.fields)) := by
  rw [applyBatch, if_neg hops, Prog.bind_apply, admitBatch_open hw hcols]
  by_cases h : s.openedSchema.1.state = .dropped
  · simp only [if_pos h]
  · simp only [if_neg h]
    exact (openForWrite_open hw hcols).bind_eq

end Open

/-! ### Batches after a refused one -/

/-- `s'` is `s` with the numbers given since some moment `k` higher: in the WAL, in the documents buffered, and in
    the counter. -/
structure Ahead (k : Nat) (s s' : Store) : Prop where
  built : s.dir.columns?.isSome = true
  dir : s'.dir = s.dir
  data : s'.tables.data = s.tables.data
  row : s'.tables.schema = s.tables.schema
  schema : s'.openedSchema.1 = s.openedSchema.1
  operations : s'.mem.operations = s.mem.operations
  counter : s'.mem.currentSeq = s.mem.currentSeq.map (· + k)
  wal : ∃ old new, s.tables.wal = walInserts new old ∧ s'.tables.wal = walInserts (new.map fun e => (e.1 + k, e.2)) old
  writer : ∃ fields old new, s.mem.writer = some ⟨fields, old ++ new⟩ ∧
    s'.mem.writer = some ⟨fields, old ++ new.map (aheadEdit k)⟩ ∧
    s'.mem.fieldsCache.getD fields = s.mem.fieldsCache.getD fields

/-- The outcome of a batch with each of its numbers `k` higher. -/
def aheadOutcome (k : Nat) : Outcome StoreError (List Nat × Nat) → Outcome StoreError (List Nat × Nat)
  | .ok r => .ok (r.1.map (· + k), r.2)
  | o => o

section Later
variable {env : Env} {k : Nat} {s s' : Store}

theorem Unsent.ahead {w : Writer} {index : TantivyIndex} (h : Unsent s k s') (hw : s.mem.writer = some w)
    (hdir : s.dir = .built index) : Ahead k s s' := by
  have htables : s'.tables = s.tables := by rw [tables, tables, h.redb]
  have hcols : s.dir.columns? = some index.fields := by rw [hdir]; rfl
  refine
    { built := by rw [hcols]; rfl
      dir := h.dir
      data := by rw [htables]
      row := by rw [htables]
      schema := ?_
      operations := h.operations
      counter := h.counter
      wal := ⟨s.tables.wal, [], rfl, by rw [htables]; rfl⟩
      writer := ⟨w.fields, w.buffer, [], by rw [hw, append_nil], by rw [h.writer, hw, map_nil, append_nil], ?_⟩ }
  · have := h.schemaRead
    rw [schemaRead_of_columns hcols, schemaRead_of_columns (h.dir ▸ hcols)] at this
    exact Option.some.inj this
  · rcases h.fieldsCache with hf | ⟨hnone, hf⟩
    · rw [hf]
    · rw [hf, hnone, hw]
      rfl

theorem Store.openedSchema_cached {schema : IndexSchema} (hcols : s.dir.columns?.isSome = true)
    (hc : s.mem.schemaCache = some schema) : s.openedSchema.1 = schema := by
  obtain ⟨columns, hcols⟩ := Option.isSome_iff_exists.mp hcols
  rw [openedSchema, hcols, hc]
  rfl

theorem walInserts_append (xs ys : List (Nat × String)) (wal : ExtTreeMap Nat WalEntry) :
    walInserts (xs ++ ys) wal = walInserts ys (walInserts xs wal) := foldl_append

namespace Ahead

theorem built' (h : Ahead k s s') : s'.dir.columns?.isSome = true := h.dir ▸ h.built

theorem readied (h : Ahead k s s') (fields : SchemaFields) : Ahead k (s.readied fields) (s'.readied fields) :=
  { h with
    schema := by
      rw [openedSchema_cached (s := s.readied fields) h.built rfl,
        openedSchema_cached (s := s'.readied fields) h.built' rfl, h.schema]
    writer := by
      obtain ⟨columns, old, new, hw, hw', -⟩ := h.writer
      exact ⟨columns, old, new, hw, hw', rfl⟩ }

theorem reserved (h : Ahead k s s') (last n : Nat) : Ahead k (s.reserved last n) (s'.reserved (last + k) n) :=
  { h with counter := congrArg some (Nat.add_right_comm last k n) }

/-- Two batches alike but for their numbers. -/
theorem written (h : Ahead k s s') {w w' : Writer} (hw : s.mem.writer = some w) (hw' : s'.mem.writer = some w')
    {schema : IndexSchema}
    (hc : s.mem.schemaCache = some schema) (hc' : s'.mem.schemaCache = some schema) (last n : Nat)
    (evolved : Option IndexSchema) (prepared : List PreparedOp) :
    Ahead k (s.written env w last n evolved prepared)
    (s'.written env w' (last + k) n evolved (prepared.map (PreparedOp.ahead k))) := by
  have htables : (s.written env w last n evolved prepared).tables = s.tables.run (batchTxn evolved prepared) :=
    s.tables_committed env last n evolved prepared
  have htables' : (s'.written env w' (last + k) n evolved (prepared.map (PreparedOp.ahead k))).tables =
      s'.tables.run (batchTxn evolved (prepared.map (PreparedOp.ahead k))) :=
        s'.tables_committed env (last + k) n evolved _
  obtain ⟨now, hnow⟩ : ∃ now, evolved.or (some schema) = some now := by cases evolved <;> exact ⟨_, rfl⟩
  refine
    { built := h.built
      dir := h.dir
      data := ?_
      row := ?_
      schema := ?_
      operations := ?_
      counter := congrArg some (Nat.add_right_comm last k n)
      wal := ?_
      writer := ?_ }
  · rw [htables, htables', batchTxn_data, batchTxn_data, writeRow_ahead, h.data]
  · rw [htables, htables', batchTxn_schema, batchTxn_schema, h.row]
  · have hleft : (s.written env w last n evolved prepared).openedSchema.1 = now :=
      openedSchema_cached h.built ((congrArg evolved.or hc).trans hnow)
    have hright : (s'.written env w' (last + k) n evolved (prepared.map (PreparedOp.ahead k))).openedSchema.1 = now :=
      openedSchema_cached h.built' ((congrArg evolved.or hc').trans hnow)
    rw [hleft, hright]
  · show s'.mem.operations + (prepared.map (PreparedOp.ahead k)).length = s.mem.operations + prepared.length
    rw [h.operations, length_map]
  · obtain ⟨old, new, hwal, hwal'⟩ := h.wal
    refine ⟨old, new ++ prepared.map PreparedOp.logged, ?_, ?_⟩
    · rw [htables, batchTxn_run, hwal, walInserts_append]
    · rw [htables', batchTxn_run, hwal', map_append, walInserts_append, map_map, map_map]
      rfl
  · obtain ⟨fields, old, new, hold, hold', hcols⟩ := h.writer
    rw [hw, Option.some.injEq] at hold
    rw [hw', Option.some.injEq] at hold'
    subst hold hold'
    refine ⟨fields, old, new ++ (finalOps s.tables.data prepared []).flatMap FinalEntry.edits, ?_, ?_, hcols⟩
    · show some (Writer.mk fields (old ++ new ++ _)) = _
      rw [append_assoc]
    · show some (Writer.mk fields (old ++ new.map (aheadEdit k) ++
        (finalOps s'.tables.data (prepared.map (PreparedOp.ahead k)) []).flatMap FinalEntry.edits)) = _
      rw [h.data, map_append, ← edits_ahead, ← finalOps_ahead, append_assoc]
      rfl

/-- A batch does the same to both, its numbers apart: it is accepted by both or refused by both for the same reason. -/
theorem applyBatch (h : Ahead k s s') (ops : List WalOp) :
    (applyBatch env ops [] s').outcome = aheadOutcome k (CameoDb.applyBatch env ops [] s).outcome ∧
      Ahead k (CameoDb.applyBatch env ops [] s).state (CameoDb.applyBatch env ops [] s').state := by
  by_cases hops : ops = []
  · subst hops
    exact ⟨rfl, h⟩
  · obtain ⟨fields, old, new, hw, hw', hcols⟩ := id h.writer
    rw [applyBatch_open hw h.built hops, applyBatch_open hw' h.built' hops, h.schema]
    by_cases hdropped : s.openedSchema.1.state = .dropped
    · rw [if_pos hdropped, if_pos hdropped]
      exact ⟨rfl, h⟩
    · rw [if_neg hdropped, if_neg hdropped]
      dsimp only
      rw [hcols]
      generalize s.mem.fieldsCache.getD fields = columns
      have h₁ := h.readied columns
      have hc : (s.readied columns).mem.schemaCache = some s.openedSchema.1 := rfl
      have hc' : (s'.readied columns).mem.schemaCache = some s.openedSchema.1 := congrArg some h.schema
      rw [applyOpened_open (s := s.readied columns) hw hc, applyOpened_open (s := s'.readied columns) hw' hc',
        show (s'.readied columns).mem.currentSeq = s.mem.currentSeq.map (· + k) from h.counter,
        show (s.readied columns).mem.currentSeq = s.mem.currentSeq from rfl]
      cases s.mem.currentSeq with
      | none => exact ⟨rfl, h₁⟩
      | some last =>
        dsimp only [Option.map_some]
        rw [Nat.add_right_comm, prepareOps_ahead]
        cases prepareOps env columns s.openedSchema.1 ops (last + 1) with
        | error e => exact ⟨rfl, h₁.reserved last ops.length⟩
        | ok prepared =>
          refine ⟨?_, h₁.written hw hw' hc hc' last ops.length _ prepared⟩
          dsimp only [Except.map, aheadOutcome]
          rw [show (s'.readied columns).tables.data = s.tables.data from h.data,
            show (s.readied columns).tables.data = s.tables.data from rfl, map_map, map_map,
            show finalOps s.tables.data (prepared.map (PreparedOp.ahead k)) [] =
              (finalOps s.tables.data prepared []).map (FinalEntry.ahead k) from finalOps_ahead k _ prepared [],
                newDocumentsCount_ahead]
          rfl

end Ahead

/-- The outcomes of later batches when nothing fails, and the state they leave. -/
def laterRuns (env : Env) : Store → List (List WalOp) → List (Outcome StoreError (List Nat × Nat)) × Store
  | s, [] => ([], s)
  | s, ops :: later =>
    let r := applyBatch env ops [] s
    let rest := laterRuns env r.state later
    (r.outcome :: rest.1, rest.2)

theorem Ahead.laterRuns (h : Ahead k s s') (later : List (List WalOp)) :
    (laterRuns env s' later).1 = (CameoDb.laterRuns env s later).1.map (aheadOutcome k) ∧
      Ahead k (CameoDb.laterRuns env s later).2 (CameoDb.laterRuns env s' later).2 := by
  induction later generalizing s s' with
  | nil => exact ⟨rfl, h⟩
  | cons ops later ih =>
    obtain ⟨houtcome, hnext⟩ := @Ahead.applyBatch env k s s' h ops
    obtain ⟨hrest, hlast⟩ := ih hnext
    exact ⟨congrArg₂ cons houtcome hrest, hlast⟩

/-- Whatever fails meanwhile, accepted batches leave the rows and the schema, and return the counts, that follow
    from the rows and the schema they started from. -/
theorem AcceptedRun.alike {later : List (List WalOp)} {rs rs' : List (List Nat × Nat)} {t t' : Store}
    (h : AcceptedRun env s later rs t)
    (h' : AcceptedRun env s' later rs' t') (hs : s.mem.writer.isSome = true → s.dir.columns?.isSome = true)
    (hs' : s'.mem.writer.isSome = true → s'.dir.columns?.isSome = true) (hdata : s'.tables.data = s.tables.data)
    (hschema : s'.openedSchema = s.openedSchema) :
    t'.tables.data = t.tables.data ∧ t'.openedSchema = t.openedSchema ∧ rs'.map Prod.snd = rs.map Prod.snd := by
  induction h generalizing s' rs' with
  | nil s =>
    cases h'
    exact ⟨hdata, hschema, rfl⟩
  | @cons s s₁ t ops later fates rest r rs first more ih =>
    rcases h' with _ | ⟨first', more'⟩
    by_cases hops : ops = []
    · subst hops
      cases first
      cases first'
      obtain ⟨hd, hc, hr⟩ := ih more' hs hs' hdata hschema
      exact ⟨hd, hc, congrArg (0 :: ·) hr⟩
    · obtain ⟨fields, last, prepared, happlied⟩ := applyBatch_applied hs hops first
      obtain ⟨fields', last', prepared', happlied'⟩ := applyBatch_applied hs' hops first'
      have hholds := happlied'.schema
      rw [hschema] at hholds
      obtain ⟨hd, hc, hr⟩ := ih more' (fun _ => happlied.schema.built) (fun _ => hholds.built)
        (by rw [happlied'.rows, happlied.rows, prepareOps_rows happlied'.prepare, prepareOps_rows happlied.prepare,
              hschema, hdata])
        (hholds.openedSchema.trans happlied.schema.openedSchema.symm)
      refine ⟨hd, hc, ?_⟩
      rw [map_cons, map_cons, hr, happlied'.result, happlied.result]
      dsimp only
      rw [newDocumentsCount_finalOps happlied'.prepare, newDocumentsCount_finalOps happlied.prepare, hdata]

end Later

/-- A batch that fails on an open index before its redb commit returns leaves the tables, the index, the writer's
    buffer and the count of operations as they were and a cached schema where it was. It may have taken numbers and
    filled an empty schema cache from the store. The batches after it do what they would have done without it, their
    numbers higher by those it took; and whatever fails during them, they leave the same rows and the same schema
    and return the same counts. -/
theorem refused_batch_unsent (env : Env) (s s' : Store) (w : Writer) (index : TantivyIndex) (ops : List WalOp)
    (fates rest : List Fate)
    (e : StoreError) (hw : s.mem.writer = some w) (hdir : s.dir = .built index) (hops : ops ≠ [])
    (h : commitBatch env ops fates s = ⟨.error e, rest, s'⟩) :
    applyBatch env ops fates s = ⟨.error e, rest, s'⟩ ∧
      ∃ k ≤ ops.length, Unsent s k s' ∧
        (∀ later, (laterRuns env s' later).1 = (laterRuns env s later).1.map (aheadOutcome k) ∧
          Ahead k (laterRuns env s later).2 (laterRuns env s' later).2) ∧
        ∀ later rs rs' t t', AcceptedRun env s later rs t → AcceptedRun env s' later rs' t' →
          t'.tables.data = t.tables.data ∧ t'.openedSchema = t.openedSchema ∧ rs'.map Prod.snd = rs.map Prod.snd := by
  obtain ⟨k, hk, hunsent⟩ := (wp_commitBatch_unsent hw hdir ops).of_error h
  have hahead := hunsent.ahead hw hdir
  have hcols : s.dir.columns? = some index.fields := by rw [hdir]; rfl
  have hopened : s'.openedSchema = s.openedSchema := by
    refine Prod.ext hahead.schema ?_
    rw [openedSchema, openedSchema, hahead.dir, hcols]
    exact hahead.row
  refine ⟨?_, k, hk, hunsent, fun later => hahead.laterRuns later, fun later rs rs' t t' hrun hrun' => ?_⟩
  · rw [applyBatch_eq_commitBatch env hops, Prog.bind_apply, h]
  · exact hrun.alike hrun' (fun _ => hahead.built) (fun _ => hahead.built') hahead.data hopened

/-! ### A shelf that is not a path -/

def shelvedSchema : IndexSchema :=
  { IndexSchema.default with fields := (∅ : ExtTreeMap String FieldDef).insert "shelf" (.new "shelf" .facet) }

/-- The index of that schema, open after one document. -/
def shelvedStore : Store := (applyBatch plainEnv [.put "a" none] [] (initial (some shelvedSchema))).state

/-- A text the column does not take. -/
def misfiled : List WalOp := [.put "b" (some (.object [("shelf", .string "books")]))]

theorem refused_batch_unsent_misfiled :
    ∃ s', applyBatch plainEnv misfiled [] shelvedStore =
        ⟨.error (.invalidFieldValue "shelf" (badFacetPath "books")),
        (commitBatch plainEnv misfiled [] shelvedStore).fates, s'⟩ ∧ ∃ k, Unsent shelvedStore k s' ∧
        (laterRuns plainEnv s' [[.put "c" none]]).1 = (laterRuns plainEnv shelvedStore [[.put "c" none]]).1.map
        (aheadOutcome k) := by
  obtain ⟨w, hw⟩ : ∃ w, shelvedStore.mem.writer = some w := Option.isSome_iff_exists.mp (by decide +kernel)
  obtain ⟨columns, hcols⟩ : ∃ columns, shelvedStore.dir.columns? = some columns :=
    Option.isSome_iff_exists.mp (by decide +kernel)
  obtain ⟨index, hdir⟩ := IndexDir.built_of_columns? hcols
  have herror : (commitBatch plainEnv misfiled [] shelvedStore).outcome =
    .error (.invalidFieldValue "shelf" (badFacetPath "books")) :=
    Outcome.error?_eq_some (by decide +kernel)
  obtain ⟨happly, k, -, hunsent, hlater, -⟩ := refused_batch_unsent plainEnv shelvedStore
    (commitBatch plainEnv misfiled [] shelvedStore).state w index misfiled []
      (commitBatch plainEnv misfiled [] shelvedStore).fates _ hw hdir
    nofun (by rw [← herror])
  exact ⟨_, happly, k, hunsent, (hlater _).1⟩

def invalidateSchemaCache : StoreM Unit :=
  Prog.modify (·.setMem fun m => { m with schemaCache := none, fieldsCache := none })

/-- After the cached schema was removed, the batch that is refused puts it back. -/
theorem refused_batch_fills_cache :
    let s := (invalidateSchemaCache [] shelvedStore).state
    let r := commitBatch plainEnv misfiled [] s
    s.mem.writer.isSome = true ∧ s.dir.columns?.isSome = true ∧ s.mem.schemaCache = none ∧
      r.outcome.error? = some (.invalidFieldValue "shelf" (badFacetPath "books")) ∧
        r.state.mem.schemaCache.isSome = true := by
  refine ⟨?_, ?_, ?_, ?_, ?_⟩ <;> decide +kernel

end CameoDb
