import CameoDb.Storage.Tables
import CameoDb.Lib.Crash

/-! # One index of a store

Every call of redb, Tantivy and the file system is a step that can fail or be where the process stops. -/

namespace CameoDb
open Std Crash

structure StorageConfig where
  walSync : Bool
  defaultBatchSize : Nat

/-- What the programs of one index read and never change: the configuration, the parsers, the index's name. -/
structure Env where
  config : StorageConfig
  parsers : Parsers
  index : String

structure Writer where
  fields : SchemaFields
  buffer : Buffer
  deriving DecidableEq

/-- The caches a store keeps for one index. -/
structure Memory where
  writer : Option Writer
  fieldsCache : Option SchemaFields
  currentSeq : Option Nat
  operations : Nat
  schemaCache : Option IndexSchema
  deriving DecidableEq

def Memory.empty : Memory := ⟨none, none, none, 0, none⟩

structure Store where
  redb : Db Txn
  dir : IndexDir
  mem : Memory

abbrev StoreM := Prog Store StoreError

namespace Store

/-- The tables as a transaction opened now reads them. -/
def tables (s : Store) : Tables := Tables.after s.redb.all

def setMem (s : Store) (f : Memory → Memory) : Store := { s with mem := f s.mem }

def setDir (s : Store) (dir : IndexDir) : Store := { s with dir := dir }

def crash (s : Store) (kept : Nat) : Store := ⟨s.redb.crash kept, s.dir, Memory.empty⟩

end Store

/-! ### redb transactions -/

def beginRead : StoreM Tables := do
  Prog.touch .redb
  Prog.gets Store.tables

def commitTxn (immediate : Bool) (txn : Txn) : StoreM Unit :=
  Prog.step .redb fun s => { s with redb := s.redb.commit immediate txn }

/-- Makes every redb commit so far durable, ahead of a Tantivy commit that may cite it. -/
def durabilityBarrier (env : Env) : StoreM Unit :=
  if env.config.walSync then pure () else commitTxn true []

def storeSchema (schema : IndexSchema) : StoreM Unit := commitTxn true [.schemaInsert schema]

/-- Records `seq` as committed in Tantivy and drops the WAL entries it covers, in one durable transaction. -/
def checkpointCommitted (seq : Nat) : StoreM Unit :=
  if seq = 0 then pure () else commitTxn true [.walTruncate seq, .metaInsert seq]

/-! ### Schemas -/

def mergeDerived (stored : Option IndexSchema) (fields : SchemaFields) : IndexSchema :=
  let derived := deriveFieldsFromTantivy fields
  match stored with
  | some stored => if derived.isEmpty then stored else { stored with fields := derived ∪ stored.fields }
  | none => { IndexSchema.default with fields := derived }

def cacheSchema (schema : IndexSchema) : StoreM Unit :=
  Prog.modify (·.setMem fun m => { m with schemaCache := some schema })

def getSchemaCached : StoreM (Option IndexSchema) := do
  let mem ← Prog.gets Store.mem
  match mem.schemaCache with
  | some schema => pure (some schema)
  | none =>
    let t ← beginRead
    let dir ← Prog.gets Store.dir
    match dir with
    | .absent =>
      match t.schema with
      | some stored => do
        cacheSchema stored
        pure (some stored)
      | none => pure none
    -- A directory without `meta.json` does not open.
    | .bare => Prog.throw .tantivy
    | .built index => do
      Prog.touch .tantivy
      cacheSchema (mergeDerived t.schema index.fields)
      pure (some (mergeDerived t.schema index.fields))

/-! ### Recovery -/

/-- The sequence Tantivy is known to hold everything up to: the higher of the stamped and the persisted one, and on an
    index with neither the highest `_seq` a scan finds, which is then recorded. -/
def checkpointSeq (index : TantivyIndex) : StoreM Nat := do
  let t ← beginRead
  match (index.checkpointSeq.toList ++ t.recoveryMeta.toList).max? with
  | some seq => pure seq
  | none =>
    if index.fields.seq = false then pure 0
    else if index.highestIndexedSeq = 0 then pure 0
    else do
      let _ ← Prog.attempt (commitTxn true [.metaInsert index.highestIndexedSeq])
      pure index.highestIndexedSeq

def recoveryCommitThreshold (env : Env) : Nat := max (max env.config.defaultBatchSize 1 * 10) 25000

def commitWriter (buffer : Buffer) (seq : Option Nat) : StoreM Unit :=
  Prog.step .tantivy fun s =>
    match s.dir with
    | .built index => s.setDir (.built (index.commit buffer (seq.map encodeCheckpointPayload)))
    | _ => s

structure Replay where
  buffer : Buffer
  applied : List String
  replayed : Nat
  sinceCommit : Nat

section Recover
variable (env : Env)

/-- The edits that bring one id to the row redb has for it. -/
def replayId (fields : SchemaFields) (schema : IndexSchema) (t : Tables) (id : String) (seq : Nat) : StoreM Buffer :=
  match t.data[id]? with
  | some body => do
    let doc ← Prog.ofExcept (fields.document env.parsers schema id seq body .skipAndWarn)
    -- `delete_term` cannot fail; `add_document` can.
    Prog.touch .tantivy
    pure [.deleteTerm id, .add doc]
  | none => pure [.deleteTerm id]

/-- Applies each id of the tail once, committing whenever enough entries have gone by. -/
def replayEntries (fields : SchemaFields) (schema : IndexSchema) (t : Tables) :
    List (Nat × WalEntry) → Replay → StoreM Replay
  | [], r => pure r
  | (seq, entry) :: rest, r =>
    if decodeWalEntry entry ∈ r.applied then
      replayEntries fields schema t rest { r with replayed := r.replayed + 1, sinceCommit := r.sinceCommit + 1 }
    else do
      let edits ← replayId env fields schema t (decodeWalEntry entry) seq
      if recoveryCommitThreshold env ≤ r.sinceCommit + 1 then do
        durabilityBarrier env
        commitWriter (r.buffer ++ edits) (some seq)
        replayEntries fields schema t rest ⟨[], decodeWalEntry entry :: r.applied, r.replayed + 1, 0⟩
      else
        replayEntries fields schema t rest
          ⟨r.buffer ++ edits, decodeWalEntry entry :: r.applied, r.replayed + 1, r.sinceCommit + 1⟩

/-- What `recover_index` returns, with what it left in the writer's buffer. -/
structure Recovery where
  replayed : Nat
  maxWalSeq : Nat
  checkpoint : Nat
  buffer : Buffer

def addOperations (n : Nat) : StoreM Unit :=
  Prog.modify (·.setMem fun m => { m with operations := m.operations + n })

def Tables.walRange (t : Tables) (above upTo : Nat) : List (Nat × WalEntry) :=
  t.wal.toList.filter fun entry => above < entry.1 && entry.1 ≤ upTo

/-- Replays into Tantivy the writes redb has committed but Tantivy has not. -/
def recoverIndex (index : TantivyIndex) : StoreM Recovery := do
  let t ← beginRead
  let checkpoint ← checkpointSeq index
  if t.maxWalSeq = 0 then pure ⟨0, 0, checkpoint, []⟩
  else if t.maxWalSeq ≤ checkpoint then do
    -- Finish the truncation the commit that indexed these entries did not get to.
    let _ ← Prog.attempt (checkpointCommitted checkpoint)
    pure ⟨0, t.maxWalSeq, checkpoint, []⟩
  else do
    let snapshot ← beginRead
    let schema ← getSchemaCached
    let r ← replayEntries env index.fields (schema.getD .default) snapshot
      (snapshot.walRange checkpoint t.maxWalSeq) ⟨[], [], 0, 0⟩
    if 0 < r.sinceCommit then do
      addOperations r.sinceCommit
      pure ⟨r.replayed, t.maxWalSeq, checkpoint, r.buffer⟩
    else pure ⟨r.replayed, t.maxWalSeq, checkpoint, r.buffer⟩

/-! ### Opening and committing -/

/-- Where the sequence counter starts: at what `recover_index` read, unless that is `u64::MAX`. -/
def seedSeq (r : Recovery) : Nat :=
  if max r.maxWalSeq r.checkpoint = u64Limit - 1 then 0 else max r.maxWalSeq r.checkpoint

def openWriter (index : TantivyIndex) : StoreM SchemaFields := do
  Prog.touch .tantivy
  let r ← recoverIndex env index
  Prog.modify (·.setMem fun m =>
    { m with writer := some ⟨index.fields, r.buffer⟩, fieldsCache := some index.fields,
             currentSeq := some (m.currentSeq.getD (seedSeq r)) })
  pure index.fields

/-- The definition of `id` a schema gets when its index is built. -/
def syncedId : FieldDef where
  name := "id"
  fieldType := .text
  indexed := true
  stored := true
  fast := some true
  isShadow := false
  description := none
  tokenizer := some "raw"
  indexRecordOption := some "Basic"
  learned := false
  ghost := none

def IndexSchema.withId (schema : IndexSchema) : IndexSchema :=
  { schema with fields := schema.fields.insert "id" syncedId }

def createIndex (schema : IndexSchema) : StoreM TantivyIndex := do
  Prog.step .io (·.setDir .bare)
  Prog.step .tantivy (·.setDir (.built ⟨createSchemaFromDefinition schema, [], none⟩))
  let current ← getSchemaCached
  if (current.getD schema).fields.contains "id" then pure ⟨createSchemaFromDefinition schema, [], none⟩
  else do
    storeSchema (current.getD schema).withId
    cacheSchema (current.getD schema).withId
    pure ⟨createSchemaFromDefinition schema, [], none⟩

def getOrCreateIndex : StoreM SchemaFields := do
  let mem ← Prog.gets Store.mem
  match mem.writer with
  | some writer =>
    match mem.fieldsCache with
    | some fields => pure fields
    -- Storing a schema evicts the field handles without the writer; the writer's own index has them.
    | none => do
      Prog.modify (·.setMem fun m => { m with fieldsCache := some writer.fields })
      pure writer.fields
  | none => do
    let schema ← getSchemaCached
    let dir ← Prog.gets Store.dir
    match dir with
    | .built index => do
      Prog.touch .tantivy
      openWriter env index
    | _ => do
      let index ← createIndex (schema.getD .default)
      openWriter env index

/-- Drops a writer that died, and opens the index again in up to `attempts` tries. -/
def reopenAttempts : Nat → StoreM Unit
  | 0 => Prog.throw .tantivy
  | 1 => do
    let _ ← getOrCreateIndex env
    pure ()
  | attempts + 2 => do
    let opened ← Prog.attempt (getOrCreateIndex env)
    match opened with
    | .ok _ => pure ()
    | .error _ => reopenAttempts (attempts + 1)

def forceRemoveWriter : StoreM Unit := Prog.modify (·.setMem fun m => { m with writer := none })

def reopenAfterDeadWriter : StoreM Unit := do
  forceRemoveWriter
  reopenAttempts env 3

/-- Commits a writer, stamping the sequence counter as it stands; what it held is then published. -/
def commitLockedWriter (writer : Writer) : StoreM (Option Nat) := do
  let mem ← Prog.gets Store.mem
  durabilityBarrier env
  commitWriter writer.buffer mem.currentSeq
  Prog.modify (·.setMem fun m => { m with writer := some ⟨writer.fields, []⟩ })
  pure mem.currentSeq

def resetOperationsCounter : StoreM Unit := Prog.modify (·.setMem fun m => { m with operations := 0 })

/-- Records a commit's sequence as durable, and only then zeroes the pending count. -/
def checkpointAfterCommit : Option Nat → StoreM Unit
  | some seq => do
    checkpointCommitted seq
    resetOperationsCounter
  | none => resetOperationsCounter

def commitOpenWriter (writer : Writer) : StoreM Unit := do
  let committed ← Prog.attempt (commitLockedWriter env writer)
  match committed with
  | .ok seq => checkpointAfterCommit seq
  | .error e => do
    -- A failed commit leaves a writer Tantivy does not promise is usable.
    let _ ← Prog.attempt (reopenAfterDeadWriter env)
    Prog.throw e

def commitIndex : StoreM Unit := do
  let mem ← Prog.gets Store.mem
  if mem.operations = 0 then pure ()
  else
    match mem.writer with
    | some writer => commitOpenWriter env writer
    | none => do
      -- Pending operations with no writer: opening the index replays them.
      let _ ← getOrCreateIndex env
      let opened ← Prog.gets Store.mem
      match opened.writer with
      | some writer => commitOpenWriter env writer
      | none => Prog.throw .tantivy

def dropIndexCaches : StoreM Unit := Prog.modify (·.setMem fun _ => Memory.empty)

/-- Commits what the index holds and drops its caches, also when the commit fails. -/
def closeIndex : StoreM Unit := do
  let mem ← Prog.gets Store.mem
  match mem.writer with
  | none => dropIndexCaches
  | some writer =>
    if mem.operations = 0 then dropIndexCaches
    else do
      let _ ← Prog.attempt (do
        let seq ← commitLockedWriter env writer
        checkpointAfterCommit seq)
      dropIndexCaches

end Recover

/-! ### Writing a batch -/

/-- Whether this shard knows the index, without opening or creating anything. -/
def indexExists : StoreM Bool := do
  let mem ← Prog.gets Store.mem
  match mem.schemaCache with
  | some schema => pure (schema.state = .active)
  | none =>
    if mem.writer.isSome then pure true
    else do
      let read ← Prog.attempt beginRead
      match read with
      | .ok t => pure (t.schema.any (·.state = .active))
      | .error _ => pure false

def indexWasDropped : StoreM Bool := do
  let mem ← Prog.gets Store.mem
  match mem.schemaCache with
  | some schema => pure (schema.state = .dropped)
  | none => do
    let read ← Prog.attempt beginRead
    match read with
    | .ok t => pure (t.schema.any (·.state = .dropped))
    | .error _ => pure false

/-- What the redb transaction and the Tantivy pass do for one operation. -/
inductive PreparedKind where
  | put (row : Option JsonValue) (doc : TantivyDocument)
  | delete

structure PreparedOp where
  seq : Nat
  id : String
  kind : PreparedKind

def PreparedOp.writes (op : PreparedOp) : List TableWrite :=
  match op.kind with
  | .put row _ => [.walInsert op.seq (.idOnly op.id), .dataInsert op.id row]
  | .delete => [.walInsert op.seq (.idOnly op.id), .dataRemove op.id]

/-- One distinct id of a batch: whether redb held a row for it before the batch, and the last operation on it, a
    document to add or none for a delete. -/
structure FinalEntry where
  id : String
  existedBefore : Bool
  op : Option TantivyDocument

def recordFinal (finals : List FinalEntry) (id : String) (touched : Bool) (op : Option TantivyDocument) :
    List FinalEntry :=
  if finals.any (·.id = id) then finals.map fun e => if e.id = id then { e with op := op } else e
  else finals ++ [⟨id, touched, op⟩]

/-- The final operation per id, as the transaction's table writes decide it one by one. -/
def finalOps (data : ExtTreeMap String (Option JsonValue)) : List PreparedOp → List FinalEntry → List FinalEntry
  | [], finals => finals
  | op :: rest, finals =>
    match op.kind with
    | .put row doc =>
      finalOps (data.insert op.id row) rest (recordFinal finals op.id (data.contains op.id) (some doc))
    | .delete => finalOps (data.erase op.id) rest (recordFinal finals op.id (data.contains op.id) none)

section Batch
variable (env : Env)

/-- Everything of one operation that is not redb: the filtered body and the document. -/
def prepareOp (fields : SchemaFields) (schema : IndexSchema) (op : WalOp) (seq : Nat) :
    Except StoreError PreparedOp :=
  match op with
  | .put id blob =>
    let row := if schema.hasShadowFields || schema.hasGhostFields then blob.map (filterUnstoredFieldsOwned schema)
      else blob
    (fields.document env.parsers schema id seq row .refuse).map fun doc => ⟨seq, id, .put row doc⟩
  | .delete id => .ok ⟨seq, id, .delete⟩

def prepareOps (fields : SchemaFields) (schema : IndexSchema) : List WalOp → Nat → Except StoreError (List PreparedOp)
  | [], _ => .ok []
  | op :: rest, seq =>
    match prepareOp env fields schema op seq with
    | .error e => .error e
    | .ok prepared => (prepareOps fields schema rest (seq + 1)).map (prepared :: ·)

def bringsNewField (schema : IndexSchema) (ops : List WalOp) : Bool :=
  ops.any fun op =>
    match op with
    | .put _ (some (.object members)) => members.any fun m => !schema.fields.contains m.1
    | _ => false

/-- The schema after every put of a batch has taught it its fields, and the names of those that changed. -/
def evolveBatch : IndexSchema → List WalOp → IndexSchema × List String
  | schema, [] => (schema, [])
  | schema, .put _ (some blob) :: rest =>
    let (evolved, names) := schema.evolveFromDocument env.parsers blob
    let (final, more) := evolveBatch evolved rest
    (final, names ++ more)
  | schema, _ :: rest => evolveBatch schema rest

def evolvedSchema (schema : IndexSchema) (ops : List WalOp) : StoreM (Option IndexSchema) :=
  if bringsNewField schema ops then do
    let current ← getSchemaCached
    let evolved := evolveBatch env (current.getD schema) ops
    pure (if evolved.2 = [] then none else some evolved.1)
  else pure none

/-- Takes the next `n` sequence numbers and returns the first. -/
def reserveSeqs (n : Nat) : StoreM Nat := do
  let mem ← Prog.gets Store.mem
  match mem.currentSeq with
  | none => Prog.throw (.indexNotFound ("Sequence counter not found for index: " ++ env.index))
  | some last => do
    Prog.modify (·.setMem fun m => { m with currentSeq := some (last + n) })
    pure (last + 1)

def bufferEdit (edit : Edit String TantivyDocument) (s : Store) : Store :=
  s.setMem fun m => { m with writer := m.writer.map fun w => { w with buffer := w.buffer ++ [edit] } }

/-- Applies the final operation per id to the writer, until an add finds it dead. Whether it died. -/
def tantivyPass : List FinalEntry → StoreM Bool
  | [] => pure false
  | e :: rest => do
    -- A version to remove: one this batch replaces, or one it deletes.
    Prog.modify fun s => if e.existedBefore || e.op.isNone then bufferEdit (.deleteTerm e.id) s else s
    match e.op with
    | none => tantivyPass rest
    | some doc => do
      let added ← Prog.attempt (Prog.step .tantivy (bufferEdit (.add doc)))
      match added with
      | .ok _ => tantivyPass rest
      | .error _ => pure true

def newDocumentsCount (finals : List FinalEntry) : Nat :=
  (finals.filter fun e => e.op.isSome && !e.existedBefore).length

def indexBatch (prepared : List PreparedOp) (finals : List FinalEntry) : StoreM (List Nat × Nat) := do
  let died ← tantivyPass finals
  if died then do
    -- The batch is durable in redb, so it is written: reopening the index replays it.
    reopenAfterDeadWriter env
    pure (prepared.map (·.seq), newDocumentsCount finals)
  else do
    addOperations prepared.length
    pure (prepared.map (·.seq), newDocumentsCount finals)

def batchTxn (evolved : Option IndexSchema) (prepared : List PreparedOp) : Txn :=
  evolved.toList.map .schemaInsert ++ prepared.flatMap PreparedOp.writes

def writeBatch (evolved : Option IndexSchema) (prepared : List PreparedOp) : StoreM (List Nat × Nat) := do
  let t ← Prog.gets Store.tables
  -- A batch that evolves the schema commits durably whatever `wal_sync` says.
  commitTxn (env.config.walSync || evolved.isSome) (batchTxn evolved prepared)
  Prog.modify (·.setMem fun m => { m with schemaCache := evolved.or m.schemaCache })
  indexBatch env prepared (finalOps t.data prepared [])

def admitBatch (ops : List WalOp) : StoreM Unit := do
  let missing ← (if ops.all WalOp.isDelete then do
      let exists_ ← indexExists
      pure (!exists_)
    else pure false : StoreM Bool)
  if missing then Prog.throw (.indexNotFound env.index)
  else do
    let dropped ← indexWasDropped
    if dropped then Prog.throw (.indexNotFound env.index) else pure ()

def applyOpened (ops : List WalOp) (fields : SchemaFields) (schema : IndexSchema) : StoreM (List Nat × Nat) := do
  let evolved ← evolvedSchema env schema ops
  let start ← reserveSeqs env ops.length
  let prepared ← Prog.ofExcept (prepareOps env fields schema ops start)
  writeBatch env evolved prepared

def openForWrite : StoreM (SchemaFields × IndexSchema) := do
  let fields ← getOrCreateIndex env
  let cached ← getSchemaCached
  pure (fields, cached.getD .default)

/-- Applies a batch: one redb transaction for all of it, then one Tantivy edit per id. The sequences given to its
    operations and how many documents were new. -/
def applyBatch (ops : List WalOp) : StoreM (List Nat × Nat) :=
  if ops = [] then pure ([], 0)
  else do
    admitBatch env ops
    let opened ← openForWrite env
    applyOpened env ops opened.1 opened.2

end Batch

/-! ### Dropping an index -/

def tombstone (previous : IndexSchema) : IndexSchema :=
  { IndexSchema.default with state := .dropped, version := min (previous.version + 1) (u64Limit - 1) }

/-- Removes a directory: its files, `meta.json` among them, and then the directory itself. -/
def removeDirAll : StoreM Unit := do
  Prog.step .io (·.setDir .bare)
  Prog.step .io (·.setDir .absent)

def dropTxn (record : Option IndexSchema) : Txn :=
  [.deleteDataTable, .deleteWalTable, .metaRemove] ++ record.toList.map .schemaInsert

/-- Deletes everything redb holds of the index in one durable transaction, then its Tantivy directory. -/
def deleteIndexData (deleteSchema : Bool) : StoreM Unit := do
  dropIndexCaches
  let t ← Prog.gets Store.tables
  let record := if deleteSchema then t.schema.map tombstone else none
  commitTxn true (dropTxn record)
  Prog.modify (·.setMem fun m => { m with schemaCache := record })
  let dir ← Prog.gets Store.dir
  if dir = .absent then pure () else removeDirAll

def storeSchemaAndCache (schema : IndexSchema) : StoreM Unit := do
  storeSchema schema
  Prog.modify (·.setMem fun m => { m with schemaCache := some schema, fieldsCache := none })

/-! ### Runs -/

inductive Call where
  | applyBatch (ops : List WalOp)
  | commitIndex
  | closeIndex
  | openIndex
  | forceRemoveWriter
  | reopenAfterDeadWriter

def Call.prog (env : Env) : Call → StoreM Unit
  | applyBatch ops => do
    let _ ← CameoDb.applyBatch env ops
    pure ()
  | commitIndex => CameoDb.commitIndex env
  | closeIndex => CameoDb.closeIndex env
  | openIndex => do
    let _ ← getOrCreateIndex env
    pure ()
  | forceRemoveWriter => CameoDb.forceRemoveWriter
  | reopenAfterDeadWriter => CameoDb.reopenAfterDeadWriter env

/-- The sequence numbers a call may use up. -/
def Call.size : Call → Nat
  | applyBatch ops => ops.length
  | _ => 0

/-- One event of a run: a call with what becomes of its steps and, should one of them be where the process stops, how
    many redb transactions the crash keeps; or a crash between two calls. -/
inductive Event where
  | call (call : Call) (fates : List Fate) (kept : Nat)
  | crash (kept : Nat)

def Event.size : Event → Nat
  | call c _ _ => c.size
  | crash _ => 0

def afterCall {α : Type} (kept : Nat) (r : Result Store StoreError α) : Store :=
  match r.outcome with
  | .crashed => r.state.crash kept
  | _ => r.state

def Event.next (env : Env) (s : Store) : Event → Store
  | call c fates kept => afterCall kept (c.prog env fates s)
  | crash kept => s.crash kept

def runEvents (env : Env) (s : Store) (events : List Event) : Store := events.foldl (Event.next env) s

def Store.initial (schema : Option IndexSchema) : Store :=
  ⟨⟨schema.toList.map fun s => [.schemaInsert s], []⟩, .absent, Memory.empty⟩

end CameoDb
