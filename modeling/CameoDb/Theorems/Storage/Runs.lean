import CameoDb.Theorems.Storage.Batch
import Mathlib.Algebra.GroupWithZero.Nat

namespace CameoDb
open Std Crash Succeeds

/-! # Runs of one index

Every call keeps an index live and every crash keeps it safe, so both hold along every run; and where no step fails, an
index that can be read opens and commits. -/

section Runs
variable {env : Env} {lax : Prop} {base : List Txn} {s₀ s : Store} {lim : Nat} {indexed : FieldMap}

/-- The next comparison may start from any state. -/
theorem Disk.rebase (d : Disk env lax base s₀ lim indexed s) : Disk env lax base s lim indexed s :=
  { d with ext := Ext.refl s }

theorem Live.rebase (h : Live env lax base s₀ lim s) : Live env lax base s lim s :=
  have ⟨indexed, d, m⟩ := h
  ⟨indexed, d.rebase, m⟩

theorem Safe.crash (h : Safe env lax base s₀ lim s) (kept : Nat) :
    Live env lax base (s.crash kept) lim (s.crash kept) :=
  have ⟨indexed, d⟩ := h
  ⟨indexed, d.crash kept, MemOk.empty (s := s.crash kept)⟩

/-- A state with no rows, an empty WAL and no documents begins a run. An index that is already there may have
    columns the schema does not name. -/
theorem Live.start (hdata : s.tables.data = ∅) (hwal : s.tables.wal = ∅) (hmeta : s.tables.recoveryMeta = none)
    (hlog : logOf s.redb.all = []) (hpend : s.redb.pending = []) (hdocs : s.dir.docs = []) (hlim : s.dir.stamp ≤ lim)
    (hlax : ∀ index, s.dir = .built index → lax) (cached : Option IndexSchema)
    (hmem : s.mem = { Memory.empty with schemaCache := cached })
    (hrow : ∀ schema, cached = some schema → s.tables.schema = some schema) : Live env lax s.redb.all s lim s := by
  have hall : s.redb.all = s.redb.durable := by simp [Db.all, hpend]
  refine ⟨∅, ?_, ?_⟩
  · exact
      { base_durable := by rw [hall]
        base_data := hdata
        base_log := hlog
        txns := fun r hr => by simp [List.self_eq_append_right.mp hr]
        sorted := by simp [hlog]
        bound := by simp [hlog]
        wal := fun q hq => by
          rw [Between.eq_all hq hpend, hlog]
          refine ⟨fun seq id => ?_, ?_⟩
          · have : s.tables.wal[seq]? = none := by simp [hwal]
            simp [Store.tables] at this
            simp [this]
          · have : s.tables.persisted = 0 := by rw [Tables.persisted, hmeta]; rfl
            exact (Nat.le_of_eq this).trans (Nat.zero_le _)
        stamp_le := hlim
        above := by simp [hpend, logOf]
        synced := fun _ => hpend
        built := fun index h => by
          have hempty : index.docs = [] := by rw [h] at hdocs; exact hdocs
          refine ⟨fun _ _ => Or.inl (hlax index h), fun _ => hempty, fun id => ?_⟩
          refine ⟨s.redb.all, List.prefix_rfl, by rw [hall], by simp [← hall, hlog], ?_⟩
          have hrow : (Tables.after s.redb.all).data[id]? = none := by
            rw [show (Tables.after s.redb.all).data = ∅ from hdata]
            simp
          unfold Reflects
          rw [hrow, hempty]
          rfl
        unbuilt := fun _ => ⟨hlog, hpend⟩
        ext := Ext.refl s }
  · exact
      { cache := fun _ index _ h => Or.inl (hlax index h)
        cache_row := fun _ schema h => hrow schema (by rw [hmem] at h; exact h)
        fields := by simp [hmem, Memory.empty]
        seq := by simp [hmem, Memory.empty]
        writer := by simp [hmem, Memory.empty] }

theorem Live.initial (schema : Option IndexSchema) :
    Live env False (Store.initial schema).redb.all (Store.initial schema) 0 (Store.initial schema) := by
  cases schema <;>
    exact Live.start rfl rfl rfl rfl rfl rfl (Nat.zero_le _) (by simp [Store.initial]) none rfl (by simp)

/-- Every call keeps the index live. -/
theorem wp_call (c : Call) (hlim : lim + c.size < u64Limit - 1) (h : Live env lax base s₀ lim s) :
    wp (c.prog env)
      (orLive env lax base s₀ (lim + c.size) fun _ s' => Live env lax base s₀ (lim + c.size) s') s := by
  cases c with
  | applyBatch ops =>
    refine wp_bind (wp_imp (wp_applyBatch ops hlim h) ?_)
    exact fun _ _ h => wp_pure h
  | commitIndex => exact wp_imp (wp_commitIndex hlim h) (fun _ _ h => h.1)
  | closeIndex => exact wp_closeIndex hlim h
  | openIndex =>
    refine wp_bind (wp_imp (wp_getOrCreateIndex hlim h) ?_)
    exact fun _ _ ⟨_, h⟩ => wp_pure h.live
  | forceRemoveWriter => exact wp_modify h.dropWriter
  | reopenAfterDeadWriter => exact wp_reopenAfterDeadWriter hlim h.dropWriter

/-- What a call leaves before a crash at its last step, if there is one: new operations above the old stamp. -/
theorem call_ext (c : Call) (fates : List Fate) (hlim : lim + c.size < u64Limit - 1) (h : Live env lax base s₀ lim s) :
    Safe env lax base s₀ (lim + c.size) (c.prog env fates s).state := by
  have := wp_call c hlim h fates
  unfold Post.Holds at this
  split at this
  · exact this.safe
  · exact this.safe
  · exact this

theorem Live.next (e : Event) (hlim : lim + e.size < u64Limit - 1) (h : Live env lax base s lim s) :
    Live env lax base (e.next env s) (lim + e.size) (e.next env s) := by
  cases e with
  | crash kept => exact h.safe.crash kept
  | call c fates kept =>
    have hrun := wp_call c hlim h fates
    unfold Post.Holds at hrun
    unfold Event.next
    dsimp only
    unfold afterCall
    split
    · next hcrash =>
      rw [hcrash] at hrun
      exact hrun.crash kept
    · next hcrash =>
      split at hrun
      · exact hrun.rebase
      · exact hrun.rebase
      · next h' => exact absurd h' hcrash

/-- Every run keeps the index live. -/
theorem Live.run (events : List Event) (hlim : lim + (events.map Event.size).sum < u64Limit - 1)
    (h : Live env lax base s lim s) :
    Live env lax base (runEvents env s events) (lim + (events.map Event.size).sum) (runEvents env s events) := by
  induction events generalizing s lim with
  | nil => exact h
  | cons e rest ih =>
    simp only [List.map_cons, List.sum_cons] at hlim ⊢
    have hone := h.next e (by omega)
    have := ih (by omega) hone
    rw [Nat.add_assoc] at this
    exact this

/-! ### Without faults -/

theorem succeeds_beginRead_bind {α : Type} {f : Tables → StoreM α} (h : Succeeds (f s.tables) s) :
    Succeeds (beginRead >>= f) s := h

theorem succeeds_getSchemaCached (hdir : s.dir ≠ .bare ∨ s.mem.schemaCache ≠ none) : Succeeds getSchemaCached s := by
  refine gets_bind ?_
  cases hc : s.mem.schemaCache with
  | some schema => exact pure _
  | none =>
    refine succeeds_beginRead_bind (gets_bind ?_)
    cases hd : s.dir with
    | absent =>
      dsimp only
      split
      · exact modify_bind (pure _)
      · exact pure _
    | bare => simp [hd, hc] at hdir
    | built index => exact step_bind (modify_bind (pure _))

theorem returns_getSchemaCached (hdir : s.dir ≠ .bare ∨ s.mem.schemaCache ≠ none) :
    Returns getSchemaCached s s.schemaRead (s.withCache s.schemaRead) := by
  obtain ⟨r, s', h⟩ := succeeds_getSchemaCached hdir
  obtain ⟨rfl, rfl⟩ : r = s.schemaRead ∧ s' = s.withCache s.schemaRead := h.post (wp_getSchemaCached_frame
    (Q := .returning fun r s' => r = s.schemaRead ∧ s' = s.withCache s.schemaRead) ⟨rfl, rfl⟩
      (fun _ => trivial) trivial)
  exact h

theorem succeeds_commitTxn (immediate : Bool) (txn : Txn) : Succeeds (commitTxn immediate txn) s := step _ _

theorem succeeds_durabilityBarrier : Succeeds (durabilityBarrier env) s := by
  unfold durabilityBarrier
  split
  · exact pure _
  · exact succeeds_commitTxn _ _

theorem succeeds_checkpointCommitted (seq : Nat) : Succeeds (checkpointCommitted seq) s := by
  unfold checkpointCommitted
  split
  · exact pure _
  · exact succeeds_commitTxn _ _

theorem succeeds_replayEntries (fields : SchemaFields) (schema : IndexSchema) (t : Tables)
    (entries : List (Nat × WalEntry)) (r : Replay) (s : Store) :
    Succeeds (replayEntries env fields schema t entries r) s := by
  induction entries generalizing r s with
  | nil => exact pure _
  | cons x rest ih =>
    unfold replayEntries
    split
    · exact ih _ _
    · refine bind ?_ fun edits s' _ => ?_
      · unfold replayId
        split
        · rw [SchemaFields.document_skip]
          exact bind (pure _) fun _ _ _ => step_bind (pure _)
        · exact pure _
      · split
        · exact bind succeeds_durabilityBarrier fun _ _ _ => step_bind (ih _ _)
        · exact ih _ _

/-- What a transaction leaves alone that only keeps the books of recovery: the rows, the schema and the log. -/
structure SameTables (s s' : Store) : Prop where
  data : s'.tables.data = s.tables.data
  schema : s'.tables.schema = s.tables.schema
  log : logOf s'.redb.all = logOf s.redb.all

theorem SameTables.refl (s : Store) : SameTables s s := ⟨rfl, rfl, rfl⟩

theorem SameTables.commit {s₀ : Store} (h : SameTables s₀ s) (immediate : Bool) {txn : Txn}
    (hdata : ∀ t : Tables, (t.run txn).data = t.data) (hschema : ∀ t : Tables, (t.run txn).schema = t.schema)
    (hlog : ∀ log, txn.foldl logWrite log = log) : SameTables s₀ { s with redb := s.redb.commit immediate txn } := by
  have hall : (s.redb.commit immediate txn).all = s.redb.all ++ [txn] := Db.all_commit ..
  refine ⟨?_, ?_, ?_⟩
  · rw [← h.data]
    show (Tables.after (s.redb.commit immediate txn).all).data = _
    rw [hall, after_concat, hdata]
    rfl
  · rw [← h.schema]
    show (Tables.after (s.redb.commit immediate txn).all).schema = _
    rw [hall, after_concat, hschema]
    rfl
  · rw [← h.log, hall, logOf_concat, hlog]

theorem wp_checkpointSeq_frame (index : TantivyIndex) {Q : Post Store StoreError Nat}
    (ok : ∀ seq s', s'.dir = s.dir → s'.mem = s.mem → SameTables s s' → Q.ok seq s')
    (err : ∀ e, Q.error e s) (crash : Q.crashed s) : wp (checkpointSeq index) Q s := by
  have stay : ∀ seq, Q.ok seq s := fun seq => ok seq s rfl rfl (SameTables.refl s)
  refine wp_bind (wp_beginRead ?_ (err _) crash)
  dsimp only
  split
  · exact wp_pure (stay _)
  · split
    · exact wp_pure (stay _)
    · split
      · exact wp_pure (stay _)
      · refine wp_bind (wp_attempt (wp_step (wp_pure (ok _ _ rfl rfl ?_)) (wp_pure (stay _)) crash))
        exact (SameTables.refl s).commit true (fun _ => rfl) (fun _ => rfl) fun _ => rfl

theorem succeeds_checkpointSeq (index : TantivyIndex) : Succeeds (checkpointSeq index) s := by
  refine succeeds_beginRead_bind ?_
  split
  · exact pure _
  · split
    · exact pure _
    · split
      · exact pure _
      · exact bind (succeeds_commitTxn _ _).attempt fun _ _ _ => pure _

theorem succeeds_recoverIndex {index : TantivyIndex} (hdir : s.dir ≠ .bare) : Succeeds (recoverIndex env index) s := by
  refine succeeds_beginRead_bind (bind (succeeds_checkpointSeq index) fun checkpoint s' hret => ?_)
  have hsame : s'.dir = s.dir := hret.post (wp_checkpointSeq_frame index
    (Q := .returning fun _ s' => s'.dir = s.dir) (fun _ _ h _ _ => h) (fun _ => trivial) trivial)
  have hdir' : s'.dir ≠ .bare := hsame ▸ hdir
  split
  · exact pure _
  · split
    · exact bind (succeeds_checkpointCommitted _).attempt fun _ _ _ => pure _
    · refine succeeds_beginRead_bind (bind (succeeds_getSchemaCached (Or.inl hdir')) fun _ _ _ => ?_)
      refine bind (succeeds_replayEntries _ _ _ _ _ _) fun r _ _ => ?_
      split
      · exact modify_bind (pure _)
      · exact pure _

theorem succeeds_openWriter {index : TantivyIndex} (hdir : s.dir ≠ .bare) : Succeeds (openWriter env index) s :=
  step_bind (bind (succeeds_recoverIndex hdir) fun _ _ _ => modify_bind (pure _))

theorem succeeds_createIndex (schema : IndexSchema) : Succeeds (createIndex schema) s := by
  refine step_bind (step_bind ?_)
  refine bind (succeeds_getSchemaCached (Or.inl (by simp [Store.setDir]))) fun _ _ _ => ?_
  split
  · exact pure _
  · exact step_bind (modify_bind (pure _))

/-- An index opens, unless its directory was left without a `meta.json` and its schema has to be read from there. -/
theorem succeeds_getOrCreateIndex (h : Live env lax base s₀ lim s) (hdir : s.dir ≠ .bare ∨ s.mem.schemaCache ≠ none) :
    Succeeds (getOrCreateIndex env) s := by
  obtain ⟨indexed, d, m⟩ := h
  refine gets_bind ?_
  cases hw : s.mem.writer with
  | some w =>
    dsimp only
    split
    · exact pure _
    · exact modify_bind (pure _)
  | none =>
    refine (returns_getSchemaCached hdir).succeeds_bind (gets_bind ?_)
    have d' : Disk env lax base s₀ lim indexed (s.withCache s.schemaRead) := d.setMem _
    have m' := m.read d
    split
    · next index hd => exact step_bind (succeeds_openWriter (by simp [hd]))
    · next hno =>
      refine bind (succeeds_createIndex _) fun index s'' hret => ?_
      rw [m.schemaRead_unbuilt hno] at d' m' hret
      obtain ⟨indexed', d'', -, -, hdir''⟩ := hret.post (wp_createIndex d' m' hno hw)
      exact succeeds_openWriter (by simp [hdir''])

theorem succeeds_commitOpenWriter (w : Writer) : Succeeds (commitOpenWriter env w) s := by
  have hcommit : Succeeds (commitLockedWriter env w) s :=
    gets_bind (bind succeeds_durabilityBarrier fun _ _ _ =>
      step_bind (modify_bind (pure _)))
  refine bind hcommit.attempt fun x s' hret => ?_
  obtain ⟨seq, rfl, -⟩ := hret.of_attempt hcommit
  cases seq with
  | none => exact modify _
  | some seq => exact bind (succeeds_checkpointCommitted seq) fun _ _ _ => modify _

theorem succeeds_commitIndex {w : Writer} (hw : s.mem.writer = some w) : Succeeds (commitIndex env) s := by
  refine gets_bind ?_
  rw [hw]
  dsimp only
  split
  · exact pure _
  · exact succeeds_commitOpenWriter w

end Runs

end CameoDb
