import CameoDb.Theorems.Storage.Recover

namespace CameoDb
open Option Store Std Crash

/-! # Building, opening, committing and closing an index

Building fixes the fields documents are indexed under, which `Safe`, `Live` and `Exact` hide. -/

/-- What a crash finds at any step. -/
def Safe (env : Env) (lax : Prop) (base : List Txn) (s₀ : Store) (lim : Nat) (s : Store) : Prop :=
  ∃ indexed, Disk env lax base s₀ lim indexed s

/-- What a call finds. -/
def Live (env : Env) (lax : Prop) (base : List Txn) (s₀ : Store) (lim : Nat) (s : Store) : Prop :=
  ∃ indexed, Disk env lax base s₀ lim indexed s ∧ MemOk env lax lim indexed s

theorem Live.safe {env : Env} {lax : Prop} {base : List Txn} {s₀ s : Store} {lim : Nat}
    (h : Live env lax base s₀ lim s) : Safe env lax base s₀ lim s :=
  ⟨h.choose, h.choose_spec.1⟩

/-- What a call leaves: `P` when it returns. -/
abbrev orLive (env : Env) (lax : Prop) (base : List Txn) (s₀ : Store) (lim : Nat) {ε α : Type} (P : α → Store → Prop) :
    Post Store ε α :=
  ⟨P, fun _ => Live env lax base s₀ lim, Safe env lax base s₀ lim⟩

def Store.dropWriter (s : Store) : Store := s.setMem fun m => { m with writer := none }

structure Opened (env : Env) (lax : Prop) (base : List Txn) (s₀ : Store) (lim : Nat) (fields : SchemaFields)
    (indexed : FieldMap) (s : Store) : Prop where
  disk : Disk env lax base s₀ lim indexed s
  mem : MemOk env lax lim indexed s
  writer : ∃ w, s.mem.writer = some w ∧ w.fields = fields
  cached : s.mem.fieldsCache = some fields

section Open
variable {env : Env} {lax : Prop} {base : List Txn} {s₀ s : Store} {lim : Nat} {indexed : FieldMap}
  {fields : SchemaFields} {w : Writer}

theorem Opened.live (h : Opened env lax base s₀ lim fields indexed s) : Live env lax base s₀ lim s :=
  ⟨indexed, h.disk, h.mem⟩

/-- A recovered index with its writer in place; the counter starts at what recovery read, unless one is running. -/
theorem Recovered.opened (hlim : lim < u64Limit - 1) {r : Recovery}
    (h : Recovered env lax base s₀ lim indexed fields s r) :
    Opened env lax base s₀ lim fields indexed (s.setMem fun m =>
      { m with writer := some ⟨fields, r.buffer⟩, fieldsCache := some fields,
               currentSeq := some (m.currentSeq.getD (seedSeq r)) }) := by
  obtain ⟨index, hdir, hfields, hview, hdocs⟩ := h.dir
  have hseed : seedSeq r = max r.maxWalSeq r.checkpoint :=
    if_neg (Nat.ne_of_lt (Nat.lt_of_le_of_lt h.top_le hlim))
  refine ⟨h.disk.setMem _, { h.mem with fields := ?_, seq := ?_, writer := ?_ }, ⟨_, rfl, rfl⟩, rfl⟩
  · rintro fields' h'
    cases h'
    exact ⟨index, hdir, hfields.symm⟩
  · intro n hn
    cases hn
    show s.dir.stamp ≤ _ ∧ _ ∧ ∀ e ∈ logOf s.redb.all, _
    cases hc : s.mem.currentSeq with
    | some last => exact h.mem.seq last hc
    | none =>
      rw [getD_none, hseed]
      exact ⟨h.seen.1, h.top_le, h.seen.2⟩
  · rintro w hw
    cases hw
    exact ⟨index, hdir, hfields.symm, rfl, hview, hdocs⟩

theorem wp_openWriter (hlim : lim < u64Limit - 1) (d : Disk env lax base s₀ lim indexed s)
    (m : MemOk env lax lim indexed s)
    (hw : s.mem.writer = none) {index : TantivyIndex} (hdir : s.dir = .built index) :
    wp (openWriter env index)
      (orLive env lax base s₀ lim fun fields s' => Opened env lax base s₀ lim fields indexed s') s := by
  refine wp_step_bind ?_ ⟨indexed, d, m⟩ ⟨indexed, d⟩
  refine wp_bind (wp_mono (wp_recoverIndex (by omega) d m hw hdir) ?_ (fun _ _ h => ⟨indexed, h⟩)
    fun _ h => ⟨indexed, h⟩)
  intro r s' h
  exact wp_modify_bind (wp_pure (h.opened hlim))

/-! ### Building -/

/-- Without an index on disk, a new directory changes nothing. -/
theorem Disk.setBare (d : Disk env lax base s₀ lim indexed s) (hno : ∀ index, s.dir ≠ .built index) :
    Disk env lax base s₀ lim indexed (s.setDir .bare) := by
  have hstamp : s.dir.stamp = 0 := by
    cases hdir : s.dir with
    | built index => exact absurd hdir (hno index)
    | absent => rfl
    | bare => rfl
  have hext := d.ext.stamp
  rw [hstamp] at hext
  exact
    { d with
      wal := fun q hq => ⟨(d.wal q hq).1, (d.wal q hq).2.trans (Nat.le_of_eq hstamp)⟩
      stamp_le := Nat.zero_le _
      above := by
        rw [Store.setDir, (d.unbuilt hno).2]
        simp [logOf]
      built := fun _ h => by simp [Store.setDir] at h
      unbuilt := fun _ => d.unbuilt hno
      ext := ⟨d.ext.new, d.ext.kept, hext⟩ }

/-- Before anything is logged there are no rows. -/
theorem Disk.no_rows (d : Disk env lax base s₀ lim indexed s) (hlog : logOf s.redb.all = []) (id : String) :
    s.tables.data[id]? = none := by
  have hbase : s.tables.data[id]? = (Tables.after base).data[id]? :=
    d.data_eq List.prefix_rfl (d.base_durable.trans s.redb.durable_prefix_all) fun seq h => by simp [hlog] at h
  rw [hbase, d.base_data]
  simp

/-- A new index over no rows: its documents will be indexed under what its schema and its columns name. -/
theorem Disk.create (d : Disk env lax base s₀ lim indexed s) (hno : ∀ index, s.dir ≠ .built index)
    (fields : SchemaFields) :
    Disk env lax base s₀ lim (mergeDerived s.tables.schema fields).indexedFields
    (s.setDir (.built ⟨fields, [], none⟩)) := by
  obtain ⟨hlog, hpend⟩ := d.unbuilt hno
  have d' := d.setBare hno
  refine
    { d' with
      unbuilt := fun h => absurd rfl (h _)
      built := fun index h => ?_
      ext := ⟨d.ext.new, d.ext.kept, d'.ext.stamp⟩ }
  obtain rfl : (⟨fields, [], none⟩ : TantivyIndex) = index := by simpa [Store.setDir] using h
  refine ⟨fun q hq => ?_, fun _ => rfl, fun id => ?_⟩
  · rw [Between.eq_all hq hpend]
    exact Or.inr rfl
  · refine ⟨s.redb.durable, d.base_durable, List.prefix_rfl, fun _ h _ => h, ?_⟩
    have hall : s.redb.durable = s.redb.all := by simp [Db.all, hpend]
    have hrow := d.no_rows hlog id
    rw [tables] at hrow
    unfold Reflects
    rw [hall, hrow]
    rfl

theorem Disk.storeSchema (d : Disk env lax base s₀ lim indexed s) (hlax : ∀ index, s.dir = .built index → lax)
    (schema : IndexSchema) :
    Disk env lax base s₀ lim indexed { s with redb := s.redb.commit true [.schemaInsert schema] } := by
  have hlog₁ : logOf [[TableWrite.schemaInsert schema]] = [] := rfl
  obtain ⟨hwal, hpers⟩ := d.wal _ (between_all s.redb)
  refine d.commit (Nat.le_refl _) (fun _ => rfl) ⟨by simp, by simp⟩
    (by simpa [hlog₁] using d.sorted) (by simp [hlog₁]) ?_
    (fun index h => Or.inl (hlax index h)) fun _ => ⟨hlog₁, rfl⟩
  rw [after_concat, logOf_concat]
  exact ⟨hwal, hpers⟩

theorem MemOk.setBare (m : MemOk env lax lim indexed s) (hno : ∀ index, s.dir ≠ .built index) :
    MemOk env lax lim indexed (s.setDir .bare) where
  cache := fun _ _ _ h => by simp [Store.setDir] at h
  cache_row := fun _ => m.cache_row hno
  fields := fun fields h => by
    obtain ⟨index, h', -⟩ := m.fields fields h
    exact absurd h' (hno index)
  seq := fun n hn => ⟨Nat.zero_le _, (m.seq n hn).2⟩
  writer := fun w h => by
    obtain ⟨index, h', -⟩ := m.writer w h
    exact absurd h' (hno index)

theorem MemOk.fresh (hdir : s.dir = .built ⟨fields, [], none⟩) (hw : s.mem.writer = none)
    (hfields : s.mem.fieldsCache = none)
    (hseq : ∀ n, s.mem.currentSeq = some n → n ≤ lim ∧ ∀ e ∈ logOf s.redb.all, e.1 ≤ n)
    (hcache : ∀ schema, s.mem.schemaCache = some schema → lax ∨ schema.indexedFields = indexed ∧ Names fields schema) :
    MemOk env lax lim indexed s where
  cache := fun schema index h h' => by
    rw [hdir] at h'
    cases h'
    exact hcache schema h
  cache_row := fun h => absurd hdir (h _)
  fields := fun _ h => by simp [hfields] at h
  seq := fun n hn => ⟨by rw [hdir]; exact Nat.zero_le _, hseq n hn⟩
  writer := fun _ h => by simp [hw] at h

theorem Names.withId {schema : IndexSchema} (h : Names fields schema) : Names fields schema.withId :=
  fun column hc => ExtTreeMap.mem_insert.mpr (Or.inr (h column hc))

theorem wp_createIndex (d : Disk env lax base s₀ lim indexed s) (m : MemOk env lax lim indexed s)
    (hno : ∀ index, s.dir ≠ .built index) (hw : s.mem.writer = none) :
    wp (createIndex (s.tables.schema.getD .default))
      (orLive env lax base s₀ lim fun index s' => ∃ indexed', Disk env lax base s₀ lim indexed' s' ∧
      MemOk env lax lim indexed' s' ∧ s'.mem.writer = none ∧ s'.dir = .built index) s := by
  generalize hsch : s.tables.schema.getD .default = schema
  have hbare : ∀ index, (s.setDir .bare).dir ≠ .built index := by simp [Store.setDir]
  refine wp_step_bind ?_ ⟨indexed, d, m⟩ ⟨indexed, d⟩
  refine wp_step_bind ?_ ⟨indexed, d.setBare hno, m.setBare hno⟩ ⟨indexed, d.setBare hno⟩
  have d' := (d.setBare hno).create hbare (createSchemaFromDefinition schema)
  have hfields : s.mem.fieldsCache = none := eq_none_iff_forall_not_mem.mpr fun fields h => by
    obtain ⟨index, h', -⟩ := m.fields fields h
    exact hno index h'
  have m' : MemOk env lax lim (mergeDerived s.tables.schema (createSchemaFromDefinition schema)).indexedFields
      ((s.setDir .bare).setDir (.built ⟨createSchemaFromDefinition schema, [], none⟩)) := by
    refine MemOk.fresh rfl hw hfields (fun n hn => (m.seq n hn).2) fun cached hcached => ?_
    have hrow := m.cache_row hno cached hcached
    rw [hrow, getD_some] at hsch
    subst hsch
    exact Or.inr ⟨by rw [hrow, mergeDerived_of_names (names_create _)], names_create _⟩
  refine wp_bind (wp_getSchemaCached_frame ?_ (fun _ => ⟨_, d', m'⟩) ⟨_, d'⟩)
  obtain ⟨stored, hread, hstored⟩ := m'.schemaRead_built d' rfl
  have m'' := m'.read d'
  rw [hread] at m'' ⊢
  simp only [getD_some]
  split
  · exact wp_pure ⟨_, d'.setMem _, m'', hw, rfl⟩
  · refine wp_step_bind ?_ ⟨_, d'.setMem _, m''⟩ ⟨_, d'.setMem _⟩
    refine wp_modify_bind (wp_pure ?_)
    -- The schema row changes what an index with no documents is indexed under.
    have dRow := ((d.setBare hno).storeSchema (fun index h => absurd h (hbare index)) stored.withId).create hbare
      (createSchemaFromDefinition schema)
    have hafter : (Tables.after (s.redb.commit true [.schemaInsert stored.withId]).all).schema =
        some stored.withId := by
      rw [Db.all_commit, after_concat]
      rfl
    refine ⟨_, dRow.setMem fun m => { m with schemaCache := some stored.withId }, ?_, hw, rfl⟩
    refine MemOk.fresh rfl hw hfields (fun n hn => ⟨(m.seq n hn).2.1, ?_⟩) fun cached hcached => ?_
    · show ∀ e ∈ logOf (s.redb.commit true [.schemaInsert stored.withId]).all, _
      rw [Db.all_commit, logOf_concat]
      exact (m.seq n hn).2.2
    · obtain rfl : stored.withId = cached := by simpa [Store.setMem] using hcached
      refine hstored.imp_right fun h => ⟨?_, h.2.withId⟩
      show _ = (mergeDerived (Tables.after (s.redb.commit true [.schemaInsert stored.withId]).all).schema
        _).indexedFields
      rw [hafter, mergeDerived_of_names h.2.withId]

/-- What holds once an index is open, by how it is opened: with its writer at hand, from its directory, or built
    anew. -/
theorem wp_getOrCreateIndex_of {Q : Post Store StoreError SchemaFields}
    (held : ∀ w, s.mem.writer = some w → Q.ok (s.mem.fieldsCache.getD w.fields)
      (s.setMem fun m => { m with fieldsCache := some (s.mem.fieldsCache.getD w.fields) }))
    (opens : s.mem.writer = none → ∀ index, s.dir = .built index →
      wp (openWriter env index) Q (s.withCache s.schemaRead))
    (creates : s.mem.writer = none → (∀ index, s.dir ≠ .built index) →
      wp (createIndex (s.schemaRead.getD .default) >>= openWriter env) Q (s.withCache s.schemaRead))
    (err : ∀ e s', s' = s ∨ s' = s.withCache s.schemaRead → Q.error e s')
    (crash : ∀ s', s' = s ∨ s' = s.withCache s.schemaRead → Q.crashed s') : wp (getOrCreateIndex env) Q s := by
  refine wp_gets_bind ?_
  cases hw : s.mem.writer with
  | some w =>
    have hheld := held w hw
    cases hf : s.mem.fieldsCache with
    | some fields =>
      have hsame : (s.setMem fun m => { m with fieldsCache := some fields }) = s := by simp only [Store.setMem, ← hf]
      rw [hf, getD_some, hsame] at hheld
      exact wp_pure hheld
    | none =>
      rw [hf] at hheld
      exact wp_modify_bind (wp_pure hheld)
  | none =>
    refine wp_bind (wp_getSchemaCached_frame (wp_gets_bind ?_) (fun e => err e s (.inl rfl)) (crash s (.inl rfl)))
    split
    · next index hdir => exact wp_step_bind (opens hw index hdir) (err _ _ (.inr rfl)) (crash _ (.inr rfl))
    · next hno => exact creates hw hno

theorem wp_getOrCreateIndex (hlim : lim < u64Limit - 1) (h : Live env lax base s₀ lim s) :
    wp (getOrCreateIndex env)
      (orLive env lax base s₀ lim fun fields s' => ∃ indexed, Opened env lax base s₀ lim fields indexed s') s := by
  obtain ⟨indexed, d, m⟩ := h
  have d' : Disk env lax base s₀ lim indexed (s.withCache s.schemaRead) := d.setMem _
  have m' := m.read d
  refine wp_getOrCreateIndex_of (fun w hw => ?_) (fun hw index hdir => ?_) (fun hw hno => ?_) ?_ ?_
  · obtain ⟨index, hdir, hfields, -⟩ := m.writer w hw
    have hcached : s.mem.fieldsCache.getD w.fields = w.fields := by
      cases hf : s.mem.fieldsCache with
      | none => rfl
      | some fields =>
        obtain ⟨index', hdir', rfl⟩ := m.fields fields hf
        cases hdir.symm.trans hdir'
        exact hfields.symm
    rw [hcached]
    refine ⟨indexed, d.setMem _, { m with fields := ?_ }, ⟨w, hw, rfl⟩, rfl⟩
    rintro fields h
    cases h
    exact ⟨index, hdir, hfields⟩
  · exact wp_imp (wp_openWriter hlim d' m' hw hdir) fun _ _ h => ⟨indexed, h⟩
  · rw [m.schemaRead_unbuilt hno] at d' m' ⊢
    refine wp_bind (wp_imp (wp_createIndex d' m' hno hw) ?_)
    rintro index s' ⟨indexed', d'', m'', hw'', hdir''⟩
    exact wp_imp (wp_openWriter hlim d'' m'' hw'' hdir'') fun _ _ h => ⟨indexed', h⟩
  · rintro _ _ (rfl | rfl)
    · exact ⟨indexed, d, m⟩
    · exact ⟨indexed, d', m'⟩
  · rintro _ (rfl | rfl)
    · exact ⟨indexed, d⟩
    · exact ⟨indexed, d'⟩

theorem wp_reopenAttempts_of {Q : Post Store StoreError Unit} {P : Store → Prop}
    (opens : ∀ s, P s → wp (getOrCreateIndex env) ⟨fun _ => Q.ok (), fun _ => P, Q.crashed⟩ s)
    (err : ∀ e s, P s → Q.error e s)
    (attempts : Nat) (s : Store) (h : P s) : wp (reopenAttempts env attempts) Q s := by
  induction attempts using reopenAttempts.induct generalizing s with
  | case1 => exact wp_throw (err _ _ h)
  | case2 => exact wp_bind (wp_mono (opens s h) (fun _ _ h => wp_pure h) err fun _ h => h)
  | case3 attempts ih =>
    exact wp_bind (wp_attempt (wp_mono (opens s h) (fun _ _ h => wp_pure h) (fun _ => ih) fun _ h => h))

theorem wp_reopenAttempts (hlim : lim < u64Limit - 1) (attempts : Nat) (s : Store) (h : Live env lax base s₀ lim s) :
    wp (reopenAttempts env attempts)
      (orLive env lax base s₀ lim fun _ s' => Live env lax base s₀ lim s') s := by
  refine wp_reopenAttempts_of (P := Live env lax base s₀ lim) (fun s h => ?_) (fun _ _ h => h) attempts s h
  exact wp_imp (wp_getOrCreateIndex hlim h) fun _ _ ⟨_, h⟩ => h.live

theorem MemOk.dropWriter (m : MemOk env lax lim indexed s) : MemOk env lax lim indexed s.dropWriter :=
  { m with writer := fun _ h => by simp [Store.dropWriter, Store.setMem] at h }

theorem Live.dropWriter (h : Live env lax base s₀ lim s) : Live env lax base s₀ lim s.dropWriter :=
  have ⟨indexed, d, m⟩ := h
  ⟨indexed, d.setMem _, m.dropWriter⟩

theorem wp_reopenAfterDeadWriter (hlim : lim < u64Limit - 1) (h : Live env lax base s₀ lim s.dropWriter) :
    wp (reopenAfterDeadWriter env)
      (orLive env lax base s₀ lim fun _ s' => Live env lax base s₀ lim s') s :=
  wp_modify_bind (wp_reopenAttempts hlim 3 _ h)

/-! ### Committing -/

/-- What a successful commit leaves: each id's committed documents are those of its row. -/
structure Exact (env : Env) (lax : Prop) (base : List Txn) (s₀ : Store) (lim : Nat)
    (indexed : FieldMap) (s : Store) : Prop where
  disk : Disk env lax base s₀ lim indexed s
  mem : MemOk env lax lim indexed s
  docs : ∃ index, s.dir = .built index ∧ ∀ id, Reflects env.parsers lax index.fields indexed index.docs s.tables id

theorem Exact.live (h : Exact env lax base s₀ lim indexed s) : Live env lax base s₀ lim s := ⟨indexed, h.disk, h.mem⟩

theorem Exact.resetOperations (h : Exact env lax base s₀ lim indexed s) :
    Exact env lax base s₀ lim indexed (s.setMem fun m => { m with operations := 0 }) where
  disk := h.disk.setMem _
  mem :=
    { h.mem with
      writer := fun w hw => by
        obtain ⟨index, hdir, hfields, hseq, hview, -⟩ := h.mem.writer w hw
        obtain ⟨index', hdir', hdocs⟩ := h.docs
        rw [hdir] at hdir'
        cases hdir'
        exact ⟨index, hdir, hfields, hseq, hview, fun _ => hdocs⟩ }
  docs := h.docs

theorem wp_commitLockedWriter (hlim : lim < u64Limit - 1) (d : Disk env lax base s₀ lim indexed s)
    (m : MemOk env lax lim indexed s) (hw : s.mem.writer = some w) :
    wp (commitLockedWriter env w)
      ⟨fun seq s' => Exact env lax base s₀ lim indexed s' ∧ seq = some s'.dir.stamp,
        fun _ s' => Disk env lax base s₀ lim indexed s' ∧ MemOk env lax lim indexed s',
        fun s' => Disk env lax base s₀ lim indexed s'⟩ s := by
  refine wp_gets_bind ?_
  refine wp_bind (wp_durabilityBarrier d (fun s' d' f => ?_) ⟨d, m⟩ d)
  have m' := m.of_flushed f
  obtain ⟨index, hdir, hfields, hsome, hview, -⟩ := m'.writer w (f.mem ▸ hw)
  obtain ⟨seq, hseq⟩ := isSome_iff_exists.mp hsome
  obtain ⟨hlow, hle, hlog⟩ := m'.seq seq hseq
  have hmem : s.mem.currentSeq = some seq := f.mem ▸ hseq
  simp only [hmem]
  have dNew := d'.tantivyCommit hdir f.pending hlow hle (by omega) fun id => Or.inl (hview id)
  have hnew := stamp_commit index w.buffer (show seq < u64Limit by omega)
  refine wp_step_bind ?_ ⟨d', m'⟩ d'
  refine wp_modify_bind (wp_pure ?_)
  simp only [hdir, map_some]
  refine ⟨⟨dNew.setMem _, ?_, ⟨_, rfl, hview⟩⟩, congrArg some hnew.symm⟩
  refine
    { cache := fun schema index' h h' => ?_
      cache_row := fun h => absurd rfl (h _)
      fields := fun fields h => ?_
      seq := fun n hn => ?_
      writer := fun w' h => ?_ }
  · obtain rfl : index.commit w.buffer (some (encodeCheckpointPayload seq)) = index' := by
      simpa [Store.setDir, Store.setMem] using h'
    exact m'.cache schema index h hdir
  · obtain ⟨index', hdir', rfl⟩ := m'.fields fields h
    rw [hdir] at hdir'
    cases hdir'
    exact ⟨_, rfl, rfl⟩
  · obtain rfl : seq = n := some.inj (hseq.symm.trans hn)
    exact ⟨Nat.le_of_eq hnew, hle, hlog⟩
  · cases h
    exact ⟨_, rfl, hfields, hsome, hview, fun _ => hview⟩

theorem wp_checkpointAfterCommit (h : Exact env lax base s₀ lim indexed s) :
    wp (checkpointAfterCommit (some s.dir.stamp))
      (orLive env lax base s₀ lim fun _ s' => Exact env lax base s₀ lim indexed s') s := by
  show wp (checkpointCommitted s.dir.stamp >>= fun _ => resetOperationsCounter) _ s
  unfold checkpointCommitted
  split
  · exact wp_bind (wp_pure (wp_modify h.resetOperations))
  · refine wp_step_bind (wp_modify (Exact.resetOperations ⟨h.disk.checkpoint rfl, h.mem.checkpoint _, ?_⟩)) h.live
      h.live.safe
    obtain ⟨index, hdir, hdocs⟩ := h.docs
    refine ⟨index, hdir, fun id => (hdocs id).congr rfl ?_⟩
    rw [tables, Db.all_commit, after_concat]
    rfl

theorem wp_commitOpenWriter (hlim : lim < u64Limit - 1) (d : Disk env lax base s₀ lim indexed s)
    (m : MemOk env lax lim indexed s) (hw : s.mem.writer = some w) :
    wp (commitOpenWriter env w)
      (orLive env lax base s₀ lim fun _ s' => Exact env lax base s₀ lim indexed s') s := by
  refine wp_bind (wp_attempt (wp_mono (wp_commitLockedWriter hlim d m hw) ?_ ?_ fun _ h => ⟨indexed, h⟩))
  · rintro seq s' ⟨h, rfl⟩
    exact wp_checkpointAfterCommit h
  · intro e s' h
    refine wp_bind (wp_attempt (wp_mono (wp_reopenAfterDeadWriter hlim (Live.dropWriter ⟨indexed, h⟩)) ?_
      ?_ fun _ h => h)) <;>
      exact fun _ _ h => wp_throw h

theorem wp_commitIndex (hlim : lim < u64Limit - 1) (h : Live env lax base s₀ lim s) :
    wp (commitIndex env)
      (orLive env lax base s₀ lim fun _ s' => Live env lax base s₀ lim s' ∧
      (s.mem.writer.isSome → ∃ indexed, Exact env lax base s₀ lim indexed s')) s := by
  have hlive := h
  obtain ⟨indexed, d, m⟩ := h
  refine wp_gets_bind ?_
  split
  · next hops =>
    refine wp_pure ⟨hlive, fun hsome => ?_⟩
    obtain ⟨w, hw⟩ := isSome_iff_exists.mp hsome
    obtain ⟨index, hdir, -, -, -, hdocs⟩ := m.writer w hw
    exact ⟨indexed, d, m, index, hdir, hdocs hops⟩
  · cases hw : s.mem.writer with
    | some w =>
      refine wp_imp (wp_commitOpenWriter hlim d m hw) (fun _ _ h => ?_)
      exact ⟨h.live, fun _ => ⟨indexed, h⟩⟩
    | none =>
      refine wp_bind (wp_imp (wp_getOrCreateIndex hlim hlive) ?_)
      rintro fields s' ⟨indexed', h'⟩
      obtain ⟨w, hw', -⟩ := h'.writer
      refine wp_gets_bind ?_
      rw [hw']
      refine wp_imp (wp_commitOpenWriter hlim h'.disk h'.mem hw') (fun _ _ h => ?_)
      exact ⟨h.live, fun hsome => by simp at hsome⟩

theorem wp_dropIndexCaches (h : Safe env lax base s₀ lim s) {Q : Post Store StoreError Unit}
    (ok : ∀ s', Live env lax base s₀ lim s' → Q.ok () s') : wp dropIndexCaches Q s := by
  obtain ⟨indexed, d⟩ := h
  exact wp_modify (ok _ ⟨indexed, d.setMem _, MemOk.empty⟩)

theorem wp_closeIndex (hlim : lim < u64Limit - 1) (h : Live env lax base s₀ lim s) :
    wp (closeIndex env)
      (orLive env lax base s₀ lim fun _ s' => Live env lax base s₀ lim s') s := by
  have hlive := h
  obtain ⟨indexed, d, m⟩ := h
  refine wp_gets_bind ?_
  cases hw : s.mem.writer with
  | none => exact wp_dropIndexCaches hlive.safe fun _ h => h
  | some w =>
    dsimp only
    split
    · exact wp_dropIndexCaches hlive.safe fun _ h => h
    · refine wp_bind (wp_attempt (wp_bind (wp_mono (wp_commitLockedWriter hlim d m hw) ?_ ?_ fun _ h => ⟨indexed, h⟩)))
      · rintro seq s' ⟨h, rfl⟩
        refine wp_mono (wp_checkpointAfterCommit h) ?_ ?_ fun _ h => h
        · exact fun _ _ h => wp_dropIndexCaches h.live.safe fun _ h => h
        · exact fun _ _ h => wp_dropIndexCaches h.safe fun _ h => h
      · exact fun _ _ h => wp_dropIndexCaches ⟨indexed, h.1⟩ fun _ h => h

end Open

end CameoDb
