import CameoDb.Theorems.Storage.Accepted

namespace CameoDb
open List Function PreparedOp IndexSchema Edit Std Crash

/-! # A batch when nothing fails

On an open index a batch does what its operations do one by one, and two batches what their concatenation does. -/

/-- The schemas index documents alike. -/
structure SameDocs (a b : IndexSchema) : Prop where
  indexed : b.indexedFields = a.indexedFields
  unstored : ∀ name, b.isUnstored name = a.isUnstored name
  state : b.state = a.state

namespace SameDocs
variable {a b c : IndexSchema}

theorem refl (a : IndexSchema) : SameDocs a a := ⟨rfl, fun _ => rfl, rfl⟩

theorem trans (hab : SameDocs a b) (hbc : SameDocs b c) : SameDocs a c :=
  ⟨hbc.indexed.trans hab.indexed, fun name => (hbc.unstored name).trans (hab.unstored name), hbc.state.trans hab.state⟩

theorem evolveField (p : Parsers) (schema : IndexSchema) (name : String) (value : JsonValue) :
    SameDocs schema (schema.evolveField p name value).1 := by
  rcases evolveField_cases p schema name value with h | ⟨field, h, -, hplain, hold⟩
  · rw [h]
    exact refl schema
  · refine ⟨evolveField_indexedFields p schema name value, fun k => ?_, by rw [h]⟩
    rw [h]
    unfold isUnstored
    by_cases hk : name = k
    · subst hk
      rw [ExtTreeMap.getElem?_insert_self]
      dsimp only
      rw [hplain]
      cases hf : schema.fields[name]? with
      | none => rfl
      | some old => exact (hold old hf).2.symm
    · simp [ExtTreeMap.getElem?_insert, hk]

theorem evolveFromDocument (p : Parsers) (schema : IndexSchema) (blob : JsonValue) :
    SameDocs schema (schema.evolveFromDocument p blob).1 := by
  have members : ∀ (ms : List (String × JsonValue)) (schema : IndexSchema),
      SameDocs schema (schema.evolveMembers p ms).1 := by
    intro ms
    induction ms with
    | nil => exact fun schema => refl schema
    | cons m rest ih => exact fun schema => (evolveField p schema m.1 m.2).trans (ih _)
  unfold IndexSchema.evolveFromDocument
  split
  · exact members _ schema
  · exact refl schema

theorem evolveBatch (env : Env) (schema : IndexSchema) (ops : List WalOp) :
    SameDocs schema (evolveBatch env schema ops).1 := by
  induction schema, ops using evolveBatch.induct env with
  | case1 schema => exact refl schema
  | case2 schema id blob rest evolved names hev final more hrec ih =>
    have hone := evolveFromDocument env.parsers schema blob
    rw [hev] at hone
    rw [hrec] at ih
    simp only [CameoDb.evolveBatch, hev, hrec]
    exact hone.trans ih
  | case3 schema op rest hop ih =>
    cases op with
    | delete id => exact ih
    | put id blob =>
      cases blob with
      | none => exact ih
      | some blob => exact absurd rfl (hop id blob)

theorem learned (env : Env) (schema : IndexSchema) (ops : List WalOp) : SameDocs schema (schema.learned env ops) := by
  unfold IndexSchema.learned
  split
  · rw [← evolveBatch_fst]
    exact evolveBatch env schema ops
  · exact refl schema

end SameDocs

/-! ### Preparing under either schema -/

section Prepare
variable {env : Env} {fields : SchemaFields} {a b : IndexSchema}

theorem filterUnstored_of_none {schema : IndexSchema} (h : (schema.hasShadowFields || schema.hasGhostFields) = false)
    (blob : JsonValue) : filterUnstoredFieldsOwned schema blob = blob := by
  have hno : ∀ name, schema.isUnstored name = false := by
    intro name
    unfold isUnstored
    cases hf : schema.fields[name]? with
    | none => rfl
    | some field =>
      have hmem : (name, field) ∈ schema.fields.toList := ExtTreeMap.mem_toList_iff_getElem?_eq_some.mpr hf
      simp only [Bool.or_eq_false_iff, hasShadowFields, hasGhostFields, any_eq_false] at h
      exact Bool.or_eq_false_iff.mpr ⟨by simpa using h.1 _ hmem, by simpa using h.2 _ hmem⟩
  cases blob <;> simp [filterUnstoredFieldsOwned, hno]

theorem SameDocs.filter (h : SameDocs a b) (blob : JsonValue) :
    filterUnstoredFieldsOwned b blob = filterUnstoredFieldsOwned a blob := by
  cases blob <;> simp [filterUnstoredFieldsOwned, h.unstored]

/-- The row of a put is its body without the fields the schema keeps out of it. -/
theorem storedRow (schema : IndexSchema) (blob : Option JsonValue) :
    (if schema.hasShadowFields || schema.hasGhostFields then blob.map (filterUnstoredFieldsOwned schema) else blob) =
      blob.map (filterUnstoredFieldsOwned schema) := by
  split
  · rfl
  · next h =>
    cases blob with
    | none => rfl
    | some blob => rw [Option.map_some, filterUnstored_of_none (by simpa using h)]

theorem SameDocs.document (h : SameDocs a b) (id : String) (seq : Nat) (body : Option JsonValue) (bad : BadValue) :
    fields.document env.parsers b id seq body bad = fields.document env.parsers a id seq body bad := by
  simp only [SchemaFields.document, SchemaFields.bodyValues, SchemaFields.memberValues, h.indexed]

theorem SameDocs.prepareOp (h : SameDocs a b) (op : WalOp) (seq : Nat) :
    prepareOp env fields b op seq = prepareOp env fields a op seq := by
  cases op with
  | delete id => rfl
  | put id blob =>
    have hrow : blob.map (filterUnstoredFieldsOwned b) = blob.map (filterUnstoredFieldsOwned a) := by
      cases blob with
      | none => rfl
      | some blob => rw [Option.map_some, Option.map_some, h.filter]
    simp only [CameoDb.prepareOp, storedRow]
    simp only [hrow, h.document]

theorem SameDocs.prepareOps (h : SameDocs a b) (ops : List WalOp) (start : Nat) :
    prepareOps env fields b ops start = prepareOps env fields a ops start := by
  induction ops generalizing start with
  | nil => rfl
  | cons op rest ih => simp only [CameoDb.prepareOps, h.prepareOp, ih]

theorem prepareOps_append {xs ys : List WalOp} {start : Nat} {prepared : List PreparedOp}
    (h : prepareOps env fields a (xs ++ ys) start = .ok prepared) :
    ∃ ps qs, prepared = ps ++ qs ∧ prepareOps env fields a xs start = .ok ps ∧
      prepareOps env fields a ys (start + xs.length) = .ok qs := by
  induction xs generalizing start prepared with
  | nil => exact ⟨[], prepared, rfl, rfl, h⟩
  | cons op rest ih =>
    obtain ⟨first, others, hop, hrest, rfl⟩ := prepareOps_cons h
    obtain ⟨ps, qs, rfl, hps, hqs⟩ := ih hrest
    refine ⟨first :: ps, qs, rfl, ?_, ?_⟩
    · simp [prepareOps, hop, hps, Except.map]
    · rw [length_cons, Nat.add_comm rest.length 1, ← Nat.add_assoc]
      exact hqs

theorem prepareOp_accepts {op : WalOp} {seq : Nat} {prepared : PreparedOp}
    (h : prepareOp env fields a op seq = .ok prepared) (seq' : Nat) :
    ∃ prepared', prepareOp env fields a op seq' = .ok prepared' := by
  cases op with
  | delete id => exact ⟨_, rfl⟩
  | put id blob =>
    simp only [prepareOp, storedRow, SchemaFields.document] at h ⊢
    cases hb : fields.bodyValues env.parsers a (blob.map (filterUnstoredFieldsOwned a)) .refuse with
    | error e => simp [hb, Except.map] at h
    | ok values => exact ⟨_, rfl⟩

theorem prepareOps_accepts {ops : List WalOp}
    (h : ∀ op ∈ ops, ∃ seq prepared, prepareOp env fields a op seq = .ok prepared)
    (start : Nat) : ∃ prepared, prepareOps env fields a ops start = .ok prepared := by
  induction ops generalizing start with
  | nil => exact ⟨[], rfl⟩
  | cons op rest ih =>
    obtain ⟨seq, p, hp⟩ := h op (mem_cons_self ..)
    obtain ⟨first, hfirst⟩ := prepareOp_accepts hp start
    obtain ⟨others, hothers⟩ := ih (fun op hop => h op (mem_cons_of_mem _ hop)) (start + 1)
    exact ⟨first :: others, by simp [prepareOps, hfirst, hothers, Except.map]⟩

end Prepare

/-! ### The documents a commit would publish -/

def Store.pendingDocs (s : Store) (id : String) : List TantivyDocument :=
  match s.dir, s.mem.writer with
  | .built index, some w => under TantivyDocument.id (index.view w.buffer) id
  | _, _ => []

def PreparedOp.writeDocs (docs : String → List TantivyDocument) (op : PreparedOp) : String → List TantivyDocument :=
  match op.kind with
  | .put _ doc => update docs op.id [doc]
  | .delete => update docs op.id []

/-- The final operations of a batch against the documents its operations, one by one, would leave. -/
structure FinalDocs (before after : String → List TantivyDocument) (finals : List FinalEntry) : Prop where
  named : ∀ e ∈ finals, e.op.toList = after e.id
  other : ∀ id, id ∉ finals.map FinalEntry.id → after id = before id

section Finals
variable {before docs : String → List TantivyDocument} {finals : List FinalEntry}

theorem FinalDocs.record (h : FinalDocs before docs finals) (id : String) (touched : Bool)
    (op : Option TantivyDocument) :
    FinalDocs before (update docs id op.toList) (recordFinal finals id touched op) where
  named := fun e he => by
    rcases mem_recordFinal he with ⟨hmem, hne⟩ | ⟨rfl, hop, -⟩
    · rw [update_of_ne hne]
      exact h.named e hmem
    · rw [update_self, hop]
  other := fun k hk => by
    rw [recordFinal_ids] at hk
    have hk' : k ∉ finals.map FinalEntry.id ∧ k ≠ id := by
      split at hk
      · next hid => exact ⟨hk, fun hc => hk (hc ▸ hid)⟩
      · simpa using hk
    rw [update_of_ne hk'.2, h.other k hk'.1]

theorem finalOps_docs {prepared : List PreparedOp} {data : DataTable}
    (h : FinalDocs before docs finals) :
    FinalDocs before (prepared.foldl writeDocs docs) (finalOps data prepared finals) := by
  induction prepared generalizing data docs finals with
  | nil => exact h
  | cons op rest ih =>
    rw [foldl_cons]
    unfold finalOps
    cases hk : op.kind with
    | put row doc =>
      have hdocs : op.writeDocs docs = update docs op.id (some doc).toList := by
        rw [writeDocs, hk]
        rfl
      rw [hdocs]
      exact ih (h.record op.id _ (some doc))
    | delete =>
      have hdocs : op.writeDocs docs = update docs op.id (none : Option TantivyDocument).toList := by
        rw [writeDocs, hk]
        rfl
      rw [hdocs]
      exact ih (h.record op.id _ none)

end Finals

section Pass

def Store.withWriter (s : Store) (w : Writer) : Store := s.setMem fun m => { m with writer := some w }

variable {s : Store} {w : Writer}

theorem Store.bufferAll_eq (hw : s.mem.writer = some w) (edits : Buffer) :
    s.bufferAll edits = s.withWriter { w with buffer := w.buffer ++ edits } := by
  simp [Store.bufferAll, Store.withWriter, Store.setMem, hw]

theorem tantivyPass_quiet (finals : List FinalEntry) (hw : s.mem.writer = some w) :
    tantivyPass finals [] s =
      ⟨.ok false, [], s.withWriter { w with buffer := w.buffer ++ finals.flatMap FinalEntry.edits }⟩ := by
  have hends := tantivyPass_ends finals s []
  generalize tantivyPass finals [] s = r at hends ⊢
  cases hends with
  | done used => rw [suffix_nil.mp used, Store.bufferAll_eq hw]
  | died _ failed => cases failed
  | crashed _ stopped => cases stopped

end Pass

/-! ### A batch on an open index -/

/-- What a batch leaves of an open index when nothing fails. -/
def Store.written (env : Env) (s : Store) (w : Writer) (last n : Nat) (evolved : Option IndexSchema)
    (prepared : List PreparedOp) : Store :=
  ((s.committed env last n evolved prepared).withWriter
    { w with buffer := w.buffer ++ (finalOps s.tables.data prepared []).flatMap FinalEntry.edits }).setMem fun m =>
      { m with operations := m.operations + prepared.length }

section Open
variable {env : Env} {s : Store} {w : Writer}

theorem applyOpened_open {schema : IndexSchema} (hw : s.mem.writer = some w)
    (hc : s.mem.schemaCache = some schema) (ops : List WalOp) (fields : SchemaFields) :
    applyOpened env ops fields schema [] s =
      match s.mem.currentSeq with
      | none => ⟨.error (.indexNotFound ("Sequence counter not found for index: " ++ env.index)), [], s⟩
      | some last =>
        match prepareOps env fields schema ops (last + 1) with
        | .error e => ⟨.error e, [], s.reserved last ops.length⟩
        | .ok prepared =>
          ⟨.ok (prepared.map PreparedOp.seq, newDocumentsCount (finalOps s.tables.data prepared [])), [],
            s.written env w last ops.length (schema.evolution env ops) prepared⟩ := by
  have hevolved : Returns (evolvedSchema env schema ops) s (schema.evolution env ops) s :=
    evolvedSchema_cached hc ops []
  rw [applyOpened, hevolved.bind_eq]
  cases hseq : s.mem.currentSeq with
  | none =>
    simp only [reserveSeqs, Prog.bind_apply, Prog.gets, hseq]
    rfl
  | some last =>
    have hreserve : Returns (reserveSeqs env ops.length) s (last + 1) (s.reserved last ops.length) := by
      simp only [Returns, reserveSeqs, Prog.bind_apply, Prog.gets, hseq]
      rfl
    rw [hreserve.bind_eq, Prog.bind_apply]
    dsimp only
    cases prepareOps env fields schema ops (last + 1) with
    | error e => rfl
    | ok prepared =>
      have hpass := tantivyPass_quiet (finalOps s.tables.data prepared [])
        (s := s.committed env last ops.length (schema.evolution env ops) prepared) hw
      show indexBatch env prepared (finalOps s.tables.data prepared []) []
        (s.committed env last ops.length (schema.evolution env ops) prepared) = _
      rw [indexBatch, Prog.bind_apply, hpass]
      rfl

end Open

/-- The index is open and everything about it is cached. -/
structure Ready (s : Store) (index : TantivyIndex) (w : Writer) (schema : IndexSchema) (last : Nat) : Prop where
  dir : s.dir = .built index
  writer : s.mem.writer = some w
  fields : s.mem.fieldsCache = some w.fields
  cache : s.mem.schemaCache = some schema
  seq : s.mem.currentSeq = some last
  active : schema.state = .active

section Ready
variable {env : Env} {s : Store} {index : TantivyIndex} {w : Writer} {schema : IndexSchema} {last : Nat}

theorem Ready.admitBatch (h : Ready s index w schema last) (ops : List WalOp) :
    Returns (admitBatch env ops) s () s := by
  have hexists : Returns indexExists s true s := by
    simp [Returns, indexExists, Prog.bind_apply, Prog.gets, h.cache, h.active]
    rfl
  have hdropped : Returns indexWasDropped s false s := by
    simp [Returns, indexWasDropped, Prog.bind_apply, Prog.gets, h.cache, h.active]
    rfl
  have hmissing : Returns (if ops.all WalOp.isDelete then do
      let exists_ ← indexExists
      pure (!exists_)
    else pure false : StoreM Bool) s false s := by
    split
    · exact hexists.bind rfl
    · rfl
  exact hmissing.bind (hdropped.bind rfl)

theorem Ready.openForWrite (h : Ready s index w schema last) : Returns (openForWrite env) s (w.fields, schema) s := by
  have hopen : Returns (getOrCreateIndex env) s w.fields s := by
    simp [Returns, getOrCreateIndex, Prog.bind_apply, Prog.gets, h.writer, h.fields]
    rfl
  have hread : Returns getSchemaCached s (some schema) s := by
    simp [Returns, getSchemaCached, Prog.bind_apply, Prog.gets, h.cache]
    rfl
  exact hopen.bind (hread.bind rfl)

variable {ops : List WalOp} {prepared : List PreparedOp}

theorem Ready.applyOpened (h : Ready s index w schema last)
    (hprep : prepareOps env w.fields schema ops (last + 1) = .ok prepared) :
    Returns (applyOpened env ops w.fields schema) s
      (prepared.map PreparedOp.seq, newDocumentsCount (finalOps s.tables.data prepared []))
      (s.written env w last ops.length (schema.evolution env ops) prepared) := by
  unfold Returns
  rw [applyOpened_open h.writer h.cache, h.seq]
  dsimp only
  rw [hprep]

/-- The rows, the log and the documents of these operations. -/
structure Wrote (s s' : Store) (prepared : List PreparedOp) : Prop where
  data : s'.tables.data = prepared.foldl writeRow s.tables.data
  log : logOf s'.redb.all = logOf s.redb.all ++ prepared.map PreparedOp.logged
  docs : s'.pendingDocs = prepared.foldl writeDocs s.pendingDocs
  operations : s'.mem.operations = s.mem.operations + prepared.length

theorem Wrote.append {s s' s'' : Store} {ps qs : List PreparedOp} (h : Wrote s s' ps) (h' : Wrote s' s'' qs) :
    Wrote s s'' (ps ++ qs) where
  data := by rw [h'.data, h.data, foldl_append]
  log := by rw [h'.log, h.log, map_append, append_assoc]
  docs := by rw [h'.docs, h.docs, foldl_append]
  operations := by rw [h'.operations, h.operations, length_append, Nat.add_assoc]

theorem Ready.pendingDocs (h : Ready s index w schema last) (id : String) :
    s.pendingDocs id = under TantivyDocument.id (index.view w.buffer) id := by
  rw [Store.pendingDocs, h.dir, h.writer]

/-- A batch leaves an open index as its operations do one by one, and open. -/
theorem Ready.wrote (h : Ready s index w schema last) {lax : Prop} {base : List Txn} {s₀ : Store} {lim : Nat}
    (hlive : Live env lax base s₀ lim s) (hprep : prepareOps env w.fields schema ops (last + 1) = .ok prepared) :
    Wrote s (s.written env w last ops.length (schema.evolution env ops) prepared) prepared ∧
      ∃ w', w'.fields = w.fields ∧
        Ready (s.written env w last ops.length (schema.evolution env ops) prepared) index w' (schema.learned env ops)
          (last + ops.length) := by
  obtain ⟨-, -, hdocs⟩ := prepareOps_spec hprep
  have htables := s.tables_committed env last ops.length (schema.evolution env ops) prepared
  obtain ⟨indexed, d, m⟩ := hlive
  obtain ⟨index', hdir', hfields, -, hview, -⟩ := m.writer w h.writer
  obtain rfl : index' = index := by
    rw [h.dir] at hdir'
    cases hdir'
    rfl
  have hfinals : FinalsOk env.parsers w.fields schema.indexedFields s.tables.data
      (prepared.foldl writeRow s.tables.data) (finalOps s.tables.data prepared []) := finalOps_of_batch hdocs _
  let w' : Writer := { w with buffer := w.buffer ++ (finalOps s.tables.data prepared []).flatMap FinalEntry.edits }
  have hcache : (schema.evolution env ops).or s.mem.schemaCache = some (schema.learned env ops) := by
    rw [h.cache, IndexSchema.evolution_or]
  have hready : Ready (s.written env w last ops.length (schema.evolution env ops) prepared) index' w'
    (schema.learned env ops)
      (last + ops.length) := ⟨h.dir, rfl, h.fields, hcache, rfl, (SameDocs.learned env schema ops).state.trans h.active⟩
  refine ⟨⟨?_, ?_, ?_, rfl⟩, w', rfl, hready⟩
  · exact (congrArg Tables.data htables).trans (batchTxn_data ..)
  · show logOf (s.redb.commit _ (batchTxn _ prepared)).all = _
    rw [Db.all_commit, logOf_concat, batchTxn_log]
  · funext id
    have hfold : FinalDocs s.pendingDocs (prepared.foldl writeDocs s.pendingDocs)
        (finalOps s.tables.data prepared []) := finalOps_docs ⟨by simp, fun _ _ => rfl⟩
    obtain ⟨hin, hout⟩ := under_pass hfinals.nodup (fun e he doc hop => hfinals.op_id he hop)
      (fun e he => hfinals.edits_target he) (index'.view w.buffer)
      fun e he => hfinals.clean he (hfields ▸ hview e.id)
    rw [hready.pendingDocs, TantivyIndex.view, applyAll_append]
    by_cases hid : id ∈ (finalOps s.tables.data prepared []).map FinalEntry.id
    · obtain ⟨e, he, rfl⟩ := mem_map.mp hid
      rw [← hfold.named e he]
      exact hin e he
    · rw [hfold.other id hid, h.pendingDocs]
      exact hout id hid

end Ready

end CameoDb
