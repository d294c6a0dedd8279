import CameoDb.Theorems.Storage.Open

namespace CameoDb
open List PreparedOp Edit Std Crash

/-! # Applying a batch

The edits of a batch, one per id, bring the writer from the rows before it to the rows after it. -/

/-! ### Preparing -/

def PreparedOp.DocOk (p : Parsers) (fields : SchemaFields) (indexed : FieldMap) (op : PreparedOp) :
    Prop :=
  ∀ row doc, op.kind = .put row doc → doc = fields.rowDocument p indexed op.id op.seq row

/-- A prepared operation as the log will name it. -/
def PreparedOp.logged (op : PreparedOp) : Nat × String := (op.seq, op.id)

section Prepare
variable {env : Env} {fields : SchemaFields} {schema : IndexSchema}

theorem prepareOp_spec {op : WalOp} {seq : Nat} {prepared : PreparedOp}
    (h : prepareOp env fields schema op seq = .ok prepared) :
    prepared.seq = seq ∧ prepared.id = op.id ∧ prepared.DocOk env.parsers fields schema.indexedFields := by
  cases op with
  | delete id =>
    cases h
    exact ⟨rfl, rfl, fun _ _ h => by simp at h⟩
  | put id blob =>
    unfold prepareOp at h
    dsimp only at h
    generalize (if (schema.hasShadowFields || schema.hasGhostFields) = true then
      blob.map (filterUnstoredFieldsOwned schema)
      else blob) = row at h
    cases hdoc : fields.document env.parsers schema id seq row .refuse with
    | error e => simp [hdoc, Except.map] at h
    | ok doc =>
      rw [hdoc] at h
      cases h
      refine ⟨rfl, rfl, fun _ _ h => ?_⟩
      cases h
      exact SchemaFields.document_refuse hdoc

theorem prepareOps_cons {op : WalOp} {rest : List WalOp} {start : Nat} {prepared : List PreparedOp}
    (h : prepareOps env fields schema (op :: rest) start = .ok prepared) :
    ∃ first others, prepareOp env fields schema op start = .ok first ∧
      prepareOps env fields schema rest (start + 1) = .ok others ∧ prepared = first :: others := by
  unfold prepareOps at h
  cases hop : prepareOp env fields schema op start with
  | error e => simp [hop] at h
  | ok first =>
    cases hrest : prepareOps env fields schema rest (start + 1) with
    | error e => simp [hop, hrest, Except.map] at h
    | ok others =>
      simp only [hop, hrest, Except.map, Except.ok.injEq] at h
      exact ⟨first, others, rfl, rfl, h.symm⟩

theorem prepareOps_spec {ops : List WalOp} {start : Nat} {prepared : List PreparedOp}
    (h : prepareOps env fields schema ops start = .ok prepared) :
    prepared.map PreparedOp.seq = range' start ops.length ∧ prepared.map PreparedOp.id = ops.map WalOp.id ∧
      ∀ op ∈ prepared, op.DocOk env.parsers fields schema.indexedFields := by
  induction ops generalizing start prepared with
  | nil =>
    cases h
    simp
  | cons op rest ih =>
    obtain ⟨first, others, hop, hrest, rfl⟩ := prepareOps_cons h
    obtain ⟨hseq, hid, hdoc⟩ := prepareOp_spec hop
    obtain ⟨hseqs, hids, hdocs⟩ := ih hrest
    refine ⟨?_, ?_, by simpa using ⟨hdoc, hdocs⟩⟩
    · simp [range'_succ, hseqs, hseq]
    · simp [hids, hid]

end Prepare

/-! ### The transaction -/

section Txn
variable {evolved : Option IndexSchema} {prepared : List PreparedOp}

/-- The stored bodies by id. -/
abbrev DataTable := ExtTreeMap String (Option JsonValue)

def PreparedOp.writeRow (data : DataTable) (op : PreparedOp) : DataTable :=
  match op.kind with
  | .put row _ => data.insert op.id row
  | .delete => data.erase op.id

theorem run_append (t : Tables) (xs ys : List TableWrite) : t.run (xs ++ ys) = (t.run xs).run ys := by
  simp [Tables.run]

theorem writes_run (t : Tables) (op : PreparedOp) :
    t.run op.writes = { t with wal := t.wal.insert op.seq (.idOnly op.id), data := op.writeRow t.data } := by
  unfold PreparedOp.writes writeRow
  cases op.kind <;> rfl

theorem schemaRun (t : Tables) (evolved : Option IndexSchema) :
    t.run (evolved.toList.map .schemaInsert) = { t with schema := evolved.or t.schema } := by
  cases evolved <;> rfl

def walInserts (entries : List (Nat × String)) (wal : ExtTreeMap Nat WalEntry) : ExtTreeMap Nat WalEntry :=
  entries.foldl (fun wal entry => wal.insert entry.1 (.idOnly entry.2)) wal

theorem flatMap_writes_run (t : Tables) (prepared : List PreparedOp) : t.run (prepared.flatMap PreparedOp.writes) =
    { t with wal := walInserts (prepared.map PreparedOp.logged) t.wal, data := prepared.foldl writeRow t.data } := by
  induction prepared generalizing t with
  | nil => rfl
  | cons op rest ih =>
    rw [flatMap_cons, run_append, writes_run]
    exact ih _

theorem batchTxn_run (t : Tables) : t.run (batchTxn evolved prepared) =
    { t with wal := walInserts (prepared.map PreparedOp.logged) t.wal, data := prepared.foldl writeRow t.data,
             schema := evolved.or t.schema } := by
  rw [batchTxn, run_append, schemaRun]
  exact flatMap_writes_run _ prepared

theorem batchTxn_data (t : Tables) : (t.run (batchTxn evolved prepared)).data = prepared.foldl writeRow t.data := by
  rw [batchTxn_run]

theorem batchTxn_schema (t : Tables) : (t.run (batchTxn evolved prepared)).schema = evolved.or t.schema := by
  rw [batchTxn_run]

theorem batchTxn_persisted (t : Tables) : (t.run (batchTxn evolved prepared)).persisted = t.persisted := by
  rw [batchTxn_run]
  rfl

theorem writes_log (op : PreparedOp) (log : List (Nat × String)) :
    op.writes.foldl logWrite log = log ++ [op.logged] := by
  unfold PreparedOp.writes
  cases op.kind <;> rfl

theorem flatMap_writes_log (prepared : List PreparedOp) (log : List (Nat × String)) :
    (prepared.flatMap PreparedOp.writes).foldl logWrite log = log ++ prepared.map PreparedOp.logged := by
  induction prepared generalizing log with
  | nil => simp
  | cons op rest ih => simp [flatMap_cons, foldl_append, writes_log, ih]

theorem schema_log (evolved : Option IndexSchema) (log : List (Nat × String)) :
    (evolved.toList.map TableWrite.schemaInsert).foldl logWrite log = log := by
  cases evolved <;> rfl

theorem batchTxn_log (log : List (Nat × String)) :
    (batchTxn evolved prepared).foldl logWrite log = log ++ prepared.map PreparedOp.logged := by
  rw [batchTxn, foldl_append, schema_log, flatMap_writes_log]

theorem logOf_batchTxn : logOf [batchTxn evolved prepared] = prepared.map PreparedOp.logged := by
  rw [← nil_append [batchTxn evolved prepared], logOf_concat, batchTxn_log]
  rfl

theorem mem_batchTxn {w : TableWrite} (h : w ∈ batchTxn evolved prepared) :
    (∃ schema, w = .schemaInsert schema) ∨ ∃ op ∈ prepared, w ∈ op.writes := by
  rcases mem_append.mp h with h | h
  · obtain ⟨schema, -, rfl⟩ := mem_map.mp h
    exact Or.inl ⟨schema, rfl⟩
  · exact Or.inr (mem_flatMap.mp h)

theorem batchTxn_ok : TxnOk (batchTxn evolved prepared) where
  keeps := fun w hw => by
    rcases mem_batchTxn hw with ⟨schema, rfl⟩ | ⟨op, -, hop⟩
    · simp
    · unfold PreparedOp.writes at hop
      cases hk : op.kind <;> rw [hk] at hop <;> simp only [mem_cons, not_mem_nil, or_false] at hop <;>
        rcases hop with rfl | rfl <;> simp
  logged := fun id hid => by
    have key : ∃ op ∈ prepared, op.id = id := by
      rcases hid with ⟨row, hw⟩ | hw <;>
        · rcases mem_batchTxn hw with ⟨schema, h⟩ | ⟨op, hmem, hop⟩
          · cases h
          · refine ⟨op, hmem, ?_⟩
            unfold PreparedOp.writes at hop
            cases hk : op.kind <;> rw [hk] at hop <;> simp at hop
            simp [hop]
    obtain ⟨op, hmem, rfl⟩ := key
    exact ⟨op.seq, by rw [logOf_batchTxn]; exact mem_map_of_mem hmem⟩

theorem WalMatches.batch {t : Tables} {log : List (Nat × String)} (h : WalMatches t log)
    (sorted : (log ++ prepared.map PreparedOp.logged).Pairwise fun a b => a.1 < b.1)
    (above : ∀ op ∈ prepared, t.persisted < op.seq) :
    WalMatches (t.run (batchTxn evolved prepared)) (log ++ prepared.map PreparedOp.logged) := by
  have hschema : WalMatches (t.run (evolved.toList.map .schemaInsert)) log := by
    rw [schemaRun]
    exact h
  rw [batchTxn, run_append]
  have hpers : (t.run (evolved.toList.map .schemaInsert)).persisted = t.persisted := by
    rw [schemaRun]
    rfl
  rw [← hpers] at above
  generalize t.run (evolved.toList.map .schemaInsert) = t' at hschema above
  clear hpers h
  induction prepared generalizing t' log with
  | nil => simpa [Tables.run] using hschema
  | cons op rest ih =>
    have hone : WalMatches (t'.run op.writes) (log ++ [op.logged]) := by
      have hins : WalMatches (t'.write (.walInsert op.seq (.idOnly op.id)))
          (logWrite log (.walInsert op.seq (.idOnly op.id))) := hschema.walInsert _
        (fun e he => (pairwise_append.mp sorted).2.2 e he op.logged (by simp)) (above op (mem_cons_self ..))
      rw [writes_run]
      exact hins
    rw [flatMap_cons, run_append]
    have hsorted : (log ++ [op.logged] ++ rest.map PreparedOp.logged).Pairwise fun a b => a.1 < b.1 := by
      simpa using sorted
    have := ih hsorted (t'.run op.writes) hone fun op' hop' => by
      rw [writes_run]
      exact above op' (mem_cons_of_mem _ hop')
    simpa using this

end Txn

/-! ### The final operation per id -/

/-- What `finals` says about the rows: an id it does not name is as it was, and an id it names once has the row of its
    last operation. -/
structure FinalsOk (p : Parsers) (fields : SchemaFields) (indexed : FieldMap)
    (before after : DataTable) (finals : List FinalEntry) : Prop where
  nodup : (finals.map FinalEntry.id).Nodup
  other : ∀ id, id ∉ finals.map FinalEntry.id → after[id]? = before[id]?
  existed : ∀ e ∈ finals, e.existedBefore = before.contains e.id
  deleted : ∀ e ∈ finals, e.op = none → after[e.id]? = none
  written : ∀ e ∈ finals, ∀ doc, e.op = some doc →
    ∃ row seq, after[e.id]? = some row ∧ doc = fields.rowDocument p indexed e.id seq row

section Finals
variable {p : Parsers} {fields : SchemaFields} {indexed : FieldMap}
  {before data : DataTable} {finals : List FinalEntry}

theorem recordFinal_ids (finals : List FinalEntry) (id : String) (touched : Bool) (op : Option TantivyDocument) :
    (recordFinal finals id touched op).map FinalEntry.id =
      if id ∈ finals.map FinalEntry.id then finals.map FinalEntry.id else finals.map FinalEntry.id ++ [id] := by
  have hany : finals.any (·.id = id) = true ↔ id ∈ finals.map FinalEntry.id := by simp
  unfold recordFinal
  by_cases h : id ∈ finals.map FinalEntry.id
  · rw [if_pos (hany.mpr h), if_pos h, map_map]
    apply map_congr_left
    intro e _
    by_cases he : e.id = id <;> simp [he]
  · rw [if_neg (fun hc => h (hany.mp hc)), if_neg h]
    simp

variable {id : String} {op : Option TantivyDocument} {prepared : List PreparedOp}

theorem mem_recordFinal {touched : Bool} {e : FinalEntry} (h : e ∈ recordFinal finals id touched op) :
    (e ∈ finals ∧ e.id ≠ id) ∨ (e.id = id ∧ e.op = op ∧
      ((∃ old ∈ finals, old.id = id ∧ e.existedBefore = old.existedBefore) ∨
        (id ∉ finals.map FinalEntry.id ∧ e.existedBefore = touched))) := by
  unfold recordFinal at h
  split at h
  · obtain ⟨old, hold, rfl⟩ := mem_map.mp h
    by_cases hid : old.id = id
    · exact Or.inr (by simpa [hid] using Or.inl ⟨old, hold, hid, rfl⟩)
    · exact Or.inl (by simpa [hid] using hold)
  · next hany =>
    rcases mem_append.mp h with h | h
    · refine Or.inl ⟨h, fun hid => hany ?_⟩
      simpa using ⟨e, h, hid⟩
    · obtain rfl := mem_singleton.mp h
      exact Or.inr ⟨rfl, rfl, Or.inr ⟨by simpa using hany, rfl⟩⟩

/-- One more operation: its id gets its row, and what its first appearance decided stays. -/
theorem FinalsOk.record (h : FinalsOk p fields indexed before data finals)
    {data' : DataTable}
    (other : ∀ k, k ≠ id → data'[k]? = data[k]?) (deleted : op = none → data'[id]? = none)
    (written : ∀ doc, op = some doc → ∃ row seq, data'[id]? = some row ∧
    doc = fields.rowDocument p indexed id seq row) :
    FinalsOk p fields indexed before data' (recordFinal finals id (data.contains id) op) where
  nodup := by
    rw [recordFinal_ids]
    split
    · exact h.nodup
    · next hid => exact nodup_append.mpr ⟨h.nodup, by simp, fun a ha b hb => by simp_all; grind⟩
  other := fun k hk => by
    rw [recordFinal_ids] at hk
    have hne : k ≠ id := by
      rintro rfl
      split at hk
      · next hid => exact hk hid
      · simp at hk
    have hk' : k ∉ finals.map FinalEntry.id := by
      split at hk
      · exact hk
      · exact fun hm => hk (mem_append_left _ hm)
    rw [other k hne, h.other k hk']
  existed := fun e he => by
    rcases mem_recordFinal he with ⟨hmem, -⟩ | ⟨rfl, -, ⟨old, hold, hid, heq⟩ | ⟨hnew, heq⟩⟩
    · exact h.existed e hmem
    · rw [heq, h.existed old hold, hid]
    · rw [heq, ExtTreeMap.contains_eq_isSome_getElem?, ExtTreeMap.contains_eq_isSome_getElem?, h.other _ hnew]
  deleted := fun e he hop => by
    rcases mem_recordFinal he with ⟨hmem, hne⟩ | ⟨rfl, heq, -⟩
    · rw [other _ hne]
      exact h.deleted e hmem hop
    · exact deleted (heq ▸ hop)
  written := fun e he doc hop => by
    rcases mem_recordFinal he with ⟨hmem, hne⟩ | ⟨rfl, heq, -⟩
    · rw [other _ hne]
      exact h.written e hmem doc hop
    · exact written doc (heq ▸ hop)

/-- The final operations of a batch say what its rows are. -/
theorem finalOps_ok (hdocs : ∀ op ∈ prepared, op.DocOk p fields indexed)
    (h : FinalsOk p fields indexed before data finals) :
    FinalsOk p fields indexed before (prepared.foldl writeRow data) (finalOps data prepared finals) := by
  induction prepared generalizing data finals with
  | nil => exact h
  | cons op rest ih =>
    have hrest : ∀ op ∈ rest, op.DocOk p fields indexed := fun o ho => hdocs o (mem_cons_of_mem _ ho)
    rw [foldl_cons]
    unfold finalOps
    cases hk : op.kind with
    | put row doc =>
      have hrow : op.writeRow data = data.insert op.id row := by rw [writeRow, hk]
      rw [hrow]
      refine ih hrest (h.record (fun k hne => ?_) (by simp) fun doc' hdoc' => ⟨row, op.seq, by simp, ?_⟩)
      · simp [ExtTreeMap.getElem?_insert, hne.symm]
      · cases hdoc'
        exact hdocs op (mem_cons_self ..) row doc hk
    | delete =>
      have hrow : op.writeRow data = data.erase op.id := by rw [writeRow, hk]
      rw [hrow]
      refine ih hrest (h.record (fun k hne => ?_) (fun _ => by simp) (by simp))
      simp [ExtTreeMap.getElem?_erase, hne.symm]

theorem finalOps_of_batch (hdocs : ∀ op ∈ prepared, op.DocOk p fields indexed)
    (data : DataTable) :
    FinalsOk p fields indexed data (prepared.foldl writeRow data) (finalOps data prepared []) :=
  finalOps_ok hdocs ⟨by simp, fun _ _ => rfl, by simp, by simp, by simp⟩

end Finals

/-! ### The Tantivy pass -/

def FinalEntry.edits (e : FinalEntry) : Buffer :=
  (if e.existedBefore || e.op.isNone then [.deleteTerm e.id] else []) ++ e.op.toList.map .add

variable {e : FinalEntry} {docs : List TantivyDocument} {p : Parsers} {fields : SchemaFields}
  {old new : DataTable} {finals : List FinalEntry} {lax : Prop}
  {indexed used : FieldMap}

theorem under_edits (hid : ∀ doc, e.op = some doc → doc.id = e.id)
    (hclean : e.existedBefore = false → under TantivyDocument.id docs e.id = []) :
    under TantivyDocument.id (applyAll TantivyDocument.id docs e.edits) e.id = e.op.toList := by
  have hdel : under TantivyDocument.id (applyAll TantivyDocument.id docs
      (if e.existedBefore || e.op.isNone then [.deleteTerm e.id] else [])) e.id = [] := by
    split
    · exact under_deleteTerm_self docs e.id
    · next hc => exact hclean (by simp at hc; exact hc.1)
  unfold FinalEntry.edits
  rw [applyAll_append]
  cases hop : e.op with
  | none =>
    rw [hop] at hdel
    exact hdel
  | some doc =>
    rw [hop] at hdel
    simp only [Option.toList_some, map_cons, map_nil, applyAll_cons, applyAll_nil]
    rw [under_add_self _ (hid doc hop), hdel]
    rfl

theorem FinalsOk.op_id {used : FieldMap} (h : FinalsOk p fields used old new finals) (he : e ∈ finals)
    {doc : TantivyDocument} (hop : e.op = some doc) : doc.id = e.id := by
  obtain ⟨row, seq, -, rfl⟩ := h.written e he doc hop
  rfl

/-- A batch adds a document without deleting first only where redb held no row, and then there is nothing to delete. -/
theorem FinalsOk.clean {old : Tables} (h : FinalsOk p fields used old.data new finals) (he : e ∈ finals)
    (hold : Reflects p lax fields indexed docs old e.id) (hnew : e.existedBefore = false) :
    under TantivyDocument.id docs e.id = [] := by
  rw [h.existed e he, ExtTreeMap.contains_eq_isSome_getElem?] at hnew
  have hnone : old.data[e.id]? = none := Option.not_isSome_iff_eq_none.mp (by rw [hnew]; simp)
  unfold Reflects at hold
  rw [hnone] at hold
  exact hold

theorem FinalsOk.edits_target {indexed : FieldMap} (h : FinalsOk p fields indexed old new finals)
    (he : e ∈ finals) : ∀ x ∈ e.edits, target TantivyDocument.id x = e.id := by
  intro x hx
  rcases mem_append.mp hx with hx | hx
  · split at hx
    · obtain rfl := mem_singleton.mp hx
      rfl
    · simp at hx
  · obtain ⟨doc, hdoc, rfl⟩ := mem_map.mp hx
    exact h.op_id he (by simpa using hdoc)

/-- A whole pass leaves each id it names the document of its last operation, and every other id as it was. -/
theorem under_pass (hnodup : (finals.map FinalEntry.id).Nodup)
    (hid : ∀ e ∈ finals, ∀ doc, e.op = some doc → doc.id = e.id)
    (htarget : ∀ e ∈ finals, ∀ x ∈ e.edits, target TantivyDocument.id x = e.id) (docs : List TantivyDocument)
    (hclean : ∀ e ∈ finals, e.existedBefore = false → under TantivyDocument.id docs e.id = []) :
    (∀ e ∈ finals, under TantivyDocument.id
        (applyAll TantivyDocument.id docs (finals.flatMap FinalEntry.edits)) e.id = e.op.toList) ∧
      ∀ id, id ∉ finals.map FinalEntry.id → under TantivyDocument.id
        (applyAll TantivyDocument.id docs (finals.flatMap FinalEntry.edits)) id =
          under TantivyDocument.id docs id := by
  induction finals generalizing docs with
  | nil => exact ⟨by simp, fun _ _ => rfl⟩
  | cons first rest ih =>
    obtain ⟨hnot, hnodup'⟩ := nodup_cons.mp hnodup
    have keep : ∀ id, id ≠ first.id → under TantivyDocument.id
        (applyAll TantivyDocument.id docs first.edits) id = under TantivyDocument.id docs id := fun id hne =>
      under_applyAll_of_ne (fun x hx => by
        rw [htarget first (mem_cons_self ..) x hx]
        exact hne.symm) docs
    obtain ⟨hin, hout⟩ := ih hnodup' (fun e he => hid e (mem_cons_of_mem _ he))
      (fun e he => htarget e (mem_cons_of_mem _ he)) (applyAll TantivyDocument.id docs first.edits)
      fun e he hnew => by
        rw [keep e.id fun hc => hnot (hc ▸ mem_map_of_mem he)]
        exact hclean e (mem_cons_of_mem _ he) hnew
    rw [flatMap_cons, applyAll_append]
    refine ⟨fun e he => ?_, fun id hnotin => ?_⟩
    · rcases mem_cons.mp he with rfl | he
      · rw [hout e.id hnot]
        exact under_edits (hid e (mem_cons_self ..)) (hclean e (mem_cons_self ..))
      · exact hin e he
    · rw [map_cons, mem_cons, not_or] at hnotin
      rw [hout id hnotin.2, keep id hnotin.1]

theorem FinalsOk.reflects_all {old new : Tables} (h : FinalsOk p fields used old.data new.data finals)
    (hused : lax ∨ used = indexed) (hold : ∀ id, Reflects p lax fields indexed docs old id) (id : String) :
    Reflects p lax fields indexed (applyAll TantivyDocument.id docs (finals.flatMap FinalEntry.edits)) new id := by
  obtain ⟨hnamed, hother⟩ := under_pass h.nodup (fun e he _ hop => h.op_id he hop) (fun e he => h.edits_target he) docs
    fun e he hnew => h.clean he (hold e.id) hnew
  by_cases hid : id ∈ finals.map FinalEntry.id
  · obtain ⟨e, he, rfl⟩ := mem_map.mp hid
    unfold Reflects
    rw [hnamed e he]
    cases hop : e.op with
    | none =>
      rw [h.deleted e he hop]
      rfl
    | some doc =>
      obtain ⟨row, seq, hrow, rfl⟩ := h.written e he doc hop
      rw [hrow]
      exact ⟨seq, used, hused, rfl⟩
  · exact (hold id).congr (hother id hid) (h.other id hid)

section Pass
variable {env : Env} {lax : Prop} {base : List Txn} {s₀ s : Store} {lim : Nat}
  {indexed used : FieldMap}
  {finals : List FinalEntry}

def Store.bufferAll (s : Store) (edits : Buffer) : Store :=
  s.setMem fun m => { m with writer := m.writer.map fun w => { w with buffer := w.buffer ++ edits } }

theorem Store.bufferAll_nil (s : Store) : s.bufferAll [] = s := by
  simp [bufferAll, setMem]

theorem Store.bufferAll_append (s : Store) (edits more : Buffer) :
    (s.bufferAll edits).bufferAll more = s.bufferAll (edits ++ more) := by
  simp [bufferAll, setMem, Option.map_map, Function.comp_def]

/-- How a pass with these edits ends: with all of them in the buffer, or at an add that failed or was where the
    process stopped. -/
inductive PassEnds (s : Store) (edits : Buffer) (fates : List Fate) : Result Store StoreError Bool → Prop where
  | done {rest : List Fate} (used : rest <:+ fates) : PassEnds s edits fates ⟨.ok false, rest, s.bufferAll edits⟩
  | died {rest : List Fate} (part : Buffer) (failed : .fail ∈ fates) : PassEnds s edits fates
      ⟨.ok true, rest, s.bufferAll part⟩
  | crashed {rest : List Fate} (part : Buffer) (stopped : .crash ∈ fates) : PassEnds s edits fates
      ⟨.crashed, rest, s.bufferAll part⟩

theorem PassEnds.after {x y : Buffer} {fates fates' : List Fate} {r : Result Store StoreError Bool}
    (h : PassEnds (s.bufferAll x) y fates' r) (hfates : fates' <:+ fates) : PassEnds s (x ++ y) fates r := by
  cases h with
  | done used =>
    rw [Store.bufferAll_append]
    exact .done (used.trans hfates)
  | died part failed =>
    rw [Store.bufferAll_append]
    exact .died _ (hfates.subset failed)
  | crashed part stopped =>
    rw [Store.bufferAll_append]
    exact .crashed _ (hfates.subset stopped)

theorem tantivyPass_ends (finals : List FinalEntry) (s : Store) (fates : List Fate) :
    PassEnds s (finals.flatMap FinalEntry.edits) fates (tantivyPass finals fates s) := by
  induction finals generalizing s fates with
  | nil =>
    have hdone := @PassEnds.done s [] fates fates suffix_rfl
    rwa [Store.bufferAll_nil] at hdone
  | cons e rest ih =>
    have hfirst : (if (e.existedBefore || e.op.isNone) = true then bufferEdit (.deleteTerm e.id) s else s) =
        s.bufferAll (if e.existedBefore || e.op.isNone then [.deleteTerm e.id] else []) := by
      split
      · rfl
      · exact s.bufferAll_nil.symm
    rw [tantivyPass, Prog.bind_apply]
    simp only [Prog.modify]
    rw [hfirst, flatMap_cons, FinalEntry.edits]
    cases e.op with
    | none =>
      rw [Option.toList_none, map_nil, append_nil]
      exact (ih _ fates).after suffix_rfl
    | some doc =>
      rw [append_assoc]
      rcases fates with _ | ⟨_ | _ | _, fates⟩
      · exact ((ih _ []).after (x := [.add doc]) suffix_rfl).after suffix_rfl
      · exact ((ih _ fates).after (x := [.add doc]) (suffix_cons _ _)).after suffix_rfl
      · exact .died _ mem_cons_self
      · exact .crashed _ mem_cons_self

theorem wp_tantivyPass {Q : Post Store StoreError Bool}
    (done : Q.ok false (s.bufferAll (finals.flatMap FinalEntry.edits)))
    (died : ∀ part, Q.ok true (s.bufferAll part)) (crash : ∀ part, Q.crashed (s.bufferAll part)) :
    wp (tantivyPass finals) Q s := by
  intro fates
  have hends := tantivyPass_ends finals s fates
  generalize tantivyPass finals fates s = r at hends
  cases hends with
  | done => exact done
  | died part => exact died part
  | crashed part => exact crash part

variable {w : Writer} {prepared : List PreparedOp} {index : TantivyIndex}

theorem wp_indexBatch (hlim : lim < u64Limit - 1) (hprep : prepared ≠ []) (d : Disk env lax base s₀ lim indexed s)
    (m : MemOk env lax lim indexed s.dropWriter) (hseq : s.mem.currentSeq.isSome = true) (hw : s.mem.writer = some w)
    (hdir : s.dir = .built index) (hfields : w.fields = index.fields)
    (hrefl : ∀ id, Reflects env.parsers lax index.fields indexed
    (index.view (w.buffer ++ finals.flatMap FinalEntry.edits)) s.tables id) : wp (indexBatch env prepared finals)
      (orLive env lax base s₀ lim fun _ s' => Live env lax base s₀ lim s') s := by
  refine wp_bind (wp_tantivyPass ?_ (fun part => ?_) fun part => ⟨indexed, d.setMem _⟩)
  · refine wp_modify_bind (wp_pure ⟨indexed, (d.setMem _).setMem _, { m with writer := fun w' hw' => ?_ }⟩)
    obtain rfl : { w with buffer := w.buffer ++ finals.flatMap FinalEntry.edits } = w' := by
      simpa [Store.bufferAll, Store.setMem, hw] using hw'
    refine ⟨index, hdir, hfields, hseq, hrefl, fun hz => ?_⟩
    have hlen : prepared.length ≠ 0 := fun hc => hprep (length_eq_zero_iff.mp hc)
    have : s.mem.operations + prepared.length = 0 := hz
    omega
  · exact wp_bind (wp_imp (wp_reopenAfterDeadWriter hlim ⟨indexed, (d.setMem _).setMem _, m⟩) fun _ _ h => wp_pure h)

theorem wp_writeBatch {lim' n : Nat} (hlim : lim' < u64Limit - 1) (hle : lim ≤ lim')
    (d : Disk env lax base s₀ lim indexed s)
    (m : MemOk env lax lim' indexed s) (hw : s.mem.writer = some w) (hn : s.mem.currentSeq = some n)
    (hprep : prepared ≠ [])
    (hdocs : ∀ op ∈ prepared, op.DocOk env.parsers w.fields used) (hused : lax ∨ used = indexed)
    (hsorted : (logOf s.redb.all ++ prepared.map PreparedOp.logged).Pairwise fun a b => a.1 < b.1)
    (hnew : ∀ op ∈ prepared, s.dir.stamp < op.seq ∧ op.seq ≤ n) {evolved : Option IndexSchema}
    (hevolved : ∀ schema, evolved = some schema → lax ∨ schema.indexedFields = indexed ∧ Names w.fields schema) :
    wp (writeBatch env evolved prepared)
      (orLive env lax base s₀ lim' fun _ s' => Live env lax base s₀ lim' s') s := by
  obtain ⟨index, hdir, hfields, hsome, hview, -⟩ := m.writer w hw
  obtain ⟨-, hnle, hlogn⟩ := m.seq n hn
  obtain ⟨hwal, hpers⟩ := d.wal _ (between_all s.redb)
  have hlog : logOf (s.redb.all ++ [batchTxn evolved prepared]) =
      logOf s.redb.all ++ prepared.map PreparedOp.logged := by rw [logOf_concat, batchTxn_log]
  have hafter : ∀ immediate, Tables.after (s.redb.commit immediate (batchTxn evolved prepared)).all =
      s.tables.run (batchTxn evolved prepared) := fun _ => by
    rw [Db.all_commit, after_concat]
    rfl
  have hmem : ∀ e ∈ logOf [batchTxn evolved prepared], s.dir.stamp < e.1 ∧ e.1 ≤ n := by
    rw [logOf_batchTxn]
    rintro e he
    obtain ⟨op, hop, rfl⟩ := mem_map.mp he
    exact hnew op hop
  have hschema :
      lax ∨ (mergeDerived (s.tables.run (batchTxn evolved prepared)).schema index.fields).indexedFields = indexed := by
    rw [batchTxn_schema]
    cases hev : evolved with
    | none => exact (d.built index hdir).schema _ (between_all _)
    | some schema =>
      refine (hevolved schema hev).imp_right fun ⟨hidx, hnames⟩ => ?_
      rw [Option.some_or, mergeDerived_of_names (hfields ▸ hnames), hidx]
  refine wp_gets_bind ?_
  refine wp_step_bind ?_ ⟨indexed, d.mono hle, m⟩ ⟨indexed, d.mono hle⟩
  have d' : Disk env lax base s₀ lim' indexed
      { s with redb := s.redb.commit (env.config.walSync || evolved.isSome) (batchTxn evolved prepared) } := by
    refine d.commit hle (fun h => by simp [h]) batchTxn_ok (by rw [logOf_batchTxn]; exact hsorted)
      (fun e he => ⟨(hmem e he).1, (hmem e he).2.trans hnle⟩) ?_ (fun index' h => ?_) fun hno => absurd hdir (hno index)
    · rw [after_concat, hlog]
      exact ⟨hwal.batch hsorted fun op hop => Nat.lt_of_le_of_lt hpers (hnew op hop).1, by
        rw [batchTxn_persisted]
        exact hpers⟩
    · rw [hdir] at h
      cases h
      rw [after_concat]
      exact hschema
  have hfinals : FinalsOk env.parsers w.fields used s.tables.data
      (s.tables.run (batchTxn evolved prepared)).data (finalOps s.tables.data prepared []) := by
    rw [batchTxn_data]
    exact finalOps_of_batch hdocs _
  rw [hfields] at hfinals
  refine wp_modify_bind (wp_indexBatch hlim hprep (d'.setMem _) ?_ hsome hw hdir hfields fun id => ?_)
  · refine
      { cache := fun schema index' h h' => ?_
        cache_row := fun hno => absurd hdir (hno index)
        fields := m.fields
        seq := fun k hk => ?_
        writer := fun _ h => by simp [Store.dropWriter, Store.setMem] at h }
    · have h : evolved.or s.mem.schemaCache = some schema := h
      cases hev : evolved with
      | none =>
        rw [hev, Option.none_or] at h
        exact m.cache schema index' h h'
      | some ev =>
        rw [hev, Option.some_or] at h
        have h' : s.dir = .built index' := h'
        rw [hdir] at h'
        cases h'
        exact hfields ▸ hevolved schema (hev.trans h)
    · obtain rfl : n = k := Option.some.inj (hn.symm.trans hk)
      refine ⟨(m.seq n hn).1, hnle, fun e he => ?_⟩
      have he : e ∈ logOf (s.redb.commit (env.config.walSync || evolved.isSome) (batchTxn evolved prepared)).all := he
      rw [Db.all_commit, logOf_append (by simpa using batchTxn_ok)] at he
      rcases mem_append.mp he with he | he
      · exact hlogn e he
      · exact (hmem e he).2
  · rw [TantivyIndex.view, applyAll_append]
    refine FinalsOk.reflects_all ?_ hused hview id
    show FinalsOk _ _ _ _ (Tables.after (s.redb.commit _ (batchTxn evolved prepared)).all).data _
    rw [hafter]
    exact hfinals

end Pass

/-! ### The whole batch -/

section Apply
variable {env : Env} {lax : Prop} {base : List Txn} {s₀ s : Store} {lim lim' : Nat}
  {indexed : FieldMap}

theorem Live.mono (h : Live env lax base s₀ lim s) (hle : lim ≤ lim') : Live env lax base s₀ lim' s :=
  have ⟨indexed, d, m⟩ := h
  ⟨indexed, d.mono hle, m.mono hle⟩

theorem Safe.mono (h : Safe env lax base s₀ lim s) (hle : lim ≤ lim') : Safe env lax base s₀ lim' s :=
  have ⟨indexed, d⟩ := h
  ⟨indexed, d.mono hle⟩

variable (env) in
theorem evolveBatch_spec (schema : IndexSchema) (ops : List WalOp) :
    (evolveBatch env schema ops).1.indexedFields = schema.indexedFields ∧
      ∀ name ∈ schema.fields, name ∈ (evolveBatch env schema ops).1.fields := by
  induction schema, ops using evolveBatch.induct env with
  | case1 schema => exact ⟨rfl, fun _ h => h⟩
  | case2 schema id blob rest evolved names hev final more hrec ih =>
    have hone := IndexSchema.evolveFromDocument_indexedFields env.parsers schema blob
    have hkeep : ∀ name ∈ schema.fields, name ∈ evolved.fields := fun name h => by
      have := IndexSchema.mem_evolveFromDocument (p := env.parsers) h blob
      rwa [hev] at this
    rw [hev] at hone
    rw [hrec] at ih
    simp only [evolveBatch, hev, hrec]
    exact ⟨ih.1.trans hone, fun name h => ih.2 name (hkeep name h)⟩
  | case3 schema op rest hop ih =>
    have : evolveBatch env schema (op :: rest) = evolveBatch env schema rest := by
      cases op with
      | delete id => rfl
      | put id blob =>
        cases blob with
        | none => rfl
        | some blob => exact absurd rfl (hop id blob)
    rw [this]
    exact ih

variable {Q : Post Store StoreError Bool} {last : Nat}

theorem wp_indexExists (ok : ∀ b, Q.ok b s) (crash : Q.crashed s) : wp indexExists Q s := by
  refine wp_gets_bind ?_
  split
  · exact wp_pure (ok _)
  · split
    · exact wp_pure (ok _)
    · exact wp_bind (wp_attempt (wp_beginRead (wp_pure (ok _)) (wp_pure (ok _)) crash))

theorem wp_indexWasDropped (ok : ∀ b, Q.ok b s) (crash : Q.crashed s) : wp indexWasDropped Q s := by
  refine wp_gets_bind ?_
  split
  · exact wp_pure (ok _)
  · exact wp_bind (wp_attempt (wp_beginRead (wp_pure (ok _)) (wp_pure (ok _)) crash))

theorem wp_admitBatch (ops : List WalOp) {Q : Post Store StoreError Unit} (ok : Q.ok () s) (err : ∀ e, Q.error e s)
    (crash : Q.crashed s) : wp (admitBatch env ops) Q s := by
  have go : ∀ missing : Bool, wp (if missing then Prog.throw (.indexNotFound env.index) else do
      let dropped ← indexWasDropped
      if dropped then Prog.throw (.indexNotFound env.index) else pure () : StoreM Unit) Q s := by
    intro missing
    split
    · exact wp_throw (err _)
    · refine wp_bind (wp_indexWasDropped (fun dropped => ?_) crash)
      show wp _ _ _
      split
      · exact wp_throw (err _)
      · exact wp_pure ok
  refine wp_bind ?_
  split
  · exact wp_bind (wp_indexExists (fun b => wp_pure (go _)) crash)
  · exact wp_pure (go _)

theorem wp_evolvedSchema (d : Disk env lax base s₀ lim indexed s) (m : MemOk env lax lim indexed s)
    {index : TantivyIndex} (hdir : s.dir = .built index) (schema : IndexSchema) (ops : List WalOp)
    {Q : Post Store StoreError (Option IndexSchema)}
    (ok : ∀ evolved cached, MemOk env lax lim indexed (s.withCache cached) →
      (∀ schema, evolved = some schema → lax ∨ schema.indexedFields = indexed ∧ Names index.fields schema) →
      Q.ok evolved (s.withCache cached))
    (err : ∀ e, Q.error e s) (crash : Q.crashed s) : wp (evolvedSchema env schema ops) Q s := by
  unfold evolvedSchema
  split
  · refine wp_bind (wp_getSchemaCached_frame ?_ err crash)
    obtain ⟨cur, hread, hcur⟩ := m.schemaRead_built d hdir
    refine wp_pure (ok _ _ (m.read d) fun schema' h => ?_)
    rw [hread] at h
    split at h
    · cases h
    · cases h
      obtain ⟨hsame, hkeep⟩ := evolveBatch_spec env cur ops
      exact hcur.imp_right fun ⟨hidx, hnames⟩ => ⟨hsame.trans hidx, fun name hname => hkeep name (hnames name hname)⟩
  · have hsame : s.withCache s.mem.schemaCache = s := rfl
    exact wp_pure (hsame ▸ ok none s.mem.schemaCache m (by simp))

/-- The state with the next `n` numbers taken. -/
def Store.reserved (s : Store) (last n : Nat) : Store := s.setMem fun m => { m with currentSeq := some (last + n) }

theorem MemOk.reserved (m : MemOk env lax lim indexed s) (hseq : s.mem.currentSeq = some last) (n : Nat) :
    MemOk env lax (lim + n) indexed (s.reserved last n) :=
  { m with
    seq := fun k hk => by
      obtain rfl : last + n = k := Option.some.inj hk
      obtain ⟨hstamp, hle, hlog⟩ := m.seq last hseq
      exact ⟨Nat.le_add_right_of_le hstamp, Nat.add_le_add_right hle n, fun e he => Nat.le_add_right_of_le (hlog e he)⟩
    writer := fun w hw => by
      obtain ⟨index, hdir, hfields, -, hrest⟩ := m.writer w hw
      exact ⟨index, hdir, hfields, rfl, hrest⟩ }

theorem wp_reserveSeqs (hseq : s.mem.currentSeq = some last) (n : Nat) {Q : Post Store StoreError Nat}
    (ok : Q.ok (last + 1) (s.reserved last n)) : wp (reserveSeqs env n) Q s := by
  refine wp_gets_bind ?_
  rw [hseq]
  exact wp_modify_bind (wp_pure ok)

/-- A batch gets the next numbers after the counter and leaves the index live, whatever fails on the way. -/
theorem wp_applyBatch (ops : List WalOp) (hlim : lim + ops.length < u64Limit - 1) (h : Live env lax base s₀ lim s) :
    wp (applyBatch env ops)
      (orLive env lax base s₀ (lim + ops.length) fun _ s' => Live env lax base s₀ (lim + ops.length) s') s := by
  have hle : lim ≤ lim + ops.length := Nat.le_add_right _ _
  unfold applyBatch
  split
  · exact wp_pure (h.mono hle)
  · next hops =>
    refine wp_bind (wp_admitBatch ops ?_ (fun _ => h.mono hle) (h.safe.mono hle))
    refine wp_bind (wp_bind (wp_mono (wp_getOrCreateIndex (by omega) h) ?_ (fun _ _ h => h.mono hle)
      fun _ h => h.mono hle))
    rintro fields s₁ ⟨indexed, h₁⟩
    obtain ⟨w, hw, rfl⟩ := h₁.writer
    obtain ⟨index, hdir, hfields, hsome, -⟩ := h₁.mem.writer w hw
    have live₁ := h₁.live.mono hle
    refine wp_bind (wp_getSchemaCached_frame ?_ (fun _ => live₁) live₁.safe)
    obtain ⟨schema, hread, hschema⟩ := h₁.mem.schemaRead_built h₁.disk hdir
    have m₂ := h₁.mem.read h₁.disk
    rw [hread] at m₂ ⊢
    have d₂ : Disk env lax base s₀ lim indexed (s₁.withCache (some schema)) := h₁.disk.setMem _
    have live₂ : Live env lax base s₀ (lim + ops.length) (s₁.withCache (some schema)) :=
      Live.mono ⟨indexed, d₂, m₂⟩ hle
    refine wp_pure (wp_bind ?_)
    refine wp_evolvedSchema d₂ m₂ hdir _ ops (fun evolved cached m₃ hevolved => ?_) (fun _ => live₂) live₂.safe
    have d₃ := d₂.setMem fun m => { m with schemaCache := cached }
    obtain ⟨last, hlast⟩ := Option.isSome_iff_exists.mp hsome
    have hlast₃ : ((s₁.withCache (some schema)).withCache cached).mem.currentSeq = some last := hlast
    refine wp_bind (wp_reserveSeqs hlast₃ ops.length ?_)
    have m₄ := m₃.reserved hlast₃ ops.length
    have d₄ := d₃.setMem fun m => { m with currentSeq := some (last + ops.length) }
    refine wp_bind (wp_ofExcept (fun prepared hprep => ?_) fun _ _ => ⟨indexed, d₄.mono hle, m₄⟩)
    obtain ⟨hseqs, hids, hdocs⟩ := prepareOps_spec hprep
    obtain ⟨hstamp, -, hlog⟩ := h₁.mem.seq last hlast
    have hrange : ∀ op ∈ prepared, last < op.seq ∧ op.seq ≤ last + ops.length := fun op hop => by
      have : op.seq ∈ range' (last + 1) ops.length := hseqs ▸ mem_map_of_mem hop
      rw [mem_range'_1] at this
      omega
    refine wp_writeBatch hlim hle d₄ m₄ hw rfl ?_ hdocs (hschema.imp_right And.left) ?_ ?_ (hfields ▸ hevolved)
    · rintro rfl
      simp at hids
      exact hops hids
    · refine pairwise_append.mpr ⟨h₁.disk.sorted, ?_, ?_⟩
      · rw [pairwise_map]
        have := pairwise_lt_range' (s := last + 1) (n := ops.length)
        rw [← hseqs, pairwise_map] at this
        exact this
      · rintro a ha b hb
        obtain ⟨op, hop, rfl⟩ := mem_map.mp hb
        exact Nat.lt_of_le_of_lt (hlog a ha) (hrange op hop).1
    · exact fun op hop => ⟨Nat.lt_of_le_of_lt hstamp (hrange op hop).1, (hrange op hop).2⟩

end Apply

end CameoDb
