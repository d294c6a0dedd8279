import CameoDb.Theorems.Storage.Quiet
import CameoDb.Theorems.Storage.Convergence
import Mathlib.Data.List.Dedup

namespace CameoDb
open List FinalEntry WalOp Store Std Crash

/-! # What an accepted batch does

The batch's operations are folded over the rows, and an index that shows its rows shows them again. -/

/-! ### The rows -/

def WalOp.writeRow (schema : IndexSchema) (data : DataTable) : WalOp → DataTable
  | .put id blob => data.insert id (blob.map (filterUnstoredFieldsOwned schema))
  | .delete id => data.erase id

section Rows
variable {env : Env} {fields : SchemaFields} {schema : IndexSchema}

theorem prepareOp_row {op : WalOp} {seq : Nat} {prepared : PreparedOp}
    (h : prepareOp env fields schema op seq = .ok prepared)
    (data : DataTable) : prepared.writeRow data = op.writeRow schema data := by
  cases op with
  | delete id =>
    cases h
    rfl
  | put id blob =>
    simp only [prepareOp, storedRow] at h
    cases hdoc : fields.document env.parsers schema id seq (blob.map (filterUnstoredFieldsOwned schema)) .refuse with
    | error e => simp [hdoc, Except.map] at h
    | ok doc =>
      rw [hdoc] at h
      cases h
      rfl

theorem prepareOps_rows {ops : List WalOp} {start : Nat} {prepared : List PreparedOp}
    (h : prepareOps env fields schema ops start = .ok prepared) (data : DataTable) :
    prepared.foldl PreparedOp.writeRow data = ops.foldl (writeRow schema) data := by
  induction ops generalizing start prepared data with
  | nil =>
    cases h
    rfl
  | cons op rest ih =>
    obtain ⟨first, others, hop, hrest, rfl⟩ := prepareOps_cons h
    rw [foldl_cons, foldl_cons, prepareOp_row hop, ih hrest]

def lastIsPut (ops : List WalOp) (id : String) : Bool :=
  ((ops.filter (·.id = id)).getLast?.map fun op => !op.isDelete).getD false

theorem lastIsPut_concat (ops : List WalOp) (op : WalOp) (id : String) :
    lastIsPut (ops ++ [op]) id = if op.id = id then !op.isDelete else lastIsPut ops id := by
  unfold lastIsPut
  rw [filter_append]
  by_cases h : op.id = id <;> simp [h]

theorem contains_foldl_writeRow (schema : IndexSchema) (ops : List WalOp)
    (data : DataTable) (id : String) : (ops.foldl (writeRow schema) data).contains id =
      if id ∈ ops.map WalOp.id then lastIsPut ops id else data.contains id := by
  induction ops using reverseRecOn with
  | nil => simp
  | append_singleton ops op ih =>
    rw [foldl_append, foldl_cons, foldl_nil, lastIsPut_concat]
    have hone : (op.writeRow schema (ops.foldl (writeRow schema) data)).contains id =
        if op.id = id then !op.isDelete else (ops.foldl (writeRow schema) data).contains id := by
      cases op with
      | put k blob => by_cases h : k = id <;> simp [writeRow, WalOp.id, isDelete, ExtTreeMap.contains_insert, h]
      | delete k => by_cases h : k = id <;> simp [writeRow, WalOp.id, isDelete, ExtTreeMap.contains_erase, h]
    rw [hone, ih]
    by_cases h : op.id = id <;> simp [h, Ne.symm]

end Rows

/-! ### The count -/

/-- The ids a batch gives their first row: their last operation is a put, and they had no row before it. -/
def newIds (ops : List WalOp) (data : DataTable) : List String :=
  (ops.map WalOp.id).dedup.filter fun id => lastIsPut ops id && !data.contains id

section Count
variable {env : Env} {fields : SchemaFields} {schema : IndexSchema} {data : DataTable}

theorem mem_recordFinal_ids (finals : List FinalEntry) (k : String) (touched : Bool)
    (op : Option TantivyDocument) (id : String) :
    id ∈ (recordFinal finals k touched op).map FinalEntry.id ↔ id ∈ finals.map FinalEntry.id ∨ id = k := by
  rw [recordFinal_ids]
  split
  · next hk => exact ⟨Or.inl, fun h => h.elim (fun h => h) fun h => h ▸ hk⟩
  · rw [mem_append, mem_singleton]

theorem mem_finalOps_ids (prepared : List PreparedOp) (data : DataTable)
    (finals : List FinalEntry) (id : String) : id ∈ (finalOps data prepared finals).map FinalEntry.id ↔
      id ∈ finals.map FinalEntry.id ∨ id ∈ prepared.map PreparedOp.id := by
  induction prepared generalizing data finals with
  | nil => simp [finalOps]
  | cons op rest ih =>
    unfold finalOps
    rw [map_cons, mem_cons, ← or_assoc]
    split
    · rw [ih, mem_recordFinal_ids]
    · rw [ih, mem_recordFinal_ids]

theorem newDocumentsCount_finalOps {ops : List WalOp} {start : Nat} {prepared : List PreparedOp}
    (h : prepareOps env fields schema ops start = .ok prepared) (data : DataTable) :
    newDocumentsCount (finalOps data prepared []) = (newIds ops data).length := by
  obtain ⟨-, hids, hdocs⟩ := prepareOps_spec h
  have hfinals := finalOps_of_batch hdocs data
  rw [prepareOps_rows h] at hfinals
  generalize hf : finalOps data prepared [] = finals at hfinals
  have hmem : ∀ id, id ∈ finals.map FinalEntry.id ↔ id ∈ ops.map WalOp.id := by
    intro id
    rw [← hf, mem_finalOps_ids, hids]
    simp
  -- What an entry says of its id is what the batch says of it.
  have hentry : ∀ e ∈ finals, (e.op.isSome && !e.existedBefore) = (lastIsPut ops e.id && !data.contains e.id) := by
    intro e he
    have hlast := contains_foldl_writeRow schema ops data e.id
    rw [if_pos ((hmem e.id).mp (mem_map_of_mem he)), ExtTreeMap.contains_eq_isSome_getElem?] at hlast
    rw [hfinals.existed e he, ← hlast]
    cases hop : e.op with
    | none => rw [hfinals.deleted e he hop]; rfl
    | some doc =>
      obtain ⟨row, -, hrow, -⟩ := hfinals.written e he doc hop
      rw [hrow]
      rfl
  have hperm : (finals.map FinalEntry.id).Perm (ops.map WalOp.id).dedup :=
    (perm_ext_iff_of_nodup hfinals.nodup (nodup_dedup _)).mpr fun id => by rw [hmem, mem_dedup]
  calc newDocumentsCount finals
      = ((finals.map FinalEntry.id).filter fun id => lastIsPut ops id && !data.contains id).length := by
        rw [newDocumentsCount, filter_congr hentry, filter_map, length_map]
        rfl
    _ = (newIds ops data).length := (hperm.filter _).length_eq

end Count

/-! ### The documents -/

/-- The writer and the cache have the index's columns. -/
structure Store.Coherent (s : Store) : Prop where
  writer : ∀ w, s.mem.writer = some w → s.dir.columns? = some w.fields
  fields : ∀ w fields, s.mem.writer = some w → s.mem.fieldsCache = some fields → fields = w.fields

/-- Tantivy, committed and buffered, holds one document for every row, the one built from it, and no other. -/
def Store.Mirrors (p : Parsers) (indexed : FieldMap) (s : Store) : Prop :=
  match s.dir with
  | .built index =>
    ∀ id, Reflects p False index.fields indexed (index.view (s.mem.writer.elim [] Writer.buffer)) s.tables id
  | _ => s.tables.data = ∅

/-- The index with what is buffered shows the rows. -/
def Shown (p : Parsers) (indexed : FieldMap) (fields : SchemaFields) (buffer : Buffer)
    (t : Tables) (dir : IndexDir) : Prop :=
  ∃ index, dir = .built index ∧ index.fields = fields ∧ ∀ id, Reflects p False fields indexed (index.view buffer) t id

section Shown
variable {p : Parsers} {indexed : FieldMap} {fields : SchemaFields} {buffer : Buffer}
  {t t' : Tables} {dir : IndexDir}

theorem Shown.congr (h : Shown p indexed fields buffer t dir) (hdata : t'.data = t.data) :
    Shown p indexed fields buffer t' dir := by
  obtain ⟨index, hdir, hfields, hrefl⟩ := h
  exact ⟨index, hdir, hfields, fun id => (hrefl id).congr rfl (by rw [hdata])⟩

/-- Edits of one id that bring it to its row leave every other as it is. -/
theorem Shown.edits (h : Shown p indexed fields buffer t dir) {id : String} {edits : Buffer}
    (htarget : ∀ e ∈ edits, Edit.target TantivyDocument.id e = id)
    (hrow : ∀ docs, Reflects p False fields indexed (Edit.applyAll TantivyDocument.id docs edits) t id) :
    Shown p indexed fields (buffer ++ edits) t dir := by
  obtain ⟨index, hdir, hfields, hrefl⟩ := h
  refine ⟨index, hdir, hfields, fun k => ?_⟩
  rw [TantivyIndex.view, Edit.applyAll_append]
  by_cases hk : k = id
  · rw [hk]
    exact hrow _
  · exact (hrefl k).congr
      (Edit.under_applyAll_of_ne (fun x hx => by rw [htarget x hx]; exact fun hc => hk hc.symm) _) rfl

theorem Shown.commit {index : TantivyIndex} (h : Shown p indexed fields buffer t (.built index))
    (payload : Option String) : Shown p indexed fields [] t (.built (index.commit buffer payload)) := by
  obtain ⟨index', hdir, hfields, hrefl⟩ := h
  cases hdir
  exact ⟨_, rfl, hfields, hrefl⟩

end Shown

section Opening
variable {env : Env} {s : Store} {indexed : FieldMap} {fields : SchemaFields}

theorem wp_replayEntries_shown {schema : IndexSchema} (hschema : schema.indexedFields = indexed) (t : Tables)
    (entries : List (Nat × WalEntry)) (r : Replay) (s : Store) (h : Shown env.parsers indexed fields r.buffer t s.dir) :
    wp (replayEntries env fields schema t entries r)
      (.returning fun r' s' => Shown env.parsers indexed fields r'.buffer t s'.dir) s := by
  induction entries generalizing r s with
  | nil => exact wp_pure h
  | cons x rest ih =>
    unfold replayEntries
    split
    · exact ih _ _ h
    · have hunder : False ∨ schema.indexedFields = indexed := Or.inr hschema
      refine wp_bind (wp_replayId hunder _ _ (fun edits htarget hrow => ?_) (fun _ => trivial) trivial)
      have hedits := h.edits htarget hrow
      dsimp only
      split
      · have commit : ∀ s', s'.dir = s.dir → wp (commitWriter (r.buffer ++ edits) (some x.1) >>= fun _ =>
            replayEntries env fields schema t rest ⟨[], decodeWalEntry x.2 :: r.applied, r.replayed + 1, 0⟩)
            (.returning fun r' s' => Shown env.parsers indexed fields r'.buffer t s'.dir) s' := by
          intro s' hdir'
          obtain ⟨index, hdir, -⟩ := id hedits
          refine wp_step_bind (ih _ _ ?_) trivial trivial
          rw [hdir', hdir]
          exact (hdir ▸ hedits).commit _
        unfold durabilityBarrier
        split
        · exact wp_bind (wp_pure (commit _ rfl))
        · exact wp_step_bind (commit _ rfl) trivial trivial
      · exact ih _ _ hedits

variable {index : TantivyIndex} {schema : IndexSchema × Option IndexSchema}

theorem wp_recoverIndex_shown (hholds : s.Holds schema)
    (h : Shown env.parsers schema.1.indexedFields index.fields [] s.tables s.dir) :
    wp (recoverIndex env index)
      (.returning fun r s' => Shown env.parsers schema.1.indexedFields index.fields r.buffer s.tables s'.dir) s := by
  refine wp_bind (wp_beginRead ?_ trivial trivial)
  refine wp_bind (wp_checkpointSeq_frame index (fun checkpoint s₁ hdir hmem hsame => ?_) (fun _ => trivial) trivial)
  have h₁ : Shown env.parsers schema.1.indexedFields index.fields [] s.tables s₁.dir := hdir ▸ h
  have hread : s₁.schemaRead = some schema.1 := by
    rw [schemaRead, hmem, hholds.cached]
    rfl
  dsimp only
  split
  · exact wp_pure h₁
  · split
    · refine wp_bind (wp_attempt ?_)
      unfold checkpointCommitted
      split
      · exact wp_pure (wp_pure h₁)
      · exact wp_step (wp_pure h₁) (wp_pure h₁) trivial
    · refine wp_bind (wp_beginRead ?_ trivial trivial)
      refine wp_bind (wp_getSchemaCached_frame ?_ (fun _ => trivial) trivial)
      rw [hread]
      refine wp_bind (wp_imp (wp_replayEntries_shown rfl s₁.tables _ ⟨[], [], 0, 0⟩ _ (h₁.congr hsame.data))
        (fun r s₂ h₂ => ?_))
      have h₂ := h₂.congr hsame.data.symm
      dsimp only
      split
      · exact wp_modify_bind (wp_pure h₂)
      · exact wp_pure h₂

structure Store.OpenMirror (p : Parsers) (indexed : FieldMap) (fields : SchemaFields)
    (s : Store) : Prop where
  writer : ∃ buffer, s.mem.writer = some ⟨fields, buffer⟩ ∧ Shown p indexed fields buffer s.tables s.dir

theorem Store.OpenMirror.mirrors (h : s.OpenMirror env.parsers indexed fields) : s.Mirrors env.parsers indexed := by
  obtain ⟨buffer, hw, index, hdir, rfl, hrefl⟩ := h.writer
  rw [Store.Mirrors, hdir, hw]
  exact hrefl

theorem wp_openWriter_mirror (hholds : s.Holds schema)
    (h : Shown env.parsers schema.1.indexedFields index.fields [] s.tables s.dir) :
    wp (openWriter env index)
      (.returning fun fields s' => fields = index.fields ∧ s'.OpenMirror env.parsers schema.1.indexedFields fields)
      s := by
  refine wp_step_bind ?_ trivial trivial
  refine wp_of_ok fun fates a rest s' hrun => ?_
  obtain ⟨r, between, s₁, hrecover, hrest⟩ := Prog.bind_eq_ok hrun
  have h₁ := (wp_recoverIndex_shown hholds h).of_ok hrecover
  have hkept := (wp_recoverIndex_reopens index (Reopened.refl s)).of_ok hrecover
  cases hrest
  exact ⟨rfl, r.buffer, rfl, h₁.congr hkept.data⟩

theorem Store.Coherent.built (h : s.Coherent) (hw : s.mem.writer.isSome = true) : s.dir.columns?.isSome = true := by
  obtain ⟨w, hw⟩ := Option.isSome_iff_exists.mp hw
  rw [h.writer w hw]
  rfl

theorem wp_getOrCreateIndex_mirror (hs : s.Coherent) (hm : s.Mirrors env.parsers s.openedSchema.1.indexedFields) :
    wp (getOrCreateIndex env)
      (.returning fun fields s' => s'.OpenMirror env.parsers s.openedSchema.1.indexedFields fields) s := by
  refine wp_getOrCreateIndex_of (fun w hw => ?_) (fun hw index hdir => ?_) (fun hw hno => ?_)
    (fun _ _ _ => trivial) fun _ _ => trivial
  · obtain ⟨index, hdir⟩ := IndexDir.built_of_columns? (hs.writer w hw)
    have hfields : index.fields = w.fields := by
      have := hs.writer w hw
      rw [hdir] at this
      exact Option.some.inj this
    have hcached : s.mem.fieldsCache.getD w.fields = w.fields := by
      cases hf : s.mem.fieldsCache with
      | none => rfl
      | some fields => exact hs.fields w fields hw hf
    rw [hcached]
    rw [Store.Mirrors, hdir, hw] at hm
    exact ⟨w.buffer, hw, index, hdir, hfields, hfields ▸ hm⟩
  · have hcols : s.dir.columns? = some index.fields := by rw [hdir]; rfl
    have hshown : Shown env.parsers s.openedSchema.1.indexedFields index.fields [] s.tables s.dir := by
      rw [Store.Mirrors, hdir, hw] at hm
      exact ⟨index, hdir, rfl, hm⟩
    exact wp_imp (wp_openWriter_mirror (holds_withCache hcols) hshown) fun _ _ h => h.2
  · -- Without an index on disk there is no row, and the new index has no document.
    have hdata : s.tables.data = ∅ := by
      cases hdir : s.dir with
      | built index => exact absurd hdir (hno index)
      | absent | bare => rwa [Store.Mirrors, hdir] at hm
    refine wp_bind (wp_createIndex_frame _ (fun index s₁ hdir hdocs hholds hdata₁ _ => ?_)
      (fun _ _ => trivial) fun _ => trivial)
    have hopened : (s.withCache s.schemaRead).createdSchema (s.schemaRead.getD .default) = s.openedSchema := by
      rw [openedSchema, IndexDir.columns?_eq_none hno]
    rw [hopened] at hholds
    refine wp_imp (wp_openWriter_mirror hholds ⟨index, hdir, rfl, fun id => ?_⟩) fun _ _ h => h.2
    have hnone : s₁.tables.data[id]? = none := by
      rw [hdata₁]
      show s.tables.data[id]? = none
      rw [hdata]
      exact ExtTreeMap.getElem?_empty
    unfold Reflects
    rw [hnone, TantivyIndex.view, hdocs]
    rfl

theorem wp_openForWrite_mirror (hs : s.Coherent) (hm : s.Mirrors env.parsers s.openedSchema.1.indexedFields) :
    wp (openForWrite env)
      (.returning fun opened s' => s'.OpenMirror env.parsers s.openedSchema.1.indexedFields opened.1) s := by
  refine wp_bind (wp_imp (wp_getOrCreateIndex_mirror hs hm) (fun fields s₁ h₁ => ?_))
  exact wp_bind (wp_getSchemaCached_frame (wp_pure ⟨h₁.writer⟩) (fun _ => trivial) trivial)

end Opening

section Batch
variable {env : Env} {s s' : Store} {fates rest : List Fate} {finals : List FinalEntry}

theorem tantivyPass_of_no_fail {w : Writer} {died : Bool} (hw : s.mem.writer = some w) (hno : .fail ∉ fates)
    (h : tantivyPass finals fates s = ⟨.ok died, rest, s'⟩) :
    died = false ∧ s' = s.withWriter { w with buffer := w.buffer ++ finals.flatMap edits } := by
  have hends := tantivyPass_ends finals s fates
  rw [h] at hends
  cases hends with
  | done => exact ⟨rfl, bufferAll_eq hw _⟩
  | died _ failed => exact absurd failed hno

/-- A batch during which no step fails keeps the documents those of the rows, from whatever state it starts. -/
theorem applyBatch_mirrors {ops : List WalOp} {r : List Nat × Nat} (hs : s.Coherent) (hops : ops ≠ [])
    (h : applyBatch env ops fates s = ⟨.ok r, rest, s'⟩) (hm : s.Mirrors env.parsers s.openedSchema.1.indexedFields)
    (hno : .fail ∉ fates) : s'.Mirrors env.parsers s.openedSchema.1.indexedFields := by
  obtain ⟨fates₁, fates₂, opened, s₁, hopen, happly, hno₂⟩ := applyBatch_ok hops h
  have hopened : OpenedFor s opened s₁ := (wp_openForWrite_frame hs.built).of_ok hopen
  obtain ⟨buffer, hw, index, hdir, hfields, hrefl⟩ := ((wp_openForWrite_mirror hs hm).of_ok hopen).writer
  rw [hopened.schema] at happly
  obtain ⟨last, prepared, fates', -, hprep, hindex, hno'⟩ := applyOpened_ok hopened.holds.cached happly
  generalize s.openedSchema.1.evolution env ops = evolved at hindex
  obtain ⟨died, between, s₂, hpass, hrest⟩ := Prog.bind_eq_ok hindex
  obtain ⟨rfl, rfl⟩ := tantivyPass_of_no_fail (s := s₁.committed env last ops.length evolved prepared) hw
    (hno' (hno₂ hno)) hpass
  cases hrest
  refine @Store.OpenMirror.mirrors env _ _ opened.1 ⟨_, rfl, index, hdir, hfields, fun id => ?_⟩
  rw [TantivyIndex.view, Edit.applyAll_append]
  have hfinals := finalOps_of_batch (prepareOps_spec hprep).2.2 s₁.tables.data
  have hdata : (s₁.committed env last ops.length evolved prepared).tables.data =
      prepared.foldl PreparedOp.writeRow s₁.tables.data := by
    rw [tables_committed, batchTxn_data]
  rw [← hdata] at hfinals
  exact hfinals.reflects_all (Or.inr rfl) hrefl id

end Batch

/-! ### When the writer dies

A batch that outlives its writer is replayed from the WAL, which holds what the dead writer did in every state a run
reaches. -/

section Dead
variable {env : Env} {s s' : Store}

theorem wp_getOrCreateIndex_writer (s : Store) :
    wp (getOrCreateIndex env) (.returning fun _ s' => s'.mem.writer.isSome = true) s := by
  have hopen : ∀ index s, wp (openWriter env index) (.returning fun _ s' => s'.mem.writer.isSome = true) s := by
    intro index s
    refine wp_step_bind (wp_of_ok fun fates a rest s' hrun => ?_) trivial trivial
    obtain ⟨_, _, _, -, hrest⟩ := Prog.bind_eq_ok hrun
    cases hrest
    rfl
  refine wp_getOrCreateIndex_of (fun w hw => ?_) (fun _ index _ => hopen index _) (fun _ _ => ?_)
    (fun _ _ _ => trivial) fun _ _ => trivial
  · exact congrArg Option.isSome hw
  · exact wp_bind (wp_createIndex_frame _ (fun index s₁ _ _ _ _ _ => hopen index s₁) (fun _ _ => trivial) fun _ =>
      trivial)

theorem wp_indexBatch_writer (prepared : List PreparedOp) (finals : List FinalEntry) (hw : s.mem.writer.isSome = true) :
    wp (indexBatch env prepared finals) (.returning fun _ s' => s'.mem.writer.isSome = true) s := by
  refine wp_bind (wp_tantivyPass (wp_modify_bind (wp_pure ((Option.isSome_map ..).trans hw))) (fun _ => ?_) fun _ =>
    trivial)
  refine wp_bind (wp_modify_bind
    (wp_imp (wp_reopenAttempts_of (P := fun _ => True) (fun s _ => ?_) (fun _ _ _ => trivial) 3 _ trivial)
    fun _ _ h => wp_pure h))
  exact wp_getOrCreateIndex_writer s

variable {ops : List WalOp} {fates rest : List Fate} {r : List Nat × Nat}

theorem applyBatch_writer (hs : s.Coherent) (hops : ops ≠ []) (h : applyBatch env ops fates s = ⟨.ok r, rest, s'⟩) :
    s'.mem.writer.isSome = true := by
  obtain ⟨fates₁, fates₂, opened, s₁, hopen, happly, -⟩ := applyBatch_ok hops h
  have hopened : OpenedFor s opened s₁ := (wp_openForWrite_frame hs.built).of_ok hopen
  have hw : wp (openForWrite env) (.returning fun _ s' => s'.mem.writer.isSome = true) s :=
    wp_bind (wp_imp (wp_getOrCreateIndex_writer s)
      (fun _ _ h => wp_bind (wp_getSchemaCached_frame (wp_pure h) (fun _ => trivial) trivial)))
  rw [hopened.schema] at happly
  obtain ⟨last, prepared, fates', -, -, hindex, -⟩ := applyOpened_ok hopened.holds.cached happly
  have hw₁ : s₁.mem.writer.isSome = true := hw.of_ok hopen
  exact (wp_indexBatch_writer (s := s₁.committed env last ops.length _ prepared) prepared _ hw₁).of_ok hindex

/-- A state a run of the index reaches, with numbers left for a batch. -/
def Reached (env : Env) (ops : List WalOp) (s : Store) : Prop :=
  ∃ declared events, s = runEvents env (initial declared) events ∧
    (events.map Event.size).sum + ops.length < u64Limit - 1

theorem Reached.mirrors (hs : s.Coherent) (hr : Reached env ops s) (hops : ops ≠ [])
    (h : applyBatch env ops fates s = ⟨.ok r, rest, s'⟩) : s'.Mirrors env.parsers s'.openedSchema.1.indexedFields := by
  obtain ⟨declared, events, rfl, hfits⟩ := hr
  have hlive : Live env False _ _ _ (runEvents env (initial declared) events) :=
    (Live.initial declared).run events (by omega)
  obtain ⟨indexed, -, hmem⟩ := (wp_applyBatch ops (by omega) hlive).of_ok h
  obtain ⟨_, _, _, happlied⟩ := applyBatch_applied hs.built hops h
  obtain ⟨w, hw⟩ := Option.isSome_iff_exists.mp (applyBatch_writer hs hops h)
  obtain ⟨index, hdir, -, -, hrefl, -⟩ := hmem.writer w hw
  rcases hmem.cache _ index happlied.schema.cached hdir with hlax | ⟨hindexed, -⟩
  · exact hlax.elim
  · rw [Store.Mirrors, hdir, hw, happlied.schema.openedSchema, hindexed]
    exact hrefl

end Dead

theorem IndexSchema.learned_indexedFields (env : Env) (schema : IndexSchema) (ops : List WalOp) :
    (schema.learned env ops).indexedFields = schema.indexedFields := (SameDocs.learned env schema ops).indexed

/-- An accepted batch folds its operations over the rows, counts the ids that gained their first row, and leaves
    Tantivy holding the documents of the rows again: from any such state while no step fails, and whatever fails
    from those a run reaches. -/
theorem applyBatch_is_fold (env : Env) (s s' : Store) (ops : List WalOp) (fates rest : List Fate)
    (r : List Nat × Nat) (hs : s.Coherent) (hops : ops ≠ []) (h : applyBatch env ops fates s = ⟨.ok r, rest, s'⟩) :
    s'.tables.data = ops.foldl (writeRow s.openedSchema.1) s.tables.data ∧
      r.2 = (newIds ops s.tables.data).length ∧
      (s.Mirrors env.parsers s.openedSchema.1.indexedFields → .fail ∉ fates ∨ Reached env ops s →
        s'.Mirrors env.parsers s'.openedSchema.1.indexedFields) := by
  obtain ⟨fields, last, prepared, happlied⟩ := applyBatch_applied hs.built hops h
  refine ⟨?_, ?_, fun hm hwhen => ?_⟩
  · rw [happlied.rows, prepareOps_rows happlied.prepare]
  · rw [happlied.result]
    exact newDocumentsCount_finalOps happlied.prepare s.tables.data
  · rcases hwhen with hno | hreached
    · rw [happlied.schema.openedSchema, IndexSchema.learned_indexedFields]
      exact applyBatch_mirrors hs hops h hm hno
    · exact hreached.mirrors hs hops h

def rewrites : List WalOp := [.put "a" none, .put "b" none, .delete "b", .put "a" (some (.bool true))]

theorem applyBatch_is_fold_rewrites :
    ∃ r s', applyBatch plainEnv rewrites [] (initial none) = ⟨.ok r, [], s'⟩ ∧ r.2 = 1 ∧ s'.tables.data.keys = ["a"] ∧
      s'.Mirrors plainEnv.parsers s'.openedSchema.1.indexedFields := by
  obtain ⟨r, s', h⟩ : Succeeds (applyBatch plainEnv rewrites) (initial none) := by decide +kernel
  obtain ⟨hrows, hcount, hmirrors⟩ := applyBatch_is_fold plainEnv (initial none) s' rewrites [] [] r
    ⟨nofun, nofun⟩ nofun h
  refine ⟨r, s', h, hcount.trans (by decide +kernel), ?_, hmirrors ?_ (Or.inl nofun)⟩
  · rw [hrows]
    decide +kernel
  · rfl

end CameoDb
