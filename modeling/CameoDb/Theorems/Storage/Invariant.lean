import CameoDb.Theorems.Storage.Log

namespace CameoDb
open List Tables Std Crash

/-! # What redb, Tantivy and the caches of one index have to do with each other

`Disk` relates the committed transactions to the committed documents and survives every crash; `MemOk` adds what the
caches know. -/

/-- The sequence the last Tantivy commit of a directory was stamped with, `0` when there is none. -/
def IndexDir.stamp : IndexDir → Nat
  | built index => index.checkpointSeq.getD 0
  | absent | bare => 0

/-- The fields of a schema that are indexed, by name. -/
abbrev FieldMap := ExtTreeMap String FieldDef

/-- The documents of an id are the one built from its row, or none where it has no row. A document is built under the
    fields `indexed`; under `lax` it may be any others, as it may once a directory has outlived its schema. -/
def Reflects (p : Parsers) (lax : Prop) (fields : SchemaFields) (indexed : FieldMap)
    (docs : List TantivyDocument) (t : Tables) (id : String) : Prop :=
  match t.data[id]? with
  | none => Edit.under TantivyDocument.id docs id = []
  | some body => ∃ seq used, (lax ∨ used = indexed) ∧
      Edit.under TantivyDocument.id docs id = [fields.rowDocument p used id seq body]

theorem Reflects.congr {p : Parsers} {lax : Prop} {fields : SchemaFields} {indexed : FieldMap}
    {docs docs' : List TantivyDocument} {t t' : Tables} {id : String} (h : Reflects p lax fields indexed docs t id)
    (hdocs : Edit.under TantivyDocument.id docs' id = Edit.under TantivyDocument.id docs id)
    (hdata : t'.data[id]? = t.data[id]?) : Reflects p lax fields indexed docs' t' id := by
  unfold Reflects at h ⊢
  rw [hdata, hdocs]
  exact h

/-- A log that a crash may leave. -/
def Between (db : Db Txn) (q : List Txn) : Prop := db.durable <+: q ∧ q <+: db.all

/-- What the documents of an id show is what redb held after some prefix of its durable transactions, one that includes
    every operation on that id the stamp covers. -/
def Covered (p : Parsers) (lax : Prop) (base : List Txn) (indexed : FieldMap)
    (index : TantivyIndex) (db : Db Txn) (id : String) : Prop :=
  ∃ q, base <+: q ∧ q <+: db.durable ∧
    (∀ seq, (seq, id) ∈ logOf db.durable → seq ≤ (IndexDir.built index).stamp → (seq, id) ∈ logOf q) ∧
    Reflects p lax index.fields indexed index.docs (after q) id

/-- The index against every log that a crash may leave. -/
structure IndexOk (p : Parsers) (lax : Prop) (base : List Txn) (indexed : FieldMap)
    (index : TantivyIndex) (db : Db Txn) : Prop where
  schema : ∀ q, Between db q → lax ∨ (mergeDerived (after q).schema index.fields).indexedFields = indexed
  unstamped : index.checkpointSeq = none → index.docs = []
  covered : ∀ id, Covered p lax base indexed index db id

/-- `s` came from `s₀` by committing transactions above the stamp `s₀` had; it lost nothing durable, and its own
    stamp is no lower. -/
structure Ext (s₀ s : Store) : Prop where
  new : ∃ r, s.redb.all = s₀.redb.all ++ r ∧ (∀ txn ∈ r, TxnOk txn) ∧ ∀ e ∈ logOf r, s₀.dir.stamp < e.1
  kept : s₀.redb.durable <+: s.redb.durable
  stamp : s₀.dir.stamp ≤ s.dir.stamp

theorem Ext.refl (s : Store) : Ext s s where
  new := ⟨[], by simp, by simp, by simp [logOf]⟩
  kept := prefix_rfl
  stamp := Nat.le_refl _

/-- The part of the state a crash keeps. `base` is what redb held before this index's data was last deleted, `s₀` a
    state of the run to compare with, `lim` a bound on the numbers given so far, and `indexed` the fields documents are
    indexed under. -/
structure Disk (env : Env) (lax : Prop) (base : List Txn) (s₀ : Store) (lim : Nat)
    (indexed : FieldMap) (s : Store) : Prop where
  base_durable : base <+: s.redb.durable
  base_data : (after base).data = ∅
  base_log : logOf base = []
  txns : ∀ r, s.redb.all = base ++ r → ∀ txn ∈ r, TxnOk txn
  sorted : (logOf s.redb.all).Pairwise fun a b => a.1 < b.1
  bound : ∀ e ∈ logOf s.redb.all, 0 < e.1 ∧ e.1 ≤ lim
  wal : ∀ q, Between s.redb q →
    WalMatches (after q) (logOf q) ∧ (after q).persisted ≤ s.dir.stamp
  stamp_le : s.dir.stamp ≤ lim
  above : ∀ e ∈ logOf s.redb.pending, s.dir.stamp < e.1
  synced : env.config.walSync = true → s.redb.pending = []
  built : ∀ index, s.dir = .built index → IndexOk env.parsers lax base indexed index s.redb
  unbuilt : (∀ index, s.dir ≠ .built index) → logOf s.redb.all = [] ∧ s.redb.pending = []
  ext : Ext s₀ s

def Names (fields : SchemaFields) (schema : IndexSchema) : Prop := ∀ name ∈ fields.columns, name ∈ schema.fields

/-- What the caches know: the schema documents are built from, the columns, a counter at or above every number given,
    and a writer whose documents, once committed, are those of the rows. -/
structure MemOk (env : Env) (lax : Prop) (lim : Nat) (indexed : FieldMap) (s : Store) : Prop where
  cache : ∀ schema index, s.mem.schemaCache = some schema → s.dir = .built index →
    lax ∨ schema.indexedFields = indexed ∧ Names index.fields schema
  cache_row : (∀ index, s.dir ≠ .built index) → ∀ schema, s.mem.schemaCache = some schema →
    s.tables.schema = some schema
  fields : ∀ fields, s.mem.fieldsCache = some fields → ∃ index, s.dir = .built index ∧ fields = index.fields
  seq : ∀ n, s.mem.currentSeq = some n → s.dir.stamp ≤ n ∧ n ≤ lim ∧ ∀ e ∈ logOf s.redb.all, e.1 ≤ n
  writer : ∀ w, s.mem.writer = some w → ∃ index, s.dir = .built index ∧ w.fields = index.fields ∧
    s.mem.currentSeq.isSome = true ∧
    (∀ id, Reflects env.parsers lax index.fields indexed (index.view w.buffer) s.tables id) ∧
    (s.mem.operations = 0 → ∀ id, Reflects env.parsers lax index.fields indexed index.docs s.tables id)

section Lists
variable {db : Db Txn} {q : List Txn}

theorem between_all (db : Db Txn) : Between db db.all := ⟨db.durable_prefix_all, prefix_rfl⟩

theorem Between.eq_all (h : Between db q) (hp : db.pending = []) : q = db.all := by
  have hall : db.all = db.durable := by simp [Db.all, hp]
  exact List.IsPrefix.eq_of_length_le h.2 (by rw [hall]; exact h.1.length_le)

/-- After a commit a crash leaves what it could leave before, or everything. -/
theorem Between.of_commit {immediate : Bool} {txn : Txn} (h : Between (db.commit immediate txn) q) :
    (immediate = false ∧ Between db q) ∨ q = db.all ++ [txn] := by
  obtain ⟨h1, h2⟩ := h
  rw [Db.all_commit] at h2
  rcases prefix_concat_iff.mp h2 with h2 | h2
  · exact Or.inr (by simpa using h2)
  · cases immediate with
    | false => exact Or.inl ⟨rfl, h1, h2⟩
    | true =>
      refine Or.inr (List.IsPrefix.eq_of_length_le ?_ ?_)
      · exact h2.trans (prefix_append _ _)
      · exact h1.length_le

theorem Between.of_crash {kept : Nat} (h : Between (db.crash kept) q) : Between db q := by
  have hq : q = (db.crash kept).all := h.eq_all rfl
  refine ⟨?_, hq ▸ db.crash_prefix kept⟩
  rw [hq, Db.all_crash]
  exact prefix_append _ _

end Lists

section Disk
variable {env : Env} {lax : Prop} {base : List Txn} {s₀ s : Store} {lim lim' : Nat}
  {indexed : FieldMap}
  {q : List Txn} {id : String} {index : TantivyIndex} {seq : Nat}

theorem Disk.txns_of_prefix (d : Disk env lax base s₀ lim indexed s) (hb : base <+: q) {r : List Txn}
    (h : s.redb.all = q ++ r) : ∀ txn ∈ r, TxnOk txn := by
  obtain ⟨r', rfl⟩ := hb
  rw [append_assoc] at h
  exact fun txn htxn => d.txns _ h txn (mem_append_right _ htxn)

theorem Disk.pending_ok (d : Disk env lax base s₀ lim indexed s) : ∀ txn ∈ s.redb.pending, TxnOk txn :=
  d.txns_of_prefix d.base_durable rfl

theorem Disk.log_all (d : Disk env lax base s₀ lim indexed s) :
    logOf s.redb.all = logOf s.redb.durable ++ logOf s.redb.pending :=
  logOf_append d.pending_ok

/-- The row of an id that has no operation after a prefix is the row it had there. -/
theorem Disk.data_eq (d : Disk env lax base s₀ lim indexed s) (hb : base <+: q) (hq : q <+: s.redb.all)
    (hlog : ∀ seq, (seq, id) ∈ logOf s.redb.all → (seq, id) ∈ logOf q) : s.tables.data[id]? = (after q).data[id]? := by
  obtain ⟨r, hr⟩ := hq
  have hok := d.txns_of_prefix hb hr.symm
  have hsorted := d.sorted
  rw [← hr, logOf_append hok] at hsorted hlog
  rw [Store.tables, ← hr]
  refine after_data_of_not_logged hok fun seq hmem => ?_
  -- A number is logged once: an operation logged after `q` is not logged in `q`.
  have := (pairwise_append.mp hsorted).2.2 _ (hlog seq (mem_append_right _ hmem)) _ hmem
  exact Nat.lt_irrefl _ this

theorem Disk.reflects_of_covered (d : Disk env lax base s₀ lim indexed s) (hdir : s.dir = .built index)
    (hlog : ∀ seq, (seq, id) ∈ logOf s.redb.all → seq ≤ s.dir.stamp) :
    Reflects env.parsers lax index.fields indexed index.docs s.tables id := by
  obtain ⟨q, hb, hq, hcov, hrefl⟩ := (d.built index hdir).covered id
  refine hrefl.congr rfl (d.data_eq hb (hq.trans s.redb.durable_prefix_all) fun seq hmem => ?_)
  have hle := hlog seq hmem
  rw [d.log_all] at hmem
  rcases mem_append.mp hmem with hdur | hpend
  · exact hcov seq hdur (hdir ▸ hle)
  · exact absurd (d.above _ hpend) (Nat.not_lt.mpr hle)

theorem Disk.mono (d : Disk env lax base s₀ lim indexed s) (h : lim ≤ lim') : Disk env lax base s₀ lim' indexed s :=
  { d with
    bound := fun e he => ⟨(d.bound e he).1, (d.bound e he).2.trans h⟩
    stamp_le := d.stamp_le.trans h }

/-- Changing memory changes nothing on disk. -/
theorem Disk.setMem (d : Disk env lax base s₀ lim indexed s) (f : Memory → Memory) :
    Disk env lax base s₀ lim indexed (s.setMem f) :=
  { d with ext := ⟨d.ext.new, d.ext.kept, d.ext.stamp⟩ }

theorem Disk.crash (d : Disk env lax base s₀ lim indexed s) (kept : Nat) :
    Disk env lax base (s.crash kept) lim indexed (s.crash kept) := by
  have hpre : (s.redb.crash kept).all <+: s.redb.all := s.redb.crash_prefix kept
  have hdur : s.redb.durable <+: (s.redb.crash kept).all := by
    rw [Db.all_crash]; exact prefix_append _ _
  obtain ⟨r, hr⟩ := hpre
  have hlog : logOf s.redb.all = logOf (s.redb.crash kept).all ++ logOf r := by
    rw [← hr, logOf_append (d.txns_of_prefix (d.base_durable.trans hdur) hr.symm)]
  have hsub : ∀ e ∈ logOf (s.redb.crash kept).all, e ∈ logOf s.redb.all := fun e he => by
    rw [hlog]; exact mem_append_left _ he
  refine
    { base_durable := d.base_durable.trans (prefix_append _ _)
      base_data := d.base_data
      base_log := d.base_log
      txns := fun r' h' txn htxn => ?_
      sorted := ?_
      bound := fun e he => d.bound e (hsub e he)
      wal := fun q hq => d.wal q hq.of_crash
      stamp_le := d.stamp_le
      above := by simp [Store.crash, logOf]
      synced := fun _ => rfl
      built := fun index (hdir : s.dir = .built index) => ?_
      unbuilt := fun hdir => ⟨?_, rfl⟩
      ext := Ext.refl _ }
  · have hall : s.redb.all = base ++ (r' ++ r) := by
      rw [← hr, ← append_assoc]; exact congrArg (· ++ r) h'
    exact d.txns _ hall txn (mem_append_left _ htxn)
  · have := d.sorted
    rw [hlog] at this
    exact (pairwise_append.mp this).1
  · have ok := d.built index hdir
    refine ⟨fun q hq => ok.schema q hq.of_crash, ok.unstamped, fun id => ?_⟩
    obtain ⟨q, hb, hq, hcov, hrefl⟩ := ok.covered id
    refine ⟨q, hb, hq.trans (prefix_append _ _), fun seq hmem hle => ?_, hrefl⟩
    have hmem' : (seq, id) ∈ logOf s.redb.all := hsub _ (by simpa [Store.crash, Db.all] using hmem)
    rw [d.log_all] at hmem'
    rcases mem_append.mp hmem' with h | h
    · exact hcov seq h hle
    · exact absurd (d.above _ h) (Nat.not_lt.mpr (by rw [hdir]; exact hle))
  · have := (d.unbuilt hdir).1
    rw [hlog] at this
    exact (append_eq_nil_iff.mp this).1

/-- Committing a transaction to redb: what it logs is new and above the stamp, and the WAL it leaves matches. -/
theorem Disk.commit (d : Disk env lax base s₀ lim indexed s) {immediate : Bool} {txn : Txn} (hlim : lim ≤ lim')
    (hsync : env.config.walSync = true → immediate = true) (hok : TxnOk txn)
    (hsorted : (logOf s.redb.all ++ logOf [txn]).Pairwise fun a b => a.1 < b.1)
    (hnew : ∀ e ∈ logOf [txn], s.dir.stamp < e.1 ∧ e.1 ≤ lim')
    (hwal : WalMatches (after (s.redb.all ++ [txn])) (logOf (s.redb.all ++ [txn])) ∧
      (after (s.redb.all ++ [txn])).persisted ≤ s.dir.stamp)
    (hbuilt : ∀ index, s.dir = .built index →
      lax ∨ (mergeDerived (after (s.redb.all ++ [txn])).schema index.fields).indexedFields = indexed)
    (hunbuilt : (∀ index, s.dir ≠ .built index) → logOf [txn] = [] ∧ immediate = true) :
    Disk env lax base s₀ lim' indexed { s with redb := s.redb.commit immediate txn } := by
  have hok' : ∀ t ∈ [txn], TxnOk t := by simpa using hok
  have hlog : logOf (s.redb.all ++ [txn]) = logOf s.redb.all ++ logOf [txn] := logOf_append hok'
  have hpre := d.base_durable.trans (s.redb.durable_prefix_commit immediate txn)
  refine
    { base_durable := hpre
      base_data := d.base_data
      base_log := d.base_log
      txns := fun r h t ht => ?_
      sorted := by rw [Db.all_commit, hlog]; exact hsorted
      bound := fun e he => ?_
      wal := fun q hq => ?_
      stamp_le := d.stamp_le.trans hlim
      above := fun e he => ?_
      synced := fun h => ?_
      built := fun index hdir => ?_
      unbuilt := fun hdir => ?_
      ext := ⟨?_, d.ext.kept.trans (s.redb.durable_prefix_commit immediate txn), d.ext.stamp⟩ }
  · rw [Db.all_commit] at h
    obtain ⟨r₀, hr₀⟩ := d.base_durable.trans s.redb.durable_prefix_all
    rw [← hr₀, append_assoc] at h
    rcases mem_append.mp (append_cancel_left h ▸ ht) with ht | ht
    · exact d.txns r₀ hr₀.symm t ht
    · exact hok' t ht
  · rw [Db.all_commit, hlog] at he
    rcases mem_append.mp he with he | he
    · exact ⟨(d.bound e he).1, (d.bound e he).2.trans hlim⟩
    · exact ⟨Nat.lt_of_le_of_lt (Nat.zero_le _) (hnew e he).1, (hnew e he).2⟩
  · rcases hq.of_commit with ⟨-, hq⟩ | rfl
    · exact d.wal q hq
    · exact hwal
  · cases immediate with
    | true => simp [logOf] at he
    | false =>
      rw [Db.pending_commit_false, logOf_append hok'] at he
      rcases mem_append.mp he with he | he
      · exact d.above e he
      · exact (hnew e he).1
  · rw [hsync h]; rfl
  · have ok := d.built index hdir
    refine ⟨fun q hq => ?_, ok.unstamped, fun id => ?_⟩
    · rcases hq.of_commit with ⟨-, hq⟩ | rfl
      · exact ok.schema q hq
      · exact hbuilt index hdir
    · obtain ⟨q, hb, hq, hcov, hrefl⟩ := ok.covered id
      refine ⟨q, hb, hq.trans (s.redb.durable_prefix_commit immediate txn), fun seq hmem hle => ?_, hrefl⟩
      cases immediate with
      | false => exact hcov seq hmem hle
      | true =>
        -- What became durable with this commit lies above the stamp.
        rw [Db.durable_commit_true, hlog, d.log_all] at hmem
        rcases mem_append.mp hmem with hmem | hmem
        · rcases mem_append.mp hmem with hmem | hmem
          · exact hcov seq hmem hle
          · exact absurd (d.above _ hmem) (Nat.not_lt.mpr (by rw [hdir]; exact hle))
        · exact absurd (hnew _ hmem).1 (Nat.not_lt.mpr (by rw [hdir]; exact hle))
  · obtain ⟨h1, h2⟩ := hunbuilt hdir
    subst h2
    exact ⟨by rw [Db.all_commit, hlog, (d.unbuilt hdir).1, h1]; rfl, rfl⟩
  · obtain ⟨r, hr, hrok, hrlog⟩ := d.ext.new
    refine ⟨r ++ [txn], by rw [Db.all_commit, hr, append_assoc], fun t ht => ?_, fun e he => ?_⟩
    · rcases mem_append.mp ht with ht | ht
      · exact hrok t ht
      · exact hok' t ht
    · rw [logOf_append hok'] at he
      rcases mem_append.mp he with he | he
      · exact hrlog e he
      · exact Nat.lt_of_le_of_lt d.ext.stamp (hnew e he).1

theorem TxnOk.nil : TxnOk [] := ⟨by simp, by simp⟩

/-- An empty durable transaction makes everything before it durable. -/
theorem Disk.barrier (d : Disk env lax base s₀ lim indexed s) :
    Disk env lax base s₀ lim indexed { s with redb := s.redb.commit true [] } := by
  have hafter : after (s.redb.all ++ [[]]) = s.tables := after_concat _ _
  have hlog : logOf (s.redb.all ++ [[]]) = logOf s.redb.all := logOf_concat _ _
  refine d.commit (Nat.le_refl _) (fun _ => rfl) TxnOk.nil (by simpa [logOf] using d.sorted) (by simp [logOf]) ?_
    (fun index hdir => ?_) fun _ => ⟨rfl, rfl⟩
  · rw [hafter, hlog]
    exact d.wal _ (between_all _)
  · rw [hafter]
    exact (d.built index hdir).schema _ (between_all _)

theorem Disk.checkpoint (d : Disk env lax base s₀ lim indexed s) (hseq : seq = s.dir.stamp) :
    Disk env lax base s₀ lim indexed { s with redb := s.redb.commit true [.walTruncate seq, .metaInsert seq] } := by
  have hlog₁ : logOf [[TableWrite.walTruncate seq, .metaInsert seq]] = [] := rfl
  have hlog : logOf (s.redb.all ++ [[.walTruncate seq, .metaInsert seq]]) = logOf s.redb.all := logOf_concat _ _
  have hok : TxnOk [.walTruncate seq, .metaInsert seq] := ⟨by simp, by simp⟩
  obtain ⟨hwal, hpers⟩ := d.wal _ (between_all s.redb)
  refine d.commit (Nat.le_refl _) (fun _ => rfl) hok (by simpa [hlog₁] using d.sorted) (by simp [hlog₁]) ?_
    (fun index hdir => ?_) fun _ => ⟨rfl, rfl⟩
  · rw [after_concat, hlog]
    exact ⟨hwal.checkpoint (hseq ▸ hpers), Nat.le_of_eq hseq⟩
  · rw [after_concat]
    exact (d.built index hdir).schema _ (between_all _)

theorem stamp_commit (index : TantivyIndex) (buffer : Buffer) (h : seq < u64Limit) :
    (IndexDir.built (index.commit buffer (some (encodeCheckpointPayload seq)))).stamp = seq := by
  simp [IndexDir.stamp, TantivyIndex.commit, TantivyIndex.checkpointSeq, decode_encodeCheckpointPayload h]

/-- Committing a writer stamped with `seq`, with everything in redb durable: each id shows its row afterwards, or its
    documents did not change and the new stamp covers no more operations on it than the old one. -/
theorem Disk.tantivyCommit (d : Disk env lax base s₀ lim indexed s) (hdir : s.dir = .built index)
    (hpend : s.redb.pending = [])
    {buffer : Buffer} (hlow : s.dir.stamp ≤ seq) (hseq : seq ≤ lim) (hu64 : lim < u64Limit)
    (hdocs : ∀ id, Reflects env.parsers lax index.fields indexed (index.view buffer) s.tables id ∨
      (Edit.under TantivyDocument.id (index.view buffer) id = Edit.under TantivyDocument.id index.docs id ∧
        ∀ k, (k, id) ∈ logOf s.redb.all → k ≤ seq → k ≤ s.dir.stamp)) :
    Disk env lax base s₀ lim indexed
      (s.setDir (.built (index.commit buffer (some (encodeCheckpointPayload seq))))) := by
  have hstamp := stamp_commit index buffer (Nat.lt_of_le_of_lt hseq hu64)
  have hall : s.redb.all = s.redb.durable := by simp [Db.all, hpend]
  refine
    { d with
      wal := fun q hq => ⟨(d.wal q hq).1, ((d.wal q hq).2.trans hlow).trans (Nat.le_of_eq hstamp.symm)⟩
      stamp_le := (Nat.le_of_eq hstamp).trans hseq
      above := by simp [Store.setDir, hpend, logOf]
      built := fun index' hdir' => ?_
      unbuilt := fun hno => absurd rfl (hno _)
      ext := ⟨d.ext.new, d.ext.kept, (d.ext.stamp.trans hlow).trans (Nat.le_of_eq hstamp.symm)⟩ }
  obtain rfl : index.commit buffer (some (encodeCheckpointPayload seq)) = index' := by
    simpa [Store.setDir] using hdir'
  have ok := d.built index hdir
  refine ⟨ok.schema, fun hnone => ?_, fun id => ?_⟩
  · simp [TantivyIndex.commit, TantivyIndex.checkpointSeq,
      decode_encodeCheckpointPayload (Nat.lt_of_le_of_lt hseq hu64)] at hnone
  · rcases hdocs id with hrefl | ⟨hsame, hcovers⟩
    · refine ⟨s.redb.durable, d.base_durable, prefix_rfl, fun k hk _ => hk, ?_⟩
      rw [Store.tables, hall] at hrefl
      exact hrefl
    · obtain ⟨q, hb, hq, hcov, hrefl⟩ := ok.covered id
      refine ⟨q, hb, hq, fun k hk hle => hcov k hk ?_, hrefl.congr hsame rfl⟩
      rw [hstamp] at hle
      exact hdir ▸ hcovers k (hall ▸ hk) hle

end Disk

section Mem
variable {env : Env} {lax : Prop} {s : Store} {lim lim' : Nat} {indexed : FieldMap}

theorem MemOk.mono (m : MemOk env lax lim indexed s) (h : lim ≤ lim') : MemOk env lax lim' indexed s :=
  { m with seq := fun n hn => ⟨(m.seq n hn).1, (m.seq n hn).2.1.trans h, (m.seq n hn).2.2⟩ }

theorem MemOk.empty : MemOk env lax lim indexed { s with mem := Memory.empty } where
  cache := by simp [Memory.empty]
  cache_row := by simp [Memory.empty]
  fields := by simp [Memory.empty]
  seq := by simp [Memory.empty]
  writer := by simp [Memory.empty]

/-- A redb commit that changes no row and logs nothing leaves the caches right. -/
theorem MemOk.of_redb (m : MemOk env lax lim indexed s) {db : Db Txn} (hlog : logOf db.all = logOf s.redb.all)
    (hdata : (after db.all).data = s.tables.data)
    (hschema : (∀ index, s.dir ≠ .built index) → (after db.all).schema = s.tables.schema) :
    MemOk env lax lim indexed { s with redb := db } where
  cache := m.cache
  cache_row := fun hdir schema h => (hschema hdir).trans (m.cache_row hdir schema h)
  fields := m.fields
  seq := fun n hn => ⟨(m.seq n hn).1, (m.seq n hn).2.1, fun e he => (m.seq n hn).2.2 e (hlog ▸ he)⟩
  writer := fun w hw => by
    obtain ⟨index, hdir, hfields, hseq, hview, hops⟩ := m.writer w hw
    have hd : ∀ id : String, (Store.tables { s with redb := db }).data[id]? = s.tables.data[id]? := fun id => by
      rw [Store.tables, hdata]
    exact ⟨index, hdir, hfields, hseq, fun id => (hview id).congr rfl (hd id),
      fun h id => (hops h id).congr rfl (hd id)⟩

theorem MemOk.checkpoint (m : MemOk env lax lim indexed s) (seq : Nat) :
    MemOk env lax lim indexed { s with redb := s.redb.commit true [.walTruncate seq, .metaInsert seq] } := by
  refine m.of_redb (by rw [Db.all_commit]; exact logOf_concat _ _) ?_ fun _ => ?_ <;>
    · rw [Db.all_commit, after_concat]
      rfl

/-- Without a writer, the rest of the caches only asks for a counter at or above the stamp. -/
theorem MemOk.setDir (m : MemOk env lax lim indexed s) {index index' : TantivyIndex} (hdir : s.dir = .built index)
    (hfields : index'.fields = index.fields) (hw : s.mem.writer = none)
    (hstamp : ∀ n, s.mem.currentSeq = some n → (IndexDir.built index').stamp ≤ n) :
    MemOk env lax lim indexed (s.setDir (.built index')) where
  cache := fun schema index'' h h' => by
    obtain rfl : index' = index'' := by simpa [Store.setDir] using h'
    exact hfields ▸ m.cache schema index h hdir
  cache_row := fun hno => absurd rfl (hno index')
  fields := fun fields h => by
    obtain ⟨index₀, h₀, rfl⟩ := m.fields fields h
    rw [hdir] at h₀
    cases h₀
    exact ⟨index', rfl, hfields.symm⟩
  seq := fun n hn => ⟨hstamp n hn, (m.seq n hn).2⟩
  writer := fun w h => by
    have : s.mem.writer = some w := h
    rw [hw] at this
    cases this

end Mem

/-! ### Schemas and columns -/

section Columns
variable {fields : SchemaFields} {schema : IndexSchema}

theorem mem_deriveFields {name : String} : name ∈ deriveFieldsFromTantivy fields ↔ name ∈ fields.columns := by
  simp [deriveFieldsFromTantivy]

theorem mergeDerived_of_names (h : Names fields schema) :
    (mergeDerived (some schema) fields).indexedFields = schema.indexedFields := by
  unfold mergeDerived
  dsimp only
  split
  · rfl
  · have : deriveFieldsFromTantivy fields ∪ schema.fields = schema.fields := by
      apply ExtTreeMap.ext_getElem?
      intro k
      rw [ExtTreeMap.getElem?_union]
      cases hk : schema.fields[k]? with
      | some f => rfl
      | none =>
        have hnot : k ∉ deriveFieldsFromTantivy fields := fun hmem => by
          have := h k (mem_deriveFields.mp hmem)
          rw [ExtTreeMap.mem_iff_isSome_getElem?, hk] at this
          simp at this
        simp [ExtTreeMap.getElem?_eq_none hnot]
    rw [this]

theorem names_mergeDerived (stored : Option IndexSchema) (fields : SchemaFields) :
    Names fields (mergeDerived stored fields) := by
  intro name hname
  have hder := mem_deriveFields.mpr hname
  unfold mergeDerived
  cases stored with
  | none => exact hder
  | some stored =>
    dsimp only
    split
    · next hempty =>
      rw [ExtTreeMap.isEmpty_iff] at hempty
      simp [hempty] at hder
    · exact ExtTreeMap.mem_union_iff.mpr (Or.inl hder)

theorem names_create (schema : IndexSchema) : Names (createSchemaFromDefinition schema) schema := by
  intro name hname
  simp only [createSchemaFromDefinition, ExtTreeMap.mem_map] at hname
  exact ExtTreeMap.mem_of_mem_filter hname

end Columns

end CameoDb
