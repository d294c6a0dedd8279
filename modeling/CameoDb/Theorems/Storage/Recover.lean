import CameoDb.Theorems.Storage.Invariant

namespace CameoDb
open List Edit Std Crash

/-! # Opening an index

An id that was applied shows its row and any other what it showed before, so a commit may be stamped anywhere in the
tail. -/

theorem wp_beginRead {s : Store} {Q : Post Store StoreError Tables} (ok : Q.ok s.tables s) (err : Q.error .redb s)
    (crash : Q.crashed s) : wp beginRead Q s :=
  wp_step_bind (wp_gets ok) err crash

def Store.withCache (s : Store) (schema : Option IndexSchema) : Store :=
  s.setMem fun m => { m with schemaCache := schema }

def IndexDir.columns? : IndexDir → Option SchemaFields
  | .built index => some index.fields
  | _ => none

theorem IndexDir.built_of_columns? {dir : IndexDir} {fields : SchemaFields} (h : dir.columns? = some fields) :
    ∃ index, dir = .built index := by
  cases dir with
  | built index => exact ⟨index, rfl⟩
  | absent | bare => cases h

theorem IndexDir.columns?_eq_none {dir : IndexDir} (h : ∀ index, dir ≠ .built index) : dir.columns? = none := by
  cases dir with
  | built index => exact absurd rfl (h index)
  | absent | bare => rfl

def Store.schemaRead (s : Store) : Option IndexSchema :=
  s.mem.schemaCache.or
    (match s.dir.columns? with
      | some fields => some (mergeDerived s.tables.schema fields)
      | none => s.tables.schema)

theorem Store.schemaRead_of_built {s : Store} {index : TantivyIndex} (hdir : s.dir = .built index) :
    ∃ schema, s.schemaRead = some schema := by
  rw [Store.schemaRead, hdir]
  cases s.mem.schemaCache with
  | some cached => exact ⟨cached, rfl⟩
  | none => exact ⟨_, rfl⟩

section Read
variable {env : Env} {lax : Prop} {base : List Txn} {s₀ s : Store} {lim : Nat} {indexed : FieldMap}

theorem wp_getSchemaCached_frame {Q : Post Store StoreError (Option IndexSchema)}
    (ok : Q.ok s.schemaRead (s.withCache s.schemaRead)) (err : ∀ e, Q.error e s) (crash : Q.crashed s) :
    wp getSchemaCached Q s := by
  have stay : ∀ r, s.mem.schemaCache = r → s.schemaRead = r → Q.ok r s := by
    rintro r hc hr
    have hsame : s.withCache r = s := by simp only [Store.withCache, Store.setMem, ← hc]
    rwa [hr, hsame] at ok
  refine wp_gets_bind ?_
  cases hc : s.mem.schemaCache with
  | some schema => exact wp_pure (stay _ hc (by simp [Store.schemaRead, hc]))
  | none =>
    refine wp_bind (wp_beginRead (wp_gets_bind ?_) (err _) crash)
    cases hdir : s.dir with
    | absent =>
      have hread : s.schemaRead = s.tables.schema := by simp [Store.schemaRead, IndexDir.columns?, hc, hdir]
      dsimp only
      split
      · next stored hstored =>
        rw [hread, hstored] at ok
        exact wp_modify_bind (wp_pure ok)
      · next hstored => exact wp_pure (stay none hc (hread.trans hstored))
    | bare => exact wp_throw (err _)
    | built index =>
      have hread : s.schemaRead = some (mergeDerived s.tables.schema index.fields) := by
        simp [Store.schemaRead, IndexDir.columns?, hc, hdir]
      rw [hread] at ok
      exact wp_step_bind (wp_modify_bind (wp_pure ok)) (err _) crash

variable {index : TantivyIndex}

/-- The schema a program reads is the one documents are indexed under. -/
theorem MemOk.schemaRead_built (m : MemOk env lax lim indexed s) (d : Disk env lax base s₀ lim indexed s)
    (hdir : s.dir = .built index) :
    ∃ schema, s.schemaRead = some schema ∧ (lax ∨ schema.indexedFields = indexed ∧ Names index.fields schema) := by
  rw [Store.schemaRead, hdir]
  cases hc : s.mem.schemaCache with
  | some schema => exact ⟨schema, rfl, m.cache schema index hc hdir⟩
  | none =>
    exact ⟨_, rfl, ((d.built index hdir).schema _ (between_all _)).imp_right fun h => ⟨h, names_mergeDerived _ _⟩⟩

theorem MemOk.schemaRead_unbuilt (m : MemOk env lax lim indexed s) (hno : ∀ index, s.dir ≠ .built index) :
    s.schemaRead = s.tables.schema := by
  rw [Store.schemaRead, IndexDir.columns?_eq_none hno]
  cases hc : s.mem.schemaCache with
  | some schema => exact (m.cache_row hno schema hc).symm
  | none => rfl

theorem MemOk.read (m : MemOk env lax lim indexed s) (d : Disk env lax base s₀ lim indexed s) :
    MemOk env lax lim indexed (s.withCache s.schemaRead) :=
  { m with
    cache := fun schema index h hdir => by
      obtain ⟨_, hread, hschema⟩ := m.schemaRead_built d hdir
      cases hread.symm.trans h
      exact hschema
    cache_row := fun hno schema h => (m.schemaRead_unbuilt hno).symm.trans h }

theorem Disk.max_checkpoint (d : Disk env lax base s₀ lim indexed s) (hdir : s.dir = .built index) :
    (index.checkpointSeq.toList ++ s.tables.recoveryMeta.toList).max? = some s.dir.stamp ∨
      ((index.checkpointSeq.toList ++ s.tables.recoveryMeta.toList).max? = none ∧ s.dir.stamp = 0 ∧
        index.highestIndexedSeq = 0) := by
  have hpers : s.tables.persisted ≤ s.dir.stamp := (d.wal _ (between_all _)).2
  have hstamp : s.dir.stamp = index.checkpointSeq.getD 0 := by rw [hdir]; rfl
  rw [hstamp] at hpers ⊢
  unfold Tables.persisted at hpers
  cases hst : index.checkpointSeq with
  | some seq =>
    cases hm : s.tables.recoveryMeta with
    | none => exact Or.inl rfl
    | some persisted =>
      rw [hst, hm] at hpers
      exact Or.inl (congrArg some (Nat.max_eq_left hpers))
  | none =>
    cases hm : s.tables.recoveryMeta with
    | none =>
      refine Or.inr ⟨rfl, rfl, ?_⟩
      rw [TantivyIndex.highestIndexedSeq, (d.built index hdir).unstamped hst]
      rfl
    | some persisted =>
      rw [hst, hm] at hpers
      exact Or.inl (congrArg some (Nat.le_zero.mp hpers))

theorem wp_checkpointSeq (d : Disk env lax base s₀ lim indexed s) (hdir : s.dir = .built index)
    {Q : Post Store StoreError Nat}
    (ok : Q.ok s.dir.stamp s) (err : ∀ e, Q.error e s) (crash : Q.crashed s) : wp (checkpointSeq index) Q s := by
  refine wp_bind (wp_beginRead ?_ (err _) crash)
  rcases d.max_checkpoint hdir with hmax | ⟨hmax, hzero, hscan⟩
  · simp only [hmax]
    exact wp_pure ok
  · simp only [hmax, hscan, ↓reduceIte, ite_self]
    exact wp_pure (hzero ▸ ok)

/-- What a durability barrier leaves: the same tables, all of them durable. -/
structure Flushed (s s' : Store) : Prop where
  mem : s'.mem = s.mem
  dir : s'.dir = s.dir
  tables : s'.tables = s.tables
  log : logOf s'.redb.all = logOf s.redb.all
  pending : s'.redb.pending = []

theorem wp_durabilityBarrier (d : Disk env lax base s₀ lim indexed s) {Q : Post Store StoreError Unit}
    (ok : ∀ s', Disk env lax base s₀ lim indexed s' → Flushed s s' → Q.ok () s') (err : Q.error .redb s)
    (crash : Q.crashed s) : wp (durabilityBarrier env) Q s := by
  unfold durabilityBarrier
  split
  · next hsync => exact wp_pure (ok s d ⟨rfl, rfl, rfl, rfl, d.synced hsync⟩)
  · refine wp_step (ok _ d.barrier ⟨rfl, rfl, ?_, ?_, rfl⟩) err crash
    · exact (congrArg Tables.after (Db.all_commit _ _ _)).trans (after_concat _ _)
    · exact (congrArg logOf (Db.all_commit _ _ _)).trans (logOf_concat _ _)

theorem MemOk.of_flushed {s' : Store} (m : MemOk env lax lim indexed s) (f : Flushed s s') :
    MemOk env lax lim indexed s' := by
  have hredb : MemOk env lax lim indexed { s with redb := s'.redb } :=
    m.of_redb f.log (congrArg Tables.data f.tables) fun _ => congrArg Tables.schema f.tables
  have hs : s' = { s with redb := s'.redb } := by
    cases s'
    simp only [Store.mk.injEq, true_and]
    exact ⟨f.dir, f.mem⟩
  rw [hs]
  exact hredb

end Read

/-! ### Replay -/

def logged (entry : Nat × WalEntry) : Nat × String := (entry.1, decodeWalEntry entry.2)

/-- A replay with `rest` still to go: an applied id shows its row, an id not applied shows what the last commit shows,
    and every operation above the stamp is of an applied id or still to come. -/
structure ReplayOk (env : Env) (lax : Prop) (base : List Txn) (s₀ : Store) (lim : Nat)
    (indexed : FieldMap)
    (fields : SchemaFields) (t : Tables) (top : Nat) (s : Store) (r : Replay) (rest : List (Nat × WalEntry)) :
    Prop where
  disk : Disk env lax base s₀ lim indexed s
  mem : MemOk env lax lim indexed s
  writer : s.mem.writer = none
  tables : s.tables = t
  dir : ∃ index, s.dir = .built index ∧ index.fields = fields ∧
    (∀ id ∈ r.applied, Reflects env.parsers lax fields indexed (index.view r.buffer) t id) ∧
    ∀ id, id ∉ r.applied →
      under TantivyDocument.id (index.view r.buffer) id = under TantivyDocument.id index.docs id
  toCome : ∀ k id, (k, id) ∈ logOf s.redb.all → s.dir.stamp < k → id ∈ r.applied ∨ (k, id) ∈ rest.map logged
  rest_logged : ∀ x ∈ rest, logged x ∈ logOf s.redb.all ∧ s.dir.stamp < x.1
  rest_sorted : rest.Pairwise fun a b => a.1 < b.1
  flushed : r.sinceCommit = 0 → r.buffer = []
  seen : s.dir.stamp ≤ top ∧ ∀ e ∈ logOf s.redb.all, e.1 ≤ top

section Replay
variable {env : Env} {lax : Prop} {base : List Txn} {s₀ s : Store} {lim : Nat} {indexed : FieldMap}
  {fields : SchemaFields} {t : Tables} {top : Nat}
  {schema : IndexSchema} {r : Replay} {rest : List (Nat × WalEntry)} {x : Nat × WalEntry}

theorem wp_replayId (hschema : lax ∨ schema.indexedFields = indexed) (id : String) (seq : Nat)
    {Q : Post Store StoreError Buffer} (ok : ∀ edits, (∀ e ∈ edits, target TantivyDocument.id e = id) →
      (∀ docs, Reflects env.parsers lax fields indexed (applyAll TantivyDocument.id docs edits) t id) → Q.ok edits s)
    (err : ∀ e, Q.error e s) (crash : Q.crashed s) : wp (replayId env fields schema t id seq) Q s := by
  unfold replayId
  cases hrow : t.data[id]? with
  | none =>
    refine wp_pure (ok _ (by simp [target]) fun docs => ?_)
    unfold Reflects
    rw [hrow]
    exact under_deleteTerm_self docs id
  | some body =>
    simp only [SchemaFields.document_skip]
    refine wp_bind (wp_pure ?_)
    refine wp_step_bind (wp_pure (ok _ ?_ fun docs => ?_)) (err _) crash
    · simp [target, SchemaFields.rowDocument]
    · unfold Reflects
      rw [hrow]
      refine ⟨seq, schema.indexedFields, hschema, ?_⟩
      rw [applyAll_cons, applyAll_cons, applyAll_nil,
        under_add_self (k := id) _ rfl, under_deleteTerm_self]
      rfl

/-- Of an entry that was looked at, the id is applied. -/
theorem ReplayOk.toCome_tail (h : ReplayOk env lax base s₀ lim indexed fields t top s r (x :: rest))
    {k : Nat} {id : String} (hk : (k, id) ∈ logOf s.redb.all) (hlt : s.dir.stamp < k) :
    id ∈ r.applied ∨ id = decodeWalEntry x.2 ∨ (k, id) ∈ rest.map logged := by
  refine (h.toCome k id hk hlt).imp_right fun hrest => ?_
  rw [map_cons, mem_cons] at hrest
  exact hrest.imp_left (congrArg Prod.snd)

theorem ReplayOk.applied_step (h : ReplayOk env lax base s₀ lim indexed fields t top s r (x :: rest)) {edits : Buffer}
    (htarget : ∀ e ∈ edits, target TantivyDocument.id e = decodeWalEntry x.2)
    (hedits : ∀ docs, Reflects env.parsers lax fields indexed (applyAll TantivyDocument.id docs edits) t
    (decodeWalEntry x.2)) (n : Nat) :
    ReplayOk env lax base s₀ lim indexed fields t top s
      ⟨r.buffer ++ edits, decodeWalEntry x.2 :: r.applied, n, r.sinceCommit + 1⟩ rest :=
  { h with
    dir := by
      obtain ⟨index, hdir, hfields, happlied, hother⟩ := h.dir
      have keep : ∀ id, id ≠ decodeWalEntry x.2 →
          under TantivyDocument.id (index.view (r.buffer ++ edits)) id =
            under TantivyDocument.id (index.view r.buffer) id := fun id hne => by
        rw [TantivyIndex.view, applyAll_append]
        exact under_applyAll_of_ne (fun e he => by rw [htarget e he]; exact hne.symm) _
      refine ⟨index, hdir, hfields, fun id hid => ?_, fun id hid => ?_⟩
      · by_cases hne : id = decodeWalEntry x.2
        · subst hne
          rw [TantivyIndex.view, applyAll_append]
          exact hedits _
        · exact (happlied id (by simpa [hne] using hid)).congr (keep id hne) rfl
      · rw [mem_cons, not_or] at hid
        exact (keep id hid.1).trans (hother id hid.2)
    toCome := fun k id hk hlt => by
      rcases h.toCome_tail hk hlt with hid | rfl | hrest
      · exact .inl (mem_cons_of_mem _ hid)
      · exact .inl mem_cons_self
      · exact .inr hrest
    rest_logged := fun y hy => h.rest_logged y (mem_cons_of_mem _ hy)
    rest_sorted := (pairwise_cons.mp h.rest_sorted).2
    flushed := by simp }

/-- An entry of an id already applied changes nothing but the counts. -/
theorem ReplayOk.skip (h : ReplayOk env lax base s₀ lim indexed fields t top s r (x :: rest))
    (hx : decodeWalEntry x.2 ∈ r.applied) (n : Nat) :
    ReplayOk env lax base s₀ lim indexed fields t top s
    { r with replayed := n, sinceCommit := r.sinceCommit + 1 } rest :=
  { h with
    toCome := fun k id hk hlt => by
      rcases h.toCome_tail hk hlt with hid | rfl | hrest
      · exact .inl hid
      · exact .inl hx
      · exact .inr hrest
    rest_logged := fun y hy => h.rest_logged y (mem_cons_of_mem _ hy)
    rest_sorted := (pairwise_cons.mp h.rest_sorted).2
    flushed := by simp }

theorem ReplayOk.of_flushed {s' : Store} (h : ReplayOk env lax base s₀ lim indexed fields t top s r rest)
    (d : Disk env lax base s₀ lim indexed s') (f : Flushed s s') :
    ReplayOk env lax base s₀ lim indexed fields t top s' r rest := by
  refine { h with disk := d, mem := h.mem.of_flushed f, writer := f.mem ▸ h.writer, tables := f.tables.trans h.tables,
                  dir := f.dir ▸ h.dir, toCome := ?_, rest_logged := ?_, seen := ?_ } <;> rw [f.log, f.dir]
  · exact h.toCome
  · exact h.rest_logged
  · exact h.seen

/-- A commit in mid-replay may be stamped with the sequence that just went by. -/
theorem ReplayOk.commit (hu64 : lim < u64Limit) {seq : Nat} {id₀ : String}
    (h : ReplayOk env lax base s₀ lim indexed fields t top s r rest) (hpend : s.redb.pending = [])
    (hseq : (seq, id₀) ∈ logOf s.redb.all) (hstamp : s.dir.stamp < seq) (hrest : ∀ y ∈ rest, seq < y.1)
    {index : TantivyIndex} (hdir : s.dir = .built index) (n : Nat) :
    ReplayOk env lax base s₀ lim indexed fields t top
      (s.setDir (.built (index.commit r.buffer (some (encodeCheckpointPayload seq))))) ⟨[], r.applied, n, 0⟩ rest := by
  obtain ⟨index', hdir', hfields, happlied, hother⟩ := h.dir
  rw [hdir] at hdir'
  cases hdir'
  have hle : seq ≤ lim := (h.disk.bound _ hseq).2
  have hnew := stamp_commit index r.buffer (Nat.lt_of_le_of_lt hle hu64)
  have hdisk : Disk env lax base s₀ lim indexed
      (s.setDir (.built (index.commit r.buffer (some (encodeCheckpointPayload seq))))) := by
    refine h.disk.tantivyCommit hdir hpend (Nat.le_of_lt hstamp) hle hu64 fun id => ?_
    by_cases hid : id ∈ r.applied
    · exact Or.inl (hfields ▸ h.tables ▸ happlied id hid)
    · refine Or.inr ⟨hother id hid, fun k hk hkle => ?_⟩
      by_contra hgt
      rcases h.toCome k id hk (Nat.not_le.mp hgt) with happ | hcome
      · exact hid happ
      · obtain ⟨y, hy, hyeq⟩ := mem_map.mp hcome
        have : y.1 = k := congrArg Prod.fst hyeq
        have := hrest y hy
        omega
  refine
    { h with
      disk := hdisk
      mem := h.mem.setDir hdir rfl h.writer fun k hk => by rw [hnew]; exact (h.mem.seq k hk).2.2 _ hseq
      dir := ⟨_, rfl, hfields, happlied, fun _ _ => rfl⟩
      toCome := fun k id hk hlt => h.toCome k id hk ?_
      rest_logged := fun y hy => ⟨(h.rest_logged y hy).1, ?_⟩
      flushed := fun _ => rfl
      seen := ⟨(Nat.le_of_eq hnew).trans (h.seen.2 _ hseq), h.seen.2⟩ }
  · have : seq < k := hnew ▸ hlt
    omega
  · show (IndexDir.built _).stamp < y.1
    rw [hnew]
    exact hrest y hy

/-- A replay from any point of the tail ends with every id showing its row, and is safe to stop at any step. -/
theorem wp_replayEntries (hu64 : lim < u64Limit) (hschema : lax ∨ schema.indexedFields = indexed)
    (entries : List (Nat × WalEntry))
    (s : Store) (r : Replay) (h : ReplayOk env lax base s₀ lim indexed fields t top s r entries) :
    wp (replayEntries env fields schema t entries r)
      ⟨fun r' s' => ReplayOk env lax base s₀ lim indexed fields t top s' r' [],
        fun _ s' => Disk env lax base s₀ lim indexed s' ∧ MemOk env lax lim indexed s',
        fun s' => Disk env lax base s₀ lim indexed s'⟩ s := by
  induction entries generalizing s r with
  | nil => exact wp_pure h
  | cons x rest ih =>
    obtain ⟨seq, entry⟩ := x
    unfold replayEntries
    split
    · next hx => exact ih s _ (h.skip hx _)
    · refine wp_bind (wp_replayId hschema _ _ (fun edits htarget hedits => ?_) (fun _ => ⟨h.disk, h.mem⟩) h.disk)
      have hstep := h.applied_step htarget hedits (r.replayed + 1)
      split
      · refine wp_bind (wp_durabilityBarrier hstep.disk (fun s' d f => ?_) ⟨h.disk, h.mem⟩ h.disk)
        have hflush := hstep.of_flushed d f
        have hmem : (seq, decodeWalEntry entry) ∈ logOf s'.redb.all :=
          f.log ▸ (h.rest_logged (seq, entry) (mem_cons_self ..)).1
        have hstamp : s'.dir.stamp < seq := f.dir ▸ (h.rest_logged (seq, entry) (mem_cons_self ..)).2
        obtain ⟨index, hdir, -⟩ := hflush.dir
        refine wp_step_bind ?_ ⟨hflush.disk, hflush.mem⟩ hflush.disk
        simp only [hdir]
        exact ih _ _ (hflush.commit hu64 f.pending hmem hstamp
          (fun y hy => (pairwise_cons.mp h.rest_sorted).1 y hy) hdir _)
      · exact ih s _ hstep

/-- After a whole replay every id shows its row. -/
theorem ReplayOk.reflects (h : ReplayOk env lax base s₀ lim indexed fields t top s r []) :
    ∃ index, s.dir = .built index ∧ index.fields = fields ∧
      (∀ id, Reflects env.parsers lax index.fields indexed (index.view r.buffer) s.tables id) ∧
      (r.sinceCommit = 0 → ∀ id, Reflects env.parsers lax index.fields indexed index.docs s.tables id) := by
  obtain ⟨index, hdir, hfields, happlied, hother⟩ := h.dir
  have hall : ∀ id, Reflects env.parsers lax index.fields indexed (index.view r.buffer) s.tables id := by
    intro id
    by_cases hid : id ∈ r.applied
    · exact hfields ▸ h.tables ▸ happlied id hid
    · refine (h.disk.reflects_of_covered hdir fun k hk => ?_).congr (hother id hid) rfl
      by_contra hgt
      rcases h.toCome k id hk (Nat.not_le.mp hgt) with happ | hcome
      · exact hid happ
      · simp at hcome
  refine ⟨index, hdir, hfields, hall, fun hzero id => ?_⟩
  have := hall id
  rw [h.flushed hzero] at this
  exact this

end Replay

/-! ### Opening -/

/-- What `recover_index` leaves, with the buffer it filled: every id would show its row, and the two sequences it read
    bound the stamp and every operation. -/
structure Recovered (env : Env) (lax : Prop) (base : List Txn) (s₀ : Store) (lim : Nat)
    (indexed : FieldMap) (fields : SchemaFields) (s : Store) (r : Recovery) : Prop where
  disk : Disk env lax base s₀ lim indexed s
  mem : MemOk env lax lim indexed s
  writer : s.mem.writer = none
  dir : ∃ index, s.dir = .built index ∧ index.fields = fields ∧
    (∀ id, Reflects env.parsers lax index.fields indexed (index.view r.buffer) s.tables id) ∧
    (s.mem.operations = 0 → ∀ id, Reflects env.parsers lax index.fields indexed index.docs s.tables id)
  seen : s.dir.stamp ≤ max r.maxWalSeq r.checkpoint ∧ ∀ e ∈ logOf s.redb.all, e.1 ≤ max r.maxWalSeq r.checkpoint
  top_le : max r.maxWalSeq r.checkpoint ≤ lim

section Open
variable {env : Env} {lax : Prop} {base : List Txn} {s₀ s : Store} {lim : Nat} {indexed : FieldMap}

/-- An operation above the persisted checkpoint is in the WAL, under its number. -/
theorem Disk.wal_of_log (d : Disk env lax base s₀ lim indexed s) {k : Nat} {id : String}
    (hk : (k, id) ∈ logOf s.redb.all)
    (hlt : s.dir.stamp < k) : ∃ entry, s.tables.wal[k]? = some entry ∧ decodeWalEntry entry = id := by
  obtain ⟨hwal, hpers⟩ := d.wal _ (between_all _)
  exact (hwal k id).mpr ⟨hk, Nat.lt_of_le_of_lt hpers hlt⟩

/-- No operation lies above both the WAL's last number and the stamp. -/
theorem Disk.log_le_top (d : Disk env lax base s₀ lim indexed s) :
    ∀ e ∈ logOf s.redb.all, e.1 ≤ max s.tables.maxWalSeq s.dir.stamp := by
  rintro ⟨k, id⟩ hk
  by_contra hgt
  have hgt' : s.dir.stamp < k := by omega
  obtain ⟨entry, hentry, -⟩ := d.wal_of_log hk hgt'
  rcases maxWalSeq_spec s.tables with ⟨-, hnone⟩ | ⟨-, hmax⟩
  · have := hnone k (by omega)
    rw [hentry] at this
    cases this
  · have := hmax k entry hentry
    omega

theorem Disk.maxWalSeq_le (d : Disk env lax base s₀ lim indexed s) : s.tables.maxWalSeq ≤ lim := by
  rcases maxWalSeq_spec s.tables with ⟨hzero, -⟩ | ⟨⟨entry, hentry⟩, -⟩
  · omega
  · obtain ⟨hwal, -⟩ := d.wal _ (between_all s.redb)
    exact (d.bound _ ((hwal _ (decodeWalEntry entry)).mp ⟨entry, hentry, rfl⟩).1).2

variable {index : TantivyIndex}

theorem Disk.reflects_of_synced (d : Disk env lax base s₀ lim indexed s) (hdir : s.dir = .built index)
    (h : s.tables.maxWalSeq ≤ s.dir.stamp) (id : String) :
    Reflects env.parsers lax index.fields indexed index.docs s.tables id := by
  refine d.reflects_of_covered hdir fun k hk => ?_
  have := d.log_le_top _ hk
  simp only [Nat.max_eq_right h] at this
  exact this

theorem Disk.replayOk_start (d : Disk env lax base s₀ lim indexed s) (m : MemOk env lax lim indexed s)
    (hw : s.mem.writer = none) (hdir : s.dir = .built index) :
    ReplayOk env lax base s₀ lim indexed index.fields s.tables (max s.tables.maxWalSeq s.dir.stamp) s ⟨[], [], 0, 0⟩
      (s.tables.walRange s.dir.stamp s.tables.maxWalSeq) where
  disk := d
  mem := m
  writer := hw
  tables := rfl
  dir := ⟨index, hdir, rfl, by simp, fun _ _ => rfl⟩
  toCome := fun k id hk hlt => by
    obtain ⟨entry, hentry, hid⟩ := d.wal_of_log hk hlt
    have htop := d.log_le_top _ hk
    refine Or.inr (mem_map.mpr ⟨(k, entry), ?_, by simp [logged, hid]⟩)
    simp only [Tables.walRange, mem_filter, ExtTreeMap.mem_toList_iff_getElem?_eq_some, Bool.and_eq_true,
      decide_eq_true_eq]
    exact ⟨hentry, hlt, by omega⟩
  rest_logged := fun x hx => by
    obtain ⟨k, entry⟩ := x
    simp only [Tables.walRange, mem_filter, ExtTreeMap.mem_toList_iff_getElem?_eq_some, Bool.and_eq_true,
      decide_eq_true_eq] at hx
    obtain ⟨hwal, -⟩ := d.wal _ (between_all s.redb)
    exact ⟨((hwal k _).mp ⟨entry, hx.1, rfl⟩).1, hx.2.1⟩
  rest_sorted := by
    refine List.Pairwise.filter _ ?_
    exact ExtTreeMap.ordered_keys_toList.imp fun h => by simpa [Nat.compare_eq_lt] using h
  flushed := fun _ => rfl
  seen := ⟨Nat.le_max_right _ _, d.log_le_top⟩

theorem wp_recoverIndex (hu64 : lim < u64Limit) (d : Disk env lax base s₀ lim indexed s)
    (m : MemOk env lax lim indexed s) (hw : s.mem.writer = none) (hdir : s.dir = .built index) :
    wp (recoverIndex env index)
      ⟨fun r s' => Recovered env lax base s₀ lim indexed index.fields s' r,
        fun _ s' => Disk env lax base s₀ lim indexed s' ∧ MemOk env lax lim indexed s',
        fun s' => Disk env lax base s₀ lim indexed s'⟩ s := by
  refine wp_bind (wp_beginRead ?_ ⟨d, m⟩ d)
  refine wp_bind (wp_checkpointSeq d hdir ?_ (fun _ => ⟨d, m⟩) d)
  have htop : max s.tables.maxWalSeq s.dir.stamp ≤ lim := Nat.max_le.mpr ⟨d.maxWalSeq_le, d.stamp_le⟩
  have stay (hle : s.tables.maxWalSeq ≤ s.dir.stamp) :
      Recovered env lax base s₀ lim indexed index.fields s ⟨0, s.tables.maxWalSeq, s.dir.stamp, []⟩ :=
    have hsync := d.reflects_of_synced hdir hle
    ⟨d, m, hw, ⟨index, hdir, rfl, hsync, fun _ => hsync⟩, ⟨Nat.le_max_right _ _, d.log_le_top⟩, htop⟩
  dsimp only
  split
  · next hzero =>
    have hstay := stay (by omega)
    rw [hzero] at hstay
    exact wp_pure hstay
  · split
    · next hle =>
      have hsync := d.reflects_of_synced hdir hle
      unfold checkpointCommitted
      split
      · exact wp_bind (wp_attempt (wp_pure (wp_pure (stay hle))))
      · refine wp_bind (wp_attempt (wp_step (wp_pure ?_) (wp_pure (stay hle)) d))
        have hlog : logOf (s.redb.commit true [.walTruncate s.dir.stamp, .metaInsert s.dir.stamp]).all =
            logOf s.redb.all := by rw [Db.all_commit]; exact logOf_concat _ _
        have hdata : ∀ id : String, (Tables.after
            (s.redb.commit true [.walTruncate s.dir.stamp, .metaInsert s.dir.stamp]).all).data[id]? =
              s.tables.data[id]? := fun id => by rw [Db.all_commit, after_concat]; rfl
        exact
          { stay hle with
            disk := d.checkpoint rfl
            mem := m.checkpoint _
            dir := ⟨index, hdir, rfl, fun id => (hsync id).congr rfl (hdata id), fun _ id =>
              (hsync id).congr rfl (hdata id)⟩
            seen := ⟨Nat.le_max_right _ _, hlog ▸ d.log_le_top⟩ }
    · refine wp_bind (wp_beginRead ?_ ⟨d, m⟩ d)
      refine wp_bind (wp_getSchemaCached_frame ?_ (fun _ => ⟨d, m⟩) d)
      obtain ⟨schema, hread, hschema⟩ := m.schemaRead_built d hdir
      have m' := m.read d
      rw [hread] at m' ⊢
      have d' : Disk env lax base s₀ lim indexed (s.withCache (some schema)) := d.setMem _
      refine wp_bind (wp_imp
        (wp_replayEntries hu64 (hschema.imp_right And.left) _ _ _ (d'.replayOk_start m' hw hdir)) ?_)
      intro r s' h
      obtain ⟨index', hdir', hfields, hview, hdocs⟩ := h.reflects
      dsimp only
      split
      · next hpos =>
        refine wp_modify_bind (wp_pure
          { disk := h.disk.setMem _
            mem := { h.mem with writer := fun w hw' => ?_ }
            writer := h.writer
            dir := ⟨index', hdir', hfields, hview, fun hz => absurd hz ?_⟩
            seen := h.seen
            top_le := htop })
        · cases h.writer.symm.trans hw'
        · show s'.mem.operations + r.sinceCommit ≠ 0
          omega
      · next hpos =>
        exact wp_pure
          { disk := h.disk
            mem := h.mem
            writer := h.writer
            dir := ⟨index', hdir', hfields, hview, fun _ => hdocs (by omega)⟩
            seen := h.seen
            top_le := htop }

end Open

end CameoDb
