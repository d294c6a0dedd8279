import CameoDb.Theorems.Storage.Convergence
import CameoDb.Theorems.Storage.Kept

namespace CameoDb
open List Std Crash

/-! # Deleting an index

Stopped between redb and the directory, a deletion leaves a directory over no rows, and an index created again opens
it. -/

/-- The index has one document for every row and no others. -/
def HoldsRowIds (s : Store) : Prop :=
  ∀ id : String, (Edit.under TantivyDocument.id s.dir.docs id).length = if s.tables.data.contains id then 1 else 0

section Lax
variable {env : Env} {lax : Prop} {base : List Txn} {s₀ s : Store} {lim : Nat} {indexed : FieldMap}

theorem Reflects.toLax {p : Parsers} {fields : SchemaFields} {docs : List TantivyDocument} {t : Tables} {id : String}
    (h : Reflects p lax fields indexed docs t id) : Reflects p True fields indexed docs t id := by
  unfold Reflects at h ⊢
  split at h
  · exact h
  · obtain ⟨seq, used, -, hdocs⟩ := h
    exact ⟨seq, used, Or.inl trivial, hdocs⟩

theorem Live.toLax (h : Live env lax base s₀ lim s) : Live env True base s₀ lim s := by
  obtain ⟨indexed, d, m⟩ := h
  refine ⟨indexed, { d with built := fun index hdir => ?_ },
    { m with cache := fun _ _ _ _ => Or.inl trivial, writer := fun w hw => ?_ }⟩
  · have ok := d.built index hdir
    refine ⟨fun _ _ => Or.inl trivial, ok.unstamped, fun id => ?_⟩
    obtain ⟨q, hb, hq, hcov, hrefl⟩ := ok.covered id
    exact ⟨q, hb, hq, hcov, hrefl.toLax⟩
  · obtain ⟨index, hdir, hfields, hseq, hview, hops⟩ := m.writer w hw
    exact ⟨index, hdir, hfields, hseq, fun id => (hview id).toLax, fun h id => (hops h id).toLax⟩

theorem Exact.holdsRowIds (h : Exact env lax base s₀ lim indexed s) : HoldsRowIds s := by
  obtain ⟨index, hdir, hdocs⟩ := h.docs
  intro id
  have hid := hdocs id
  rw [hdir, ExtTreeMap.contains_eq_isSome_getElem?]
  unfold Reflects at hid
  split at hid
  · next hrow =>
    rw [hrow]
    exact congrArg length hid
  · next body hrow =>
    rw [hrow]
    obtain ⟨seq, used, -, hid⟩ := hid
    exact congrArg length hid

/-- A schema may be stored at any time, if documents need not all have been built under it. -/
theorem Live.storeSchema (h : Live env True base s₀ lim s) (schema : IndexSchema) :
    Live env True base s₀ lim (storeSchemaAndCache schema [] s).state := by
  obtain ⟨indexed, d, m⟩ := h
  have hlog : logOf (s.redb.commit true [.schemaInsert schema]).all = logOf s.redb.all := by
    rw [Db.all_commit, logOf_concat]
    rfl
  have hafter : Tables.after (s.redb.commit true [.schemaInsert schema]).all =
      { s.tables with schema := some schema } := by
    rw [Db.all_commit, after_concat]
    rfl
  refine ⟨indexed, (d.storeSchema (fun _ _ => trivial) schema).setMem
    fun m => { m with schemaCache := some schema, fieldsCache := none }, ?_⟩
  exact
    { cache := fun _ _ _ _ => Or.inl trivial
      cache_row := fun _ schema' h => by
        cases h
        exact congrArg Tables.schema hafter
      fields := fun fields h => by
        have h : (none : Option SchemaFields) = some fields := h
        cases h
      seq := fun n hn => ⟨(m.seq n hn).1, (m.seq n hn).2.1, fun e he => (m.seq n hn).2.2 e (hlog ▸ he)⟩
      writer := fun w hw => by
        obtain ⟨index, hdir, hfields, hseq, hview, hops⟩ := m.writer w hw
        have hd : ∀ id : String, (Tables.after (s.redb.commit true [.schemaInsert schema]).all).data[id]? =
            s.tables.data[id]? := fun id => by rw [hafter]
        exact ⟨index, hdir, hfields, hseq, fun id => (hview id).congr rfl (hd id),
          fun h id => (hops h id).congr rfl (hd id)⟩ }

end Lax

/-! ### Where a deletion stops -/

/-- The index is as it was, but closed. -/
def NotDeleted (s s' : Store) : Prop := s' = s.setMem fun _ => Memory.empty

/-- A deletion whose transaction committed: the directory is as it was, partly removed or gone. -/
structure Deleted (s s' : Store) : Prop where
  redb : ∃ record, s'.redb = s.redb.commit true (dropTxn record)
  dir : s'.dir = s.dir ∨ s'.dir = .bare ∨ s'.dir = .absent
  mem : ∃ cached, s'.mem = { Memory.empty with schemaCache := cached } ∧
    ∀ schema, cached = some schema → s'.tables.schema = some schema

section Delete
variable {env : Env} {s s' : Store}

theorem dropTxn_run (t : Tables) (record : Option IndexSchema) :
    t.run (dropTxn record) = ⟨∅, ∅, none, record.or t.schema⟩ := by
  cases record <;> rfl

theorem dropTxn_log (log : List (Nat × String)) (record : Option IndexSchema) :
    (dropTxn record).foldl logWrite log = [] := by
  cases record <;> rfl

theorem wp_deleteIndexData (deleteSchema : Bool) (s : Store) :
    wp (deleteIndexData deleteSchema)
      ⟨fun _ s' => Deleted s s', fun _ s' => NotDeleted s s' ∨ Deleted s s', fun s' => NotDeleted s s' ∨
      Deleted s s'⟩ s := by
  refine wp_modify_bind (wp_gets_bind ?_)
  refine wp_step_bind ?_ (Or.inl rfl) (Or.inl rfl)
  generalize hrec : (if deleteSchema = true then
    Option.map tombstone (Store.tables (s.setMem fun _ => Memory.empty)).schema
    else none) = record
  have base : ∀ dir, dir = s.dir ∨ dir = .bare ∨ dir = .absent → Deleted s
      ⟨s.redb.commit true (dropTxn record), dir, { Memory.empty with schemaCache := record }⟩ := by
    intro dir hdir
    refine ⟨⟨record, rfl⟩, hdir, record, rfl, fun schema h => ?_⟩
    show (Tables.after (s.redb.commit true (dropTxn record)).all).schema = _
    rw [Db.all_commit, after_concat, dropTxn_run, h, Option.some_or]
  refine wp_modify_bind (wp_gets_bind ?_)
  split
  · exact wp_pure (base _ (Or.inl rfl))
  · refine wp_step_bind ?_ (Or.inr (base _ (Or.inl rfl))) (Or.inr (base _ (Or.inl rfl)))
    exact wp_step (base _ (Or.inr (Or.inr rfl))) (Or.inr (base _ (Or.inr (Or.inl rfl))))
      (Or.inr (base _ (Or.inr (Or.inl rfl))))

theorem Deleted.tables (h : Deleted s s') :
    s'.tables.data = ∅ ∧ s'.tables.wal = ∅ ∧ s'.tables.recoveryMeta = none ∧ logOf s'.redb.all = [] ∧
    s'.redb.pending = [] := by
  obtain ⟨record, hredb⟩ := h.redb
  have hafter : s'.tables = ⟨∅, ∅, none, record.or s.tables.schema⟩ := by
    rw [Store.tables, hredb, Db.all_commit, after_concat, dropTxn_run]
    rfl
  refine ⟨by rw [hafter], by rw [hafter], by rw [hafter], ?_, by rw [hredb]; rfl⟩
  rw [hredb, Db.all_commit, logOf_concat, dropTxn_log]

theorem Deleted.all_ne (h : Deleted s s') : s'.redb.all ≠ s.redb.all := by
  obtain ⟨record, hredb⟩ := h.redb
  rw [hredb, Db.all_commit]
  intro hc
  have := congrArg length hc
  simp at this

/-- A crash after the transaction changes nothing but memory: the transaction was durable. -/
theorem Deleted.crash (h : Deleted s s') (kept : Nat) : Deleted s (s'.crash kept) := by
  have hpend := h.tables.2.2.2.2
  have hredb : s'.redb.crash kept = s'.redb := by
    cases hdb : s'.redb
    rw [hdb] at hpend
    simp only at hpend
    simp [Db.crash, hpend]
  exact ⟨by rw [Store.crash, hredb]; exact h.redb, h.dir, none, rfl, by simp⟩

theorem afterCall_deleteIndexData (deleteSchema : Bool) (s : Store) (fates : List Fate) (kept : Nat) :
    (deleteIndexData deleteSchema fates s).state.redb.all = s.redb.all ∧
        (NotDeleted s (afterCall kept (deleteIndexData deleteSchema fates s)) ∨
          afterCall kept (deleteIndexData deleteSchema fates s) = s.crash kept) ∨
      (deleteIndexData deleteSchema fates s).state.redb.all ≠ s.redb.all ∧
        Deleted s (afterCall kept (deleteIndexData deleteSchema fates s)) := by
  have h := wp_deleteIndexData deleteSchema s fates
  generalize deleteIndexData deleteSchema fates s = r at h
  unfold Post.Holds at h
  unfold afterCall
  split at h
  · next hout =>
    rw [hout]
    exact Or.inr ⟨h.all_ne, h⟩
  · next hout =>
    rw [hout]
    rcases h with h | h
    · exact Or.inl ⟨by rw [h]; rfl, Or.inl h⟩
    · exact Or.inr ⟨h.all_ne, h⟩
  · next hout =>
    rw [hout]
    rcases h with h | h
    · exact Or.inl ⟨by rw [h]; rfl, Or.inr (by rw [h]; rfl)⟩
    · exact Or.inr ⟨h.all_ne, h.crash kept⟩

/-! ### A directory left behind -/

theorem wp_getOrCreateIndex_leftover {index : TantivyIndex} (hdir : s.dir = .built index) (hwal : s.tables.wal = ∅)
    (hw : s.mem.writer = none) (hops : s.mem.operations = 0) :
    wp (getOrCreateIndex env)
      ⟨fun _ s' => s'.dir = s.dir ∧ s'.tables.data = s.tables.data ∧ s'.mem.operations = 0, fun _ _ => True,
        fun _ => True⟩ s := by
  refine wp_getOrCreateIndex_of (fun w hw' => absurd (hw.symm.trans hw') nofun) (fun _ index _ => ?_)
    (fun _ hno => absurd hdir (hno index))
    (fun _ _ _ => trivial) fun _ _ => trivial
  generalize s.schemaRead = cached
  refine wp_step_bind ?_ trivial trivial
  have hmax : (s.withCache cached).tables.maxWalSeq = 0 := by
    rw [Tables.maxWalSeq, show (s.withCache cached).tables.wal = ∅ from hwal]
    rfl
  refine wp_bind (wp_bind (wp_beginRead ?_ trivial trivial))
  refine wp_bind (wp_checkpointSeq_frame index (fun seq s' hdir' hmem' hkept => ?_) (fun _ => trivial) trivial)
  dsimp only
  rw [if_pos hmax]
  refine wp_pure (wp_modify_bind (wp_pure ⟨hdir', hkept.data, ?_⟩))
  show s'.mem.operations = 0
  rw [hmem']
  exact hops

variable (env) in
theorem reopen_leftover {index : TantivyIndex} (hdir : s.dir = .built index) (hwal : s.tables.wal = ∅)
    (hw : s.mem.writer = none) (hops : s.mem.operations = 0) :
    (reopen env [] s).outcome = .ok () ∧ (reopen env [] s).state.dir = s.dir ∧
      (reopen env [] s).state.tables.data = s.tables.data := by
  have hopen : Succeeds (getOrCreateIndex env) s := by
    refine Succeeds.gets_bind ?_
    rw [hw]
    have hdir' : (s.withCache s.schemaRead).dir = .built index := hdir
    refine (returns_getSchemaCached (.inl (by simp [hdir]))).succeeds_bind (Succeeds.gets_bind ?_)
    rw [hdir']
    exact Succeeds.step_bind (succeeds_openWriter (by simp [hdir']))
  obtain ⟨fields, s', hret⟩ := hopen
  obtain ⟨hdir', hdata', hops'⟩ := hret.post (wp_getOrCreateIndex_leftover hdir hwal hw hops)
  have hrun : reopen env [] s = ⟨.ok (), [], s'⟩ := by
    rw [reopen, Prog.bind_apply, hret]
    simp only [commitIndex, Prog.bind_apply, Prog.gets, if_pos hops']
    rfl
  rw [hrun]
  exact ⟨rfl, hdir', hdata'⟩

theorem Deleted.not_holdsRowIds (h : Deleted s s') (hdocs : s'.dir.docs ≠ [])
    (hall : ∀ steps, (reopen env steps (storeSchemaAndCache .default [] s').state).outcome = .ok () →
      HoldsRowIds (reopen env steps (storeSchemaAndCache .default [] s').state).state) : False := by
  obtain ⟨hdata, hwal, -⟩ := h.tables
  obtain ⟨cached, hmem, -⟩ := h.mem
  cases hdir : s'.dir with
  | absent | bare => simp [hdir, IndexDir.docs] at hdocs
  | built index =>
    have hafter : (storeSchemaAndCache .default [] s').state.tables = { s'.tables with schema := some .default } := by
      show Tables.after (s'.redb.commit true [.schemaInsert .default]).all = _
      rw [Db.all_commit, after_concat]
      rfl
    have hw : (storeSchemaAndCache .default [] s').state.mem.writer = none := by
      show s'.mem.writer = none
      rw [hmem]
      rfl
    have hops : (storeSchemaAndCache .default [] s').state.mem.operations = 0 := by
      show s'.mem.operations = 0
      rw [hmem]
      rfl
    have hdir' : (storeSchemaAndCache .default [] s').state.dir = .built index := hdir
    have hwal' : (storeSchemaAndCache .default [] s').state.tables.wal = ∅ := by rw [hafter]; exact hwal
    obtain ⟨hok, hkeep, hrows⟩ := reopen_leftover env hdir' hwal' hw hops
    have hids := hall [] hok
    obtain ⟨doc, hdoc⟩ := exists_mem_of_ne_nil _ hdocs
    have hid := hids doc.id
    rw [hkeep, hrows, hafter, show (storeSchemaAndCache .default [] s').state.dir = s'.dir from rfl, hdata] at hid
    have hmem : doc ∈ Edit.under TantivyDocument.id s'.dir.docs doc.id := mem_filter.mpr ⟨hdoc, by simp⟩
    have hpos := length_pos_of_mem hmem
    simp at hid
    simp [hid] at hpos

/-- With no document left behind, the next index of the name starts empty. -/
theorem Deleted.live {base : List Txn} {s₀ : Store} {lim : Nat} {lax : Prop} (h : Deleted s s')
    (hdocs : s'.dir.docs = []) (hs : Safe env lax base s₀ lim s) : Live env True s'.redb.all s' lim s' := by
  obtain ⟨hdata, hwal, hmeta, hlog, hpend⟩ := h.tables
  obtain ⟨cached, hmem, hrow⟩ := h.mem
  obtain ⟨indexed, d⟩ := hs
  refine Live.start hdata hwal hmeta hlog hpend hdocs ?_ (fun _ _ => trivial) cached hmem hrow
  rcases h.dir with hdir | hdir | hdir
  · rw [hdir]
    exact d.stamp_le
  · rw [hdir]
    exact Nat.zero_le _
  · rw [hdir]
    exact Nat.zero_le _

end Delete

/-- Deleting an index, stopped anywhere, keeps every index created later under its name free of its documents
    exactly when the transaction did not commit, or the directory left behind holds no document. -/
theorem deleted_stays_deleted_iff (env : Env) (declared : Option IndexSchema) (events : List Event)
    (deleteSchema : Bool) (fates : List Fate) (kept : Nat) (fits : (events.map Event.size).sum < u64Limit - 1) :
    let s := runEvents env (Store.initial declared) events
    let r := deleteIndexData deleteSchema fates s
    (∀ schema later, ((events ++ later).map Event.size).sum < u64Limit - 1 → ∀ steps,
      let s' := runEvents env (storeSchemaAndCache schema [] (afterCall kept r)).state later
      (reopen env steps s').outcome = .ok () → HoldsRowIds (reopen env steps s').state) ↔
    r.state.redb.all = s.redb.all ∨ (afterCall kept r).dir.docs = [] := by
  intro s r
  have hlive : Live env False _ s _ s := (Live.initial declared).run events (by omega)
  have hstop := afterCall_deleteIndexData deleteSchema s fates kept
  constructor
  · intro h
    rcases hstop with ⟨hall, -⟩ | ⟨-, hdel⟩
    · exact Or.inl hall
    · refine Or.inr ?_
      by_contra hdocs
      exact hdel.not_holdsRowIds hdocs fun steps => h .default [] (by simpa using fits) steps
  · intro h schema later hfits steps s' hok
    rw [map_append, sum_append] at hfits
    have hstart : ∃ base, Live env True base (afterCall kept r) (0 + (events.map Event.size).sum)
        (afterCall kept r) := by
      rcases hstop with ⟨-, hnot | hcrash⟩ | ⟨hne, hdel⟩
      · obtain ⟨indexed, d, -⟩ := hlive
        rw [show afterCall kept r = _ from hnot]
        exact ⟨_, (Live.toLax ⟨indexed, d.setMem _, MemOk.empty⟩).rebase⟩
      · rw [show afterCall kept r = _ from hcrash]
        exact ⟨_, (hlive.safe.crash kept).toLax⟩
      · exact ⟨_, hdel.live (h.resolve_left hne) hlive.safe⟩
    obtain ⟨base, hstart⟩ := hstart
    have hrun := (hstart.storeSchema schema).rebase.run later (by omega)
    have hexact := wp_reopen (by omega) hrun steps
    unfold Post.Holds at hexact
    rw [hok] at hexact
    exact hexact.choose_spec.holdsRowIds

def committedOnce : List Event := [.call (.applyBatch [.put "a" none]) [] 0, .call .commitIndex [] 0]

/-- Re-created after that, the index still holds the deleted document. -/
theorem deleted_comes_back :
    let s := runEvents plainEnv (Store.initial none) committedOnce
    let r := deleteIndexData true [.ok, .crash] s
    let s' := runEvents plainEnv (storeSchemaAndCache .default [] (afterCall 0 r)).state
      [.call (.applyBatch [.put "b" none]) [] 0]
    (reopen plainEnv [] s').outcome = .ok () ∧
      (reopen plainEnv [] s').state.tables.data.keys = ["b"] ∧
      (reopen plainEnv [] s').state.dir.docs.map TantivyDocument.id = ["a", "b"] ∧
      ¬ HoldsRowIds (reopen plainEnv [] s').state := by
  refine ⟨by decide +kernel, by decide +kernel, by decide +kernel, fun h => ?_⟩
  have ha := h "a"
  revert ha
  decide +kernel

theorem deleted_stays_deleted_iff_committedOnce :
    let s := runEvents plainEnv (Store.initial none) committedOnce
    let r := deleteIndexData true [] s
    (∀ schema later, ((committedOnce ++ later).map Event.size).sum < u64Limit - 1 → ∀ steps,
      let s' := runEvents plainEnv (storeSchemaAndCache schema [] (afterCall 0 r)).state later
      (reopen plainEnv steps s').outcome = .ok () → HoldsRowIds (reopen plainEnv steps s').state) :=
  (deleted_stays_deleted_iff plainEnv none committedOnce true [] 0 (by decide +kernel)).mpr (Or.inr (by decide +kernel))

end CameoDb
