import CameoDb.Theorems.Storage.Quiet

namespace CameoDb
open List Std Crash

/-! # Batches one after another

What an index accepts on its own it accepts inside any batch, so batches one by one do what their concatenation does. -/

/-! ### Opening for a write -/

/-- The schema, cached or stored, is of a live index. -/
def Store.Active (s : Store) : Prop := ∀ schema, s.mem.schemaCache.or s.tables.schema = some schema →
    schema.state = .active

section Opening
variable {env : Env} {s : Store}

theorem mergeDerived_active {row : Option IndexSchema} (h : ∀ stored, row = some stored → stored.state = .active)
    (fields : SchemaFields) : (mergeDerived row fields).state = .active := by
  cases row with
  | none => rfl
  | some stored =>
    unfold mergeDerived
    dsimp only
    split <;> exact h stored rfl

namespace Store.Active

theorem row (hs : s.Active) (hc : s.mem.schemaCache = none) (stored : IndexSchema) (h : s.tables.schema = some stored) :
    stored.state = .active := hs stored (by rw [hc]; exact h)

theorem withCache (hs : s.Active) : (s.withCache s.schemaRead).Active := by
  intro schema h
  replace h : s.schemaRead.or s.tables.schema = some schema := h
  cases hc : s.mem.schemaCache with
  | some cached =>
    refine hs schema ?_
    rw [hc]
    simpa [Store.schemaRead, hc] using h
  | none =>
    cases hcols : s.dir.columns? with
    | none => exact hs.row hc schema (by simpa [Store.schemaRead, hc, hcols] using h)
    | some fields =>
      have hmerged : mergeDerived s.tables.schema fields = schema := by simpa [Store.schemaRead, hc, hcols] using h
      rw [← hmerged]
      exact mergeDerived_active (hs.row hc) fields

theorem reopened {s' : Store} (hs : s.Active) (h : Reopened s s') : s'.Active := by
  intro schema hschema
  rw [h.schema] at hschema
  rcases h.cache with hc | hc
  · exact hs schema (hc ▸ hschema)
  · exact hs.withCache schema (hc ▸ hschema)

theorem createdSchema (hs : s.Active) (schema : IndexSchema) : (s.createdSchema schema).1.state = .active := by
  have hcurrent : (s.mem.schemaCache.getD (mergeDerived s.tables.schema (createSchemaFromDefinition schema))).state =
      .active := by
    cases hc : s.mem.schemaCache with
    | some cached => exact hs cached (by rw [hc]; rfl)
    | none => exact mergeDerived_active (hs.row hc) _
  unfold Store.createdSchema
  dsimp only
  split <;> exact hcurrent

end Store.Active

/-- A schema in force that is not a drop's record stays one when the index is opened, and the log stays as it is. -/
theorem wp_getOrCreateIndex_active (hs : s.Active) :
    wp (getOrCreateIndex env) (.returning fun _ s' => s'.Active ∧ logOf s'.redb.all = logOf s.redb.all) s := by
  have opened (index : TantivyIndex) (s₁ : Store) (hact : s₁.Active) (hlog : logOf s₁.redb.all = logOf s.redb.all) :
      wp (openWriter env index) (.returning fun _ s' => s'.Active ∧ logOf s'.redb.all = logOf s.redb.all) s₁ :=
    wp_returning (wp_openWriter_reopens index (Reopened.refl s₁)) fun _ s₂ h₂ => ⟨hact.reopened h₂, h₂.log.trans hlog⟩
  refine wp_getOrCreateIndex_of (fun w _ => ⟨hs, rfl⟩)
    (fun _ index _ => opened index _ hs.withCache rfl) (fun _ _ => ?_)
    (fun _ _ _ => trivial) fun _ _ => trivial
  refine wp_bind (wp_createIndex_frame _ (fun index s₁ _ _ h₁ _ hlog => ?_) (fun _ _ => trivial) fun _ => trivial)
  refine opened index s₁ (fun schema h => ?_) hlog
  rw [h₁.cached] at h
  cases h
  exact hs.withCache.createdSchema _

end Opening

/-! ### What is admitted -/

/-- The operation alone would be applied. -/
def Accepted (env : Env) (s : Store) (op : WalOp) : Prop := Succeeds (applyBatch env [op]) s

instance (env : Env) (s : Store) (op : WalOp) : Decidable (Accepted env s op) :=
  inferInstanceAs (Decidable (Succeeds (applyBatch env [op]) s))

section Admit
variable {env : Env} {s : Store}

def Store.known (s : Store) : Bool :=
  match s.mem.schemaCache with
  | some schema => schema.state = .active
  | none => s.mem.writer.isSome || s.tables.schema.any (·.state = .active)

theorem returns_indexExists (s : Store) : Returns indexExists s s.known s := by
  unfold Returns indexExists Store.known
  rw [Prog.bind_apply]
  simp only [Prog.gets]
  cases s.mem.schemaCache with
  | some schema => rfl
  | none => cases s.mem.writer <;> rfl

theorem returns_indexWasDropped (s : Store) :
    Returns indexWasDropped s ((s.mem.schemaCache.or s.tables.schema).any (·.state = .dropped)) s := by
  unfold Returns indexWasDropped
  rw [Prog.bind_apply]
  simp only [Prog.gets]
  cases s.mem.schemaCache with
  | some schema => rfl
  | none => rfl

theorem admitBatch_quiet (env : Env) (ops : List WalOp) (s : Store) :
    admitBatch env ops [] s =
      ⟨if (ops.all WalOp.isDelete && !s.known) || (s.mem.schemaCache.or s.tables.schema).any (·.state = .dropped)
        then .error (.indexNotFound env.index) else .ok (), [], s⟩ := by
  have hmissing : Returns (if ops.all WalOp.isDelete then do
      let exists_ ← indexExists
      pure (!exists_)
    else pure false : StoreM Bool) s (ops.all WalOp.isDelete && !s.known) s := by
    cases hall : ops.all WalOp.isDelete with
    | true => exact (returns_indexExists s).bind rfl
    | false => rfl
  rw [admitBatch, Prog.bind_apply, hmissing]
  dsimp only
  cases ops.all WalOp.isDelete && !s.known with
  | true => rfl
  | false =>
    have hdropped : indexWasDropped [] s = _ := returns_indexWasDropped s
    simp only [Bool.false_eq_true, if_false, Prog.bind_apply, Bool.false_or]
    rw [hdropped]
    cases (s.mem.schemaCache.or s.tables.schema).any (·.state = .dropped) <;> rfl

variable {ops : List WalOp}

theorem applyBatch_quiet (hops : ops ≠ []) :
    applyBatch env ops [] s = (admitBatch env ops >>= fun _ => openForWrite env >>= fun opened =>
      applyOpened env ops opened.1 opened.2) [] s := by
  rw [applyBatch, if_neg hops]

/-- What an accepted operation says of the state: it is admitted, and the index can be opened. -/
theorem Accepted.admitted {op : WalOp} (h : Accepted env s op) :
    (op.isDelete = true → s.known = true) ∧ s.Active ∧ Succeeds (openForWrite env >>= fun opened =>
      applyOpened env [op] opened.1 opened.2) s := by
  obtain ⟨r, s', h⟩ := h
  unfold Returns at h
  rw [applyBatch_quiet (by simp), Prog.bind_apply, admitBatch_quiet] at h
  by_cases hc : ([op].all WalOp.isDelete && !s.known) || (s.mem.schemaCache.or s.tables.schema).any (·.state = .dropped)
  · rw [if_pos hc] at h
    simp at h
  · rw [if_neg hc] at h
    simp only [all_cons, all_nil, Bool.and_true, Bool.or_eq_true, Bool.and_eq_true, Bool.not_eq_true',
      not_or, not_and, Bool.not_eq_false, Bool.not_eq_true] at hc
    refine ⟨hc.1, fun schema hs => ?_, r, s', h⟩
    have := hc.2
    rw [hs] at this
    cases hst : schema.state with
    | active => rfl
    | dropped => simp [hst] at this

theorem admitBatch_of_accepted (hops : ops ≠ []) (h : ∀ op ∈ ops, Accepted env s op) :
    Returns (admitBatch env ops) s () s := by
  obtain ⟨op, rest, rfl⟩ := exists_cons_of_ne_nil hops
  obtain ⟨hknown, hactive, -⟩ := (h op (mem_cons_self ..)).admitted
  have hdropped : (s.mem.schemaCache.or s.tables.schema).any (·.state = .dropped) = false := by
    cases hc : s.mem.schemaCache.or s.tables.schema with
    | none => rfl
    | some schema => simp [hactive schema hc]
  unfold Returns
  rw [admitBatch_quiet, hdropped]
  cases hdel : op.isDelete with
  | true => simp [hknown hdel]
  | false => simp [hdel]

end Admit

/-! ### Opening -/

/-- The index opens for writing and the log is left as it was. -/
structure Opens (env : Env) (s s' : Store) (index : TantivyIndex) (w : Writer) (schema : IndexSchema)
    (last : Nat) : Prop where
  returns : Returns (openForWrite env) s (w.fields, schema) s'
  ready : Ready s' index w schema last
  log : logOf s'.redb.all = logOf s.redb.all

section Opens
variable {env : Env} {lax : Prop} {base : List Txn} {s₀ s s' : Store} {lim : Nat} {index : TantivyIndex} {w : Writer}
  {schema : IndexSchema} {last : Nat}

theorem Ready.opens (h : Ready s index w schema last) : Opens env s s index w schema last := ⟨h.openForWrite, h, rfl⟩

theorem Live.opens (hlim : lim < u64Limit - 1) (h : Live env lax base s₀ lim s) (hact : s.Active)
    (hdir : s.dir ≠ .bare ∨ s.mem.schemaCache ≠ none) :
    ∃ s' index w schema last, Opens env s s' index w schema last ∧ Live env lax base s₀ lim s' := by
  obtain ⟨fields, s₁, hopen⟩ := succeeds_getOrCreateIndex h hdir
  obtain ⟨indexed, h₁⟩ := hopen.post (wp_getOrCreateIndex hlim h)
  obtain ⟨hact₁, hlog₁⟩ := hopen.post (wp_getOrCreateIndex_active hact)
  obtain ⟨w, hw, rfl⟩ := h₁.writer
  obtain ⟨index, hbuilt, -, hseq, -⟩ := h₁.mem.writer w hw
  obtain ⟨last, hlast⟩ := Option.isSome_iff_exists.mp hseq
  obtain ⟨schema, hschema⟩ := Store.schemaRead_of_built hbuilt
  have hread : Returns getSchemaCached s₁ s₁.schemaRead (s₁.withCache s₁.schemaRead) :=
    returns_getSchemaCached (Or.inl (by simp [hbuilt]))
  have hstate : schema.state = .active := by
    refine hact₁.withCache schema ?_
    show s₁.schemaRead.or _ = _
    rw [hschema]
    rfl
  have m₂ := h₁.mem.read h₁.disk
  rw [hschema] at hread m₂
  refine ⟨s₁.withCache (some schema), index, w, schema, last, ⟨hopen.bind (hread.bind rfl), ?_, hlog₁⟩, indexed,
    h₁.disk.setMem _, m₂⟩
  exact ⟨hbuilt, hw, h₁.cached, rfl, hlast, hstate⟩

theorem openForWrite_of_bare (hw : s.mem.writer = none) (hc : s.mem.schemaCache = none) (hdir : s.dir = .bare) :
    openForWrite env [] s = ⟨.error .tantivy, [], s⟩ := by
  have hread : getSchemaCached [] s = ⟨.error .tantivy, [], s⟩ := by
    simp [getSchemaCached, beginRead, Prog.bind_apply, Prog.gets, Prog.touch, Prog.step, Prog.throw, hc, hdir]
  simp [openForWrite, getOrCreateIndex, Prog.bind_apply, Prog.gets, hw, hread]

variable {op : WalOp}

theorem Live.opens_of_accepted (hlim : lim < u64Limit - 1) (h : Live env lax base s₀ lim s) (hop : Accepted env s op) :
    ∃ s' index w schema last, Opens env s s' index w schema last ∧ Live env lax base s₀ lim s' := by
  obtain ⟨-, hact, r, s', hrest⟩ := hop.admitted
  refine h.opens hlim hact ?_
  by_contra hbare
  simp only [not_or, not_not] at hbare
  have hw : s.mem.writer = none := Option.eq_none_iff_forall_not_mem.mpr fun w hw => by
    obtain ⟨_, -, m⟩ := h
    obtain ⟨index, hbuilt, -⟩ := m.writer w hw
    simp [hbare.1] at hbuilt
  unfold Returns at hrest
  rw [Prog.bind_apply, openForWrite_of_bare hw hbare.2 hbare.1] at hrest
  simp at hrest

theorem Opens.prepares (h : Opens env s s' index w schema last) (hop : Accepted env s op) :
    ∃ seq prepared, prepareOp env w.fields schema op seq = .ok prepared := by
  obtain ⟨-, -, r, s'', hrest⟩ := hop.admitted
  unfold Returns at hrest
  rw [Prog.bind_apply, h.returns] at hrest
  dsimp only at hrest
  rw [applyOpened_open h.ready.writer h.ready.cache, h.ready.seq] at hrest
  cases hp : prepareOp env w.fields schema op (last + 1) with
  | ok prepared => exact ⟨_, prepared, hp⟩
  | error e => simp [prepareOps, hp] at hrest

end Opens

/-! ### Batches in a row -/

/-- The numbers batches get when they are numbered in a row. -/
def runsFrom : Nat → List (List WalOp) → List (List Nat)
  | _, [] => []
  | start, ops :: rest => range' start ops.length :: runsFrom (start + ops.length) rest

/-- What a write leaves of an index it opened: the operations one by one, and the index open. -/
structure Applied (env : Env) (lax : Prop) (base : List Txn) (s₀ : Store) (lim : Nat) (s s' : Store)
    (index : TantivyIndex)
    (fields : SchemaFields) (schema : IndexSchema) (last : Nat) (prepared : List PreparedOp) : Prop where
  wrote : Wrote s s' prepared
  ready : ∃ w schema', w.fields = fields ∧ SameDocs schema schema' ∧ Ready s' index w schema' last
  live : Live env lax base s₀ lim s'

section Serial
variable {env : Env} {lax : Prop} {base : List Txn} {s₀ s s' : Store} {lim : Nat} {index : TantivyIndex} {w : Writer}
  {schema : IndexSchema} {last : Nat} {prepared : List PreparedOp}

theorem Opens.applyBatch (h : Opens env s s' index w schema last)
    (hlive : Live env lax base s₀ lim s') {ops : List WalOp}
    (hops : ops ≠ []) (haccept : Returns (admitBatch env ops) s () s) (hlim : lim + ops.length < u64Limit - 1)
    (hprep : prepareOps env w.fields schema ops (last + 1) = .ok prepared) :
    ∃ fresh s'', Returns (applyBatch env ops) s (range' (last + 1) ops.length, fresh) s'' ∧
      Applied env lax base s₀ (lim + ops.length) s' s'' index w.fields schema (last + ops.length) prepared := by
  have hrun := h.ready.applyOpened hprep
  obtain ⟨hwrote, w', hfields, hready⟩ := h.ready.wrote hlive hprep
  rw [(prepareOps_spec hprep).1] at hrun
  have hret : ∀ s₁, Returns (admitBatch env ops) s₁ () s₁ → Returns (openForWrite env) s₁ (w.fields, schema) s' →
      Returns (CameoDb.applyBatch env ops) s₁
        (range' (last + 1) ops.length, newDocumentsCount (finalOps s'.tables.data prepared []))
        (s'.written env w last ops.length (schema.evolution env ops) prepared) := by
    intro s₁ haccept hopen
    rw [CameoDb.applyBatch, if_neg hops]
    exact haccept.bind (hopen.bind hrun)
  refine ⟨_, _, hret s haccept h.returns, hwrote, ⟨w', _, hfields, .learned env schema ops, hready⟩, ?_⟩
  exact (hret s' (h.ready.admitBatch ops) h.ready.openForWrite).post (wp_applyBatch ops hlim hlive)

theorem Opens.applyBatches (h : Opens env s s' index w schema last) (hlive : Live env lax base s₀ lim s')
    (segs : List (List WalOp))
    (haccept : ∀ ops ∈ segs, ops ≠ [] → Returns (admitBatch env ops) s () s)
    (hlim : lim + segs.flatten.length < u64Limit - 1)
    (hprep : prepareOps env w.fields schema segs.flatten (last + 1) = .ok prepared) :
    ∃ rs s'', Steps (CameoDb.applyBatch env) s segs rs s'' ∧ rs.map Prod.fst = runsFrom (last + 1) segs ∧
      (segs.flatten = [] ∧ s'' = s ∨ Applied env lax base s₀ (lim + segs.flatten.length) s' s'' index w.fields schema
        (last + segs.flatten.length) prepared) := by
  induction segs generalizing s s' w schema last lim prepared with
  | nil => exact ⟨[], s, .nil s, rfl, Or.inl ⟨rfl, rfl⟩⟩
  | cons ops rest ih =>
    by_cases hops : ops = []
    · -- An empty batch is not applied at all.
      subst hops
      obtain ⟨rs, s'', hrest, hseqs, hleaves⟩ :=
        ih h hlive (fun ops hmem => haccept ops (mem_cons_of_mem _ hmem)) hlim hprep
      have hskip : Returns (CameoDb.applyBatch env []) s ([], 0) s := rfl
      exact ⟨_, s'', .cons hskip hrest, congrArg ([] :: ·) hseqs, hleaves⟩
    · rw [flatten_cons, length_append] at hlim ⊢
      rw [flatten_cons] at hprep
      obtain ⟨ps, qs, rfl, hps, hqs⟩ := prepareOps_append hprep
      obtain ⟨fresh, s₁, hone, happ⟩ := h.applyBatch hlive hops (haccept ops (mem_cons_self ..) hops) (by omega) hps
      obtain ⟨w₁, schema₁, hfields, hsame, hready⟩ := happ.ready
      rw [← hfields, ← hsame.prepareOps, Nat.add_right_comm] at hqs
      obtain ⟨rs, s₂, hrest, hseqs, hleaves⟩ :=
        ih hready.opens happ.live (fun ops _ _ => hready.admitBatch ops) (by omega) hqs
      rw [← Nat.add_right_comm] at hseqs
      refine ⟨_, s₂, .cons hone hrest, congrArg (_ :: ·) hseqs, Or.inr ?_⟩
      rw [← Nat.add_assoc, ← Nat.add_assoc]
      rcases hleaves with ⟨hnil, rfl⟩ | happ₂
      · rw [hnil] at hqs ⊢
        cases hqs
        rw [append_nil]
        exact happ
      · obtain ⟨w₂, schema₂, hfields₂, hsame₂, hready₂⟩ := happ₂.ready
        exact ⟨happ.wrote.append happ₂.wrote, ⟨w₂, schema₂, hfields₂.trans hfields, hsame.trans hsame₂, hready₂⟩,
          happ₂.live⟩

variable (env) in
/-- A commit publishes what the open writer holds. -/
theorem Ready.commitIndex (h : Ready s index w schema last) (hops : s.mem.operations ≠ 0) :
    ∃ s', Returns (commitIndex env) s () s' ∧ ∀ id, Edit.under TantivyDocument.id s'.dir.docs id =
    s.pendingDocs id := by
  obtain ⟨_, s₁, hbarrier⟩ : Succeeds (durabilityBarrier env) s := succeeds_durabilityBarrier
  have hkept : s₁.dir = s.dir ∧ s₁.mem = s.mem := by
    unfold durabilityBarrier at hbarrier
    split at hbarrier <;> cases hbarrier <;> exact ⟨rfl, rfl⟩
  have hlocked : Returns (commitLockedWriter env w) s (some last)
      ((s₁.setDir (.built (index.commit w.buffer (some (encodeCheckpointPayload last))))).setMem
        fun m => { m with writer := some ⟨w.fields, []⟩ }) := by
    have hpublish : Returns (commitWriter w.buffer (some last)) s₁ ()
        (s₁.setDir (.built (index.commit w.buffer (some (encodeCheckpointPayload last))))) := by
      unfold Returns commitWriter Prog.step
      dsimp only
      rw [hkept.1, h.dir]
      rfl
    refine Returns.bind (a := s.mem) rfl (hbarrier.bind ?_)
    rw [h.seq]
    exact hpublish.bind rfl
  have hattempt : Returns (Prog.attempt (commitLockedWriter env w)) s (.ok (some last)) _ := hlocked.attempt
  obtain ⟨_, s₂, hcheck⟩ : Succeeds (checkpointCommitted last)
      ((s₁.setDir (.built (index.commit w.buffer (some (encodeCheckpointPayload last))))).setMem
        fun m => { m with writer := some ⟨w.fields, []⟩ }) := succeeds_checkpointCommitted last
  have hdir : s₂.dir = .built (index.commit w.buffer (some (encodeCheckpointPayload last))) := by
    unfold checkpointCommitted at hcheck
    split at hcheck <;> cases hcheck <;> rfl
  have hopen : Returns (commitOpenWriter env w) s () (s₂.setMem fun m => { m with operations := 0 }) :=
    hattempt.bind (hcheck.bind rfl)
  refine ⟨s₂.setMem fun m => { m with operations := 0 }, Returns.bind (a := s.mem) rfl ?_, fun id => ?_⟩
  · rw [if_neg hops, h.writer]
    exact hopen
  · show Edit.under TantivyDocument.id s₂.dir.docs id = _
    rw [hdir, h.pendingDocs]
    rfl

end Serial

end CameoDb
