import CameoDb.Theorems.Storage.Runs

namespace CameoDb
open List Std Crash

/-! # Recovery and sequence numbers along every run

From any state of a run, opening and committing the index leaves Tantivy with the documents of redb's rows. -/

def reopen (env : Env) : StoreM Unit := do
  let _ ← getOrCreateIndex env
  commitIndex env

/-- For every row of redb Tantivy's last commit holds one document, the one built from that row, and for an id without a
    row none. -/
def Converged (env : Env) (s : Store) : Prop :=
  ∀ id : String, match s.tables.data[id]? with
    | none => Edit.under TantivyDocument.id s.dir.docs id = []
    | some body => ∃ index seq doc, s.dir = .built index ∧
        index.fields.document env.parsers (mergeDerived s.tables.schema index.fields) id seq body
          .skipAndWarn = .ok doc ∧ Edit.under TantivyDocument.id s.dir.docs id = [doc]

section Converge
variable {env : Env} {lax : Prop} {base : List Txn} {s₀ s : Store} {lim : Nat} {indexed : FieldMap}

theorem Exact.converged (h : Exact env False base s₀ lim indexed s) : Converged env s := by
  obtain ⟨index, hdir, hdocs⟩ := h.docs
  have hschema := (h.disk.built index hdir).schema _ (between_all _)
  intro id
  have hid := hdocs id
  unfold Reflects at hid
  rw [hdir]
  cases hrow : s.tables.data[id]? with
  | none =>
    rw [hrow] at hid
    exact hid
  | some body =>
    rw [hrow] at hid
    obtain ⟨seq, used, hused, hid⟩ := hid
    obtain rfl := hused.resolve_left not_false
    refine ⟨index, seq, _, rfl, SchemaFields.document_skip id seq body, ?_⟩
    rw [show (mergeDerived s.tables.schema index.fields).indexedFields = used from hschema.resolve_left not_false]
    exact hid

theorem Safe.converged_of_unbuilt (h : Safe env lax base s₀ lim s) (hno : ∀ index, s.dir ≠ .built index) :
    Converged env s := by
  obtain ⟨indexed, d⟩ := h
  intro id
  rw [d.no_rows (d.unbuilt hno).1 id]
  cases hdir : s.dir with
  | built index => exact absurd hdir (hno index)
  | absent => rfl
  | bare => rfl

theorem wp_reopen (hlim : lim < u64Limit - 1) (h : Live env lax base s₀ lim s) :
    wp (reopen env)
      (orLive env lax base s₀ lim fun _ s' => ∃ indexed, Exact env lax base s₀ lim indexed s') s := by
  refine wp_bind (wp_imp (wp_getOrCreateIndex hlim h) ?_)
  rintro fields s' ⟨indexed, h'⟩
  obtain ⟨w, hw, -⟩ := h'.writer
  refine wp_imp (wp_commitIndex hlim h'.live) (fun _ _ h => ?_)
  exact h.2 (by rw [hw]; rfl)

theorem succeeds_reopen (hlim : lim < u64Limit - 1) (h : Live env lax base s₀ lim s)
    (hdir : s.dir ≠ .bare ∨ s.mem.schemaCache ≠ none) : Succeeds (reopen env) s := by
  refine Succeeds.bind (succeeds_getOrCreateIndex h hdir) fun fields s' hret => ?_
  obtain ⟨indexed, h'⟩ := hret.post (wp_getOrCreateIndex hlim h)
  obtain ⟨w, hw, -⟩ := h'.writer
  exact succeeds_commitIndex hw

theorem reopen_of_bare (hw : s.mem.writer = none) (hc : s.mem.schemaCache = none) (hdir : s.dir = .bare) :
    reopen env [] s = ⟨.error .tantivy, [], s⟩ := by
  have hread : getSchemaCached [] s = ⟨.error .tantivy, [], s⟩ := by
    simp [getSchemaCached, beginRead, Prog.bind_apply, Prog.gets, Prog.touch, Prog.step, Prog.throw, hc, hdir]
  simp [reopen, getOrCreateIndex, Prog.bind_apply, Prog.gets, hw, hread]

/-- What reopening does to a live index, whatever fails and where nothing does. -/
structure Recovers (env : Env) (s : Store) : Prop where
  exact : ∀ fates, (reopen env fates s).outcome = .ok () → Converged env (reopen env fates s).state
  quiet : Converged env (reopen env [] s).state
  returns : s.dir ≠ .bare → (reopen env [] s).outcome = .ok ()

theorem Live.recovers (hlim : lim < u64Limit - 1) (h : Live env False base s₀ lim s) : Recovers env s := by
  have exact : ∀ fates, (reopen env fates s).outcome = .ok () → Converged env (reopen env fates s).state := by
    intro fates hok
    have := wp_reopen hlim h fates
    unfold Post.Holds at this
    rw [hok] at this
    obtain ⟨indexed, hexact⟩ := this
    exact hexact.converged
  have returns : s.dir ≠ .bare ∨ s.mem.schemaCache ≠ none → (reopen env [] s).outcome = .ok () := fun hdir => by
    obtain ⟨_, s', hret⟩ := succeeds_reopen hlim h hdir
    rw [hret]
  refine ⟨exact, ?_, fun hdir => returns (Or.inl hdir)⟩
  by_cases hdir : s.dir ≠ .bare ∨ s.mem.schemaCache ≠ none
  · exact exact [] (returns hdir)
  · simp only [not_or, not_not] at hdir
    have hno : ∀ index, s.dir ≠ .built index := by simp [hdir.1]
    have hw : s.mem.writer = none := Option.eq_none_iff_forall_not_mem.mpr fun w hw => by
      obtain ⟨_, -, m⟩ := h
      obtain ⟨index, hbuilt, -⟩ := m.writer w hw
      exact hno index hbuilt
    rw [reopen_of_bare hw hdir.2 hdir.1]
    exact h.safe.converged_of_unbuilt hno

end Converge

/-- After every run of an index, with every step of it failing or stopping the process where it may, opening the
    index and committing leaves Tantivy with exactly the documents of redb's rows. -/
theorem recovery_converges (env : Env) (schema : Option IndexSchema) (events : List Event)
    (fits : (events.map Event.size).sum < u64Limit - 1) :
    Recovers env (runEvents env (Store.initial schema) events) :=
  have hfits : 0 + (events.map Event.size).sum < u64Limit - 1 := by omega
  ((Live.initial schema).run events hfits).recovers hfits

/-- A store without `wal_sync`, whose parsers read nothing out of a text. -/
def plainEnv : Env :=
  ⟨⟨false, 10⟩, ⟨fun _ => "", fun _ => 0, fun _ => none, fun _ => false, fun _ => none, fun _ => none, fun t => t⟩,
    "products"⟩

/-- A batch that is stopped after its redb commit, before its first edit of the writer. -/
def lostPass : List Event :=
  [.call (.applyBatch [.put "a" none, .put "b" none, .delete "b"]) (replicate 11 .ok ++ [.crash]) 1]

theorem recovery_converges_lostPass :
    (runEvents plainEnv (Store.initial none) lostPass).tables.data.keys = ["a"] ∧
      (runEvents plainEnv (Store.initial none) lostPass).dir.docs = [] ∧
      Recovers plainEnv (runEvents plainEnv (Store.initial none) lostPass) :=
  ⟨by decide +kernel, by decide +kernel, recovery_converges plainEnv none lostPass (by decide +kernel)⟩

/-! ### Sequence numbers -/

/-- The last commit shows, for this operation's id, a state of redb in which the operation had been applied. -/
def Shows (env : Env) (s : Store) (index : TantivyIndex) (op : Nat × String) : Prop :=
  ∃ q, q <+: s.redb.durable ∧ op ∈ logOf q ∧
    Reflects env.parsers False index.fields (mergeDerived s.tables.schema index.fields).indexedFields index.docs
      (Tables.after q) op.2

section Sequences
variable {env : Env} {lax : Prop} {base : List Txn} {s₀ s : Store} {lim : Nat}

/-- Along a run nothing durable is lost and the stamp never goes back. -/
theorem Live.run_grows (events : List Event) (hlim : lim + (events.map Event.size).sum < u64Limit - 1)
    (h : Live env lax base s lim s) :
    s.redb.durable <+: (runEvents env s events).redb.durable ∧ s.dir.stamp ≤ (runEvents env s events).dir.stamp := by
  induction events generalizing s lim with
  | nil => exact ⟨prefix_rfl, Nat.le_refl _⟩
  | cons e rest ih =>
    simp only [map_cons, sum_cons] at hlim
    obtain ⟨hkept, hstamp⟩ := ih (by omega) (h.next e (by omega))
    have hone : s.redb.durable <+: (e.next env s).redb.durable ∧ s.dir.stamp ≤ (e.next env s).dir.stamp := by
      cases e with
      | crash kept => exact ⟨prefix_append _ _, Nat.le_refl _⟩
      | call c fates kept =>
        obtain ⟨indexed, d⟩ := call_ext c fates (by simp only [Event.size] at hlim; omega) h
        unfold Event.next
        dsimp only
        unfold afterCall
        split
        · exact ⟨d.ext.kept.trans (prefix_append _ _), d.ext.stamp⟩
        · exact ⟨d.ext.kept, d.ext.stamp⟩
    exact ⟨hone.1.trans hkept, hone.2.trans hstamp⟩

/-- An operation the stamp covers is shown by the last commit. -/
theorem Disk.shows {indexed : FieldMap} (d : Disk env False base s₀ lim indexed s)
    {index : TantivyIndex}
    (hdir : s.dir = .built index) {op : Nat × String} (hop : op ∈ logOf s.redb.durable) (hle : op.1 ≤ s.dir.stamp) :
    Shows env s index op := by
  obtain ⟨q, -, hq, hcov, hrefl⟩ := (d.built index hdir).covered op.2
  refine ⟨q, hq, hcov op.1 hop (hdir ▸ hle), ?_⟩
  rw [show (mergeDerived s.tables.schema index.fields).indexedFields = indexed from
    ((d.built index hdir).schema _ (between_all _)).resolve_left not_false]
  exact hrefl

end Sequences

/-- Numbers along every run: what is durable is in increasing order and stays; an operation a later call commits,
    whether it survives or not, is numbered above every stamp and persisted checkpoint of before and above every
    operation still there; and what the resolved checkpoint covers, the last commit shows. -/
theorem sequences_never_reissued (env : Env) (schema : Option IndexSchema) (before after : List Event) (c : Call)
    (fates : List Fate) (fits : ((before ++ after).map Event.size).sum + c.size < u64Limit - 1) :
    let s := runEvents env (Store.initial schema) before
    let s' := runEvents env s after
    ((logOf s'.redb.durable).Pairwise (fun a b => a.1 < b.1) ∧ s.redb.durable <+: s'.redb.durable) ∧
      (∃ later, (c.prog env fates s').state.redb.all = s'.redb.all ++ later ∧
        ∀ e ∈ logOf later, s.dir.stamp < e.1 ∧ s.tables.persisted < e.1 ∧ ∀ e' ∈ logOf s'.redb.all, e'.1 < e.1) ∧
      ∀ index, s'.dir = .built index → ∀ reads checkpoint, (checkpointSeq index reads s').outcome = .ok checkpoint →
        ∀ op ∈ logOf s'.redb.durable, op.1 ≤ checkpoint → Shows env s' index op := by
  intro s s'
  rw [map_append, sum_append] at fits
  have hs : Live env False _ s _ s := (Live.initial schema).run before (by omega)
  have hs' : Live env False _ s' _ s' := hs.run after (by omega)
  obtain ⟨hkept, hstamp⟩ := hs.run_grows after (by omega)
  refine ⟨⟨?_, hkept⟩, ?_, fun index hdir reads checkpoint hok op hop hle => ?_⟩
  · obtain ⟨_, d, -⟩ := hs'
    have := d.sorted
    rw [d.log_all] at this
    exact (pairwise_append.mp this).1
  · obtain ⟨_, d⟩ := call_ext c fates (by omega) hs'
    obtain ⟨later, hall, hok, hlater⟩ := d.ext.new
    refine ⟨later, hall, fun e he => ?_⟩
    have hgt : s.dir.stamp < e.1 := Nat.lt_of_le_of_lt hstamp (hlater e he)
    have hpers : s.tables.persisted ≤ s.dir.stamp := by
      obtain ⟨_, d₀, -⟩ := hs
      exact (d₀.wal _ (between_all _)).2
    have hsorted := d.sorted
    rw [hall, logOf_append hok] at hsorted
    exact ⟨hgt, Nat.lt_of_le_of_lt hpers hgt, fun e' he' => (pairwise_append.mp hsorted).2.2 e' he' e he⟩
  · obtain ⟨_, d, -⟩ := hs'
    have hread := wp_checkpointSeq d hdir (Q := .returning fun c _ => c = s'.dir.stamp) rfl
      (fun _ => trivial) trivial reads
    unfold Post.Holds at hread
    rw [hok] at hread
    exact d.shows hdir hop (hle.trans (Nat.le_of_eq hread))

theorem sequences_never_reissued_lostPass :
    ∃ later, ((Call.applyBatch [.delete "a"]).prog plainEnv []
        (runEvents plainEnv (runEvents plainEnv (Store.initial none) lostPass) [.crash 0])).state.redb.all =
        (runEvents plainEnv (runEvents plainEnv (Store.initial none) lostPass) [.crash 0]).redb.all ++ later ∧
      ∀ e ∈ logOf later, ∀ e' ∈ logOf
        (runEvents plainEnv (runEvents plainEnv (Store.initial none) lostPass) [.crash 0]).redb.all, e'.1 < e.1 := by
  obtain ⟨-, ⟨later, hall, hlater⟩, -⟩ :=
    sequences_never_reissued plainEnv none lostPass [.crash 0] (.applyBatch [.delete "a"]) [] (by decide +kernel)
  exact ⟨later, hall, fun e he => (hlater e he).2.2⟩

/-! ### Durability -/

end CameoDb
