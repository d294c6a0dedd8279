import CameoDb.Node.Reconcile
import CameoDb.Theorems.Node.Rounds

/-! # One round agrees on what the nodes learned

The schema that is stored holds every field any node learned, so a node adds nothing of its own to it. -/

namespace CameoDb
open List Function Fleet NodeState IndexSchema Std Transition

/-! ### What a declaration keeps of what was learned -/

def IndexSchema.declaredForm (p : Parsers) (schema : IndexSchema) : IndexSchema :=
  let normalized := schema.normalizeAfterDeserialization p
  { normalized with fields := normalized.fields.insertIfNew "id" (FieldDef.new "id" .text) }

section Declared
variable {env : ClusterEnv} {me : NodeId} {p : Parsers} {schema declared held : IndexSchema}

theorem checkedDeclaration_eq (h : checkedDeclaration env me schema = .ok declared) :
    declared = schema.declaredForm env.parsers := by
  unfold checkedDeclaration at h
  dsimp only at h
  split at h
  · cases h
  · exact (Except.ok.inj h).symm

theorem FieldDef.normalize_of_learned {key : String} {field : FieldDef} (h : (field.normalize p key).isLearned = true) :
    (field.normalize p key).fieldType = field.fieldType ∧ field.isLearned = true := by
  unfold FieldDef.normalize at h ⊢
  grind [FieldDef.isLearned]

/-- Normalizing a schema that holds what another learned keeps it so: a field either stays learned, with its type,
    or is declared from then on. -/
theorem IndexSchema.Absorbs.declaredForm (h : schema.Absorbs held) : (schema.declaredForm p).Absorbs held := by
  intro name field hfield hlearned
  obtain ⟨before, hbefore, hle⟩ := h name field hfield hlearned
  obtain ⟨after, hafter, hstill⟩ : ∃ after, (schema.normalizeAfterDeserialization p).fields[name]? = some after ∧
      (after.isLearned = true → after = before.normalize p name) := by
    simp only [normalizeAfterDeserialization, ExtTreeMap.getElem?_map, hbefore, Option.map_some]
    grind [FieldDef.isLearned]
  refine ⟨after, ?_, ?_⟩
  · simp only [IndexSchema.declaredForm, ExtTreeMap.getElem?_insertIfNew]
    grind
  · grind [FieldDef.normalize_of_learned]

theorem IndexSchema.declaredForm_recordsDrop : (schema.declaredForm p).recordsDrop = schema.recordsDrop := rfl

end Declared

/-! ### On a node -/

section Node
variable {env : ClusterEnv} {me : NodeId} {n : NodeState} {schema held : IndexSchema} {world : ApplyWorld}

/-- A change brings every field a node learned, and neither is a drop. -/
structure Brings (schema held : IndexSchema) : Prop where
  live : schema.recordsDrop = false
  heldLive : held.recordsDrop = false
  absorbs : schema.Absorbs held

/-- The node stores its own schema or the settled one. -/
def HeldOrStored (p : Parsers) (schema held : IndexSchema) (n : NodeState) : Prop :=
  n.durable = some held ∨ n.durable = some (schema.declaredForm p)

/-- The node stores the settled schema or one of its version and fingerprint. -/
def Holds (env : ClusterEnv) (schema held : IndexSchema) (n : NodeState) : Prop :=
  n.durable = some (schema.declaredForm env.parsers) ∨
    n.durable = some held ∧ held.version = schema.version ∧
      env.fingerprint held = env.fingerprint (schema.declaredForm env.parsers)

def ApplyAnswer.Told (env : ClusterEnv) (schema held : IndexSchema) (n : NodeState) (answer : ApplyAnswer) : Prop :=
  (answer = .applied → Holds env schema held n) ∧ ∀ documents, answer = .arrived documents → 0 < documents

variable {p : Parsers} {n' : NodeState} {documents : Nat}

theorem HeldOrStored.of_durable (h : HeldOrStored p schema held n) (heq : n'.durable = n.durable) :
    HeldOrStored p schema held n' := by
  unfold HeldOrStored
  rw [heq]
  exact h

theorem Holds.of_durable (h : Holds env schema held n) (heq : n'.durable = n.durable) : Holds env schema held n' := by
  unfold Holds
  rw [heq]
  exact h

/-- A node adds nothing of its own to a change that brings what it learned. -/
theorem Brings.mergedInto (h : Brings schema held) (hn : HeldOrStored p schema held n) :
    n.mergedInto (schema.declaredForm p) = schema.declaredForm p := by
  unfold NodeState.mergedInto
  rcases hn with hn | hn
  · rw [hn, Option.filter_some, h.heldLive]
    exact h.absorbs.declaredForm.mergeLearned
  · rw [hn, Option.filter_some, declaredForm_recordsDrop, h.live]
    exact (absorbs_self _).mergeLearned

theorem Brings.orchApplySchema (h : Brings schema held) (me : NodeId) (world : ApplyWorld)
    (hn : HeldOrStored env.parsers schema held n) :
    HeldOrStored env.parsers schema held (orchApplySchema env me n schema world).2 ∧
      (Holds env schema held n → Holds env schema held (orchApplySchema env me n schema world).2) ∧
      ((orchApplySchema env me n schema world).1 = .applied →
        Holds env schema held (orchApplySchema env me n schema world).2) := by
  have hcases := orchApplySchema_cases env me n schema world
  generalize CameoDb.orchApplySchema env me n schema world = done at hcases ⊢
  cases hcases with
  | invalid => exact ⟨hn, id, fun happlied => nomatch happlied⟩
  | kept unapplied =>
    exact ⟨hn.of_durable load_durable, (·.of_durable load_durable), fun happlied => absurd happlied unapplied⟩
  | same ok current version thumbprint =>
    refine ⟨hn.of_durable load_durable, (·.of_durable load_durable), fun _ => ?_⟩
    rw [checkedDeclaration_eq ok, h.mergedInto hn] at thumbprint
    rcases hn with hn | hn
    · cases hn.symm.trans current
      exact .inr ⟨load_durable.trans hn, version, thumbprint⟩
    · exact .inl (load_durable.trans hn)
  | stored ok newest =>
    have hdurable := storeChange_mergedInto ok newest
    rw [checkedDeclaration_eq ok, h.mergedInto hn] at hdurable ⊢
    exact ⟨.inr hdurable, fun _ => .inl hdurable, fun _ => .inl hdurable⟩

theorem storeApplied_arrived {held : Option IndexSchema}
    (h : (storeApplied env n held schema world).1 = .arrived documents) : 0 < documents := by
  unfold storeApplied at h
  grind

theorem orchApplySchema_arrived (h : (orchApplySchema env me n schema world).1 = .arrived documents) :
    0 < documents := by
  unfold CameoDb.orchApplySchema at h
  split at h
  · cases h
  · dsimp only at h
    split at h <;> split_ifs at h <;> first | cases h | exact storeApplied_arrived h

end Node

/-! ### The round -/

/-- The stages of a round that has not come through phase one and will not finish a drop. -/
def ChangeStage.Gathers : ChangeStage → Prop
  | .preparing _ | .releasing (.again _) => True
  | .releasing (.stop step) | .done step => step.Unapplied
  | _ => False

/-- The stages of one that has and does not put back what was held. -/
def ChangeStage.Stores : ChangeStage → Prop
  | .applyingLocal | .applyingPeers _ | .done _ => True
  | .releasing (.stop step) => step.Unapplied
  | _ => False

/-- Before phase one is through the nodes hold what they held, and have said so. -/
structure Gathering (held : NodeId → IndexSchema) (nodes : NodeId → NodeState) (r : Round) : Prop where
  unagreed : r.agreed = none
  stage : r.stage.Gathers
  kept : ∀ x ∈ r.nodes, (nodes x).durable = some (held x)
  asker : r.asker.Within (fun x message => x ∈ r.nodes ∧ (message = .prepare ∨ message = .release))
    fun x answer => ∀ ready, answer = .ready ready → ready.current = some (held x)

/-- In phase two the nodes that said they applied the change hold it. -/
structure Storing (env : ClusterEnv) (held : NodeId → IndexSchema) (schema : IndexSchema)
    (nodes : NodeId → NodeState) (r : Round) : Prop where
  agreed : ∃ agreed, r.agreed = some agreed ∧ agreed.schema = schema
  stage : r.stage.Stores
  kept : ∀ x ∈ r.nodes, HeldOrStored env.parsers schema (held x) (nodes x)
  asker : r.asker.Within (fun x message => x ∈ r.nodes ∧
    (message = .prepare ∨ message = .release ∨ message = .apply schema))
    fun x answer => ∀ told, answer = .applied told → told.Told env schema (held x) (nodes x)
  here : ∀ answer, r.stage = .applyingPeers answer → answer.Told env schema (held r.here) (nodes r.here)
  done : ∀ stored, r.stage = .done (.applied stored) → stored = schema ∧
    ∀ x ∈ r.nodes, Holds env schema (held x) (nodes x)

/-- The schemas a round may start from. -/
structure Proposed (held : NodeId → IndexSchema) (base : IndexSchema) (nodes : List NodeId) : Prop where
  live : ∀ x ∈ nodes, (held x).recordsDrop = false
  counted : ∀ x ∈ nodes, 0 < (held x).version
  baseLive : base.recordsDrop = false
  absorbs : ∀ x ∈ nodes, base.Absorbs (held x)

structure Settled (held : NodeId → IndexSchema) (base : IndexSchema) (nodes : List NodeId) (schema : IndexSchema) :
    Prop where
  proposal : ∃ version tenant, schema = { base with version, tenant }
  above : ∀ x ∈ nodes, (held x).version + 1 < u64Limit → (held x).version < schema.version

section Rounds
variable {env : ClusterEnv} {held : NodeId → IndexSchema} {nodes : NodeId → NodeState}
  {base schema : IndexSchema} {r r' : Round}
  {x : NodeId} {stage : ChangeStage} {message : ChangeMessage} {ready : SchemaReadiness} {n : NodeState}
  {answer : ApplyAnswer}

theorem Settled.brings (h : Settled held base r.nodes schema) (hbase : Proposed held base r.nodes) (hx : x ∈ r.nodes) :
    Brings schema (held x) := by
  obtain ⟨version, tenant, rfl⟩ := h.proposal
  exact ⟨hbase.baseLive, hbase.live x hx, hbase.absorbs x hx⟩

theorem Gathering.ask (h : Gathering held nodes r) (hstage : stage.Gathers)
    (hmessage : message = .prepare ∨ message = .release) : Gathering held nodes (r.ask stage r.nodes message) :=
  ⟨h.unagreed, hstage, h.kept, h.asker.ask fun _ hx => ⟨hx, hmessage⟩⟩

/-- What phase one heard is what the nodes hold. -/
theorem Gathering.readiness (h : Gathering held nodes r) {readiness : List (NodeId × SchemaReadiness)}
    (hready : r.readiness = some readiness) (hx : (x, ready) ∈ readiness) :
    x ∈ r.nodes ∧ ready.current = some (held x) := by
  obtain ⟨hnodes, hheard⟩ := Round.readiness_spec hready
  refine ⟨?_, h.asker.heard x _ (hheard x ready hx) ready rfl⟩
  rw [← hnodes]
  exact mem_map_of_mem hx

theorem version_lt_nextVersion {readiness : List (NodeId × SchemaReadiness)} {current : IndexSchema}
    (hx : (x, ready) ∈ readiness)
    (hcurrent : ready.current = some current) (hroom : current.version + 1 < u64Limit) :
    current.version < nextVersion (highestVersion readiness) := by
  have hle : current.version ≤ highestVersion readiness :=
    (le_foldl_max _ 0).2 _ (mem_filterMap.mpr ⟨(x, ready), hx, by rw [hcurrent]; rfl⟩)
  unfold nextVersion
  omega

/-- What the answers of nodes that hold live schemas lead to. -/
def Verdict.Settles (held : NodeId → IndexSchema) (base : IndexSchema) (nodes : List NodeId) : Verdict → Prop
  | .stop step => step.Unapplied
  | .finish .. => False
  | .again => True
  | .apply schema _ => Settled held base nodes schema

/-- From phase one the round stops, waits for another to be through, or has what the nodes merge to stored. -/
theorem Gathering.prepared (h : Gathering held nodes r) (hbase : Proposed held base r.nodes)
    (hchange : r.change = ⟨base, some .unchanged⟩) {readiness : List (NodeId × SchemaReadiness)}
    (hready : r.readiness = some readiness) (attempt : Nat) :
    (decidePrepared env attempt r.change readiness).Settles held base r.nodes := by
  have hmissed : (countDrops (readiness.filterMap fun r => r.2.current.map fun current => (r.1, current)) 0).missed =
      [] := by
    rw [countDrops_live]
    rintro ⟨x, current⟩ hmem
    obtain ⟨⟨y, ready⟩, hy, hcurrent⟩ := mem_filterMap.mp hmem
    obtain ⟨hnode, hheld⟩ := h.readiness hready hy
    grind [hbase.live y hnode, hbase.counted y hnode]
  unfold decidePrepared
  dsimp only
  rw [hmissed, if_neg (by simp)]
  split_ifs
  · simp [Verdict.Settles, ChangeStep.Unapplied]
  · trivial
  · have hdecides := @decideReady_decides env r.change readiness
    generalize decideReady env r.change readiness = verdict at hdecides ⊢
    cases verdict with
    | stop step => exact hdecides
    | finish | again => exact absurd hdecides id
    | apply schema before =>
      obtain ⟨version, tenant, rfl, hversion⟩ := hdecides
      refine ⟨⟨version, tenant, by rw [hchange]⟩, fun x hx hroom => ?_⟩
      rw [← (Round.readiness_spec hready).1] at hx
      obtain ⟨⟨y, ready⟩, hy, rfl⟩ := mem_map.mp hx
      -- Every node holds a live schema, so the version is not one that some nodes are yet to take up.
      rcases hversion with rfl | ⟨⟨z, other⟩, hz, hdrop⟩
      · exact version_lt_nextVersion hy (h.readiness hready hy).2 hroom
      · obtain ⟨hnode, hother⟩ := h.readiness hready hz
        exact absurd (hdrop _ hother) (by rw [hbase.live z hnode]; decide)

theorem Gathering.store (h : Gathering held nodes r) (readiness : List (NodeId × SchemaReadiness))
    (before : Option IndexSchema) : Storing env held schema nodes
      ({ r with agreed := some ⟨readiness, schema, before⟩ }.ask .applyingLocal [r.here] (.apply schema)) := by
  refine ⟨⟨_, rfl, rfl⟩, trivial, fun x hx => .inl (h.kept x hx), ?_, fun answer heq => (nomatch heq),
    fun stored heq => (nomatch heq)⟩
  have hwider : r.asker.Within
      (fun x message => x ∈ r.nodes ∧ (message = .prepare ∨ message = .release ∨ message = .apply schema))
      fun x answer => ∀ ready, answer = .ready ready → ready.current = some (held x) :=
    ⟨fun x m hm => ⟨(h.asker.sent x m hm).1, (h.asker.sent x m hm).2.imp_right .inl⟩, h.asker.heard⟩
  refine hwider.ask fun x hx => ⟨?_, .inr (.inr rfl)⟩
  rw [mem_singleton.mp hx]
  exact mem_cons_self

theorem Gathering.decide (h : Gathering held nodes r) (hbase : Proposed held base r.nodes)
    (hchange : r.change = ⟨base, some .unchanged⟩) (hnext : r.decide env = some r') :
    Gathering held nodes r' ∨ ∃ schema, Settled held base r.nodes schema ∧ Storing env held schema nodes r' := by
  have hstage := h.stage
  unfold Round.decide at hnext
  split at hnext <;> rename_i hat <;> rw [hat] at hstage
  case h_2 attempt =>
    cases hready : r.readiness with
    | none =>
      rw [hready] at hnext
      cases hnext
      exact .inl (h.ask (by simp [ChangeStage.Gathers, ChangeStep.Unapplied]) (.inr rfl))
    | some readiness =>
      rw [hready] at hnext
      have hprepared := @Gathering.prepared env _ _ _ _ h hbase hchange _ hready attempt
      dsimp only at hnext
      cases hverdict : decidePrepared env attempt r.change readiness <;> rw [hverdict] at hnext hprepared <;>
        obtain rfl := Option.some.inj hnext
      case stop step => exact .inl (h.ask hprepared (.inr rfl))
      case finish => exact absurd hprepared id
      case again => exact .inl (h.ask trivial (.inr rfl))
      case apply schema before => exact .inr ⟨schema, hprepared, h.store readiness before⟩
  case h_6 attempt =>
    cases hnext
    exact .inl (h.ask trivial (.inl rfl))
  case h_8 step =>
    cases hnext
    exact .inl ⟨h.unagreed, hstage, h.kept, h.asker⟩
  all_goals first | exact absurd hstage id | cases hnext

theorem ApplyAnswer.told_of_failed {held : IndexSchema} : ApplyAnswer.failed.Told env schema held n :=
  ⟨fun h => (nomatch h), fun _ h => (nomatch h)⟩

/-- What a node is taken to have answered is so. -/
theorem Storing.appliedOn (h : Storing env held schema nodes r) (x : NodeId) :
    (r.appliedOn x).Told env schema (held x) (nodes x) := by
  rcases r.appliedOn_spec x with hfailed | hheard
  · rw [hfailed]
    exact ApplyAnswer.told_of_failed
  · exact h.asker.heard x _ hheard _ rfl

/-- A round in phase two that ends it without having stored the schema everywhere. -/
theorem Storing.ask (h : Storing env held schema nodes r) {targets : List NodeId} (hstage : stage.Stores)
    (htargets : ∀ x ∈ targets, x ∈ r.nodes) (hmessage : message = .release ∨ message = .apply schema)
    (hhere : ∀ answer, stage = .applyingPeers answer → answer.Told env schema (held r.here) (nodes r.here))
    (hdone : ∀ step, stage ≠ .done step) : Storing env held schema nodes (r.ask stage targets message) :=
  ⟨h.agreed, hstage, h.kept, h.asker.ask fun x hx => ⟨htargets x hx, .inr hmessage⟩, hhere,
    fun _ heq => absurd heq (hdone _)⟩

theorem Storing.fail (h : Storing env held schema nodes r) :
    Storing env held schema nodes (r.release (.stop .failed)) :=
  h.ask (by simp [ChangeStage.Stores, ChangeStep.Unapplied]) (fun x hx => hx) (.inl rfl) (fun _ heq => (nomatch heq))
    fun _ heq => (nomatch heq)

/-- An answer that neither stops the change nor fails says that it was applied. -/
theorem ApplyAnswer.Told.holds {held : IndexSchema} (h : answer.Told env schema held n)
    (harrived : answer.arrivedCount = 0)
    (hsuperseded : answer ≠ .superseded) (hfailed : answer ≠ .failed) : Holds env schema held n := by
  cases answer with
  | applied => exact h.1 rfl
  | arrived documents => exact absurd harrived (h.2 documents rfl).ne'
  | superseded | failed => contradiction

theorem Storing.decideApplied (h : Storing env held schema nodes r) {agreed : Agreed} (hagreed : agreed.schema = schema)
    (hanswer : answer.Told env schema (held r.here) (nodes r.here)) :
    Storing env held schema nodes (r.decideApplied agreed (answer :: r.peers.map r.appliedOn)) ∨
      (r.decideApplied agreed (answer :: r.peers.map r.appliedOn)).stage = .restoring := by
  have hstop (step : ChangeStep) (hstep : step.Unapplied) : Storing env held schema nodes
    { r with stage := .done step } :=
    ⟨h.agreed, trivial, h.kept, h.asker, by simp, fun stored heq => absurd (ChangeStage.done.inj heq) (hstep stored)⟩
  unfold Round.decideApplied
  split
  · split
    · exact .inr rfl
    · exact .inl (hstop .refused (by simp [ChangeStep.Unapplied]))
  · next harrived =>
    split_ifs with hsuperseded hfailed
    · exact .inl (hstop .refused (by simp [ChangeStep.Unapplied]))
    · exact .inl h.fail
    · -- Nothing arrived, nothing is newer and nothing failed: every answer says that the change was applied.
      have hall (told : ApplyAnswer) (hmem : told ∈ answer :: r.peers.map r.appliedOn) {x : NodeId}
          (htold : told.Told env schema (held x) (nodes x)) : Holds env schema (held x) (nodes x) := by
        refine htold.holds ?_ (fun hs => hsuperseded (any_eq_true.mpr ⟨told, hmem, by rw [hs]⟩))
          fun hf => hfailed (any_eq_true.mpr ⟨told, hmem, by rw [hf]⟩)
        by_contra hpos
        exact harrived (List.sum_pos_iff_exists_pos_nat.mpr ⟨_, mem_map_of_mem hmem, Nat.pos_of_ne_zero hpos⟩)
      refine .inl ⟨h.agreed, trivial, h.kept, h.asker, by simp, fun stored heq => ⟨?_, fun x hx => ?_⟩⟩
      · rw [← ChangeStep.applied.inj (ChangeStage.done.inj heq), hagreed]
      rcases mem_cons.mp hx with rfl | hx
      · exact hall answer mem_cons_self hanswer
      · exact hall _ (mem_cons_of_mem _ (mem_map_of_mem hx)) (h.appliedOn x)

theorem Storing.decide (h : Storing env held schema nodes r) (hnext : r.decide env = some r') :
    Storing env held schema nodes r' ∨ r'.stage = .restoring := by
  have hstage := h.stage
  obtain ⟨agreed, hagreed, hschema⟩ := h.agreed
  unfold Round.decide at hnext
  split at hnext <;> rename_i hat <;> rw [hat] at hstage
  case h_4 =>
    rw [hagreed] at hnext
    have htold := h.appliedOn r.here
    split at hnext
    · cases hnext
    · obtain rfl := Option.some.inj hnext
      exact .inl h.fail
    · next heq _ =>
      cases heq
      obtain rfl := Option.some.inj hnext
      refine .inl (h.ask trivial (fun x hx => mem_cons_of_mem _ hx) (.inr (by rw [hschema])) (fun answer heq => ?_)
        fun _ heq => (nomatch heq))
      rw [← ChangeStage.applyingPeers.inj heq]
      exact htold
  case h_5 answer =>
    rw [hagreed] at hnext
    cases hnext
    exact h.decideApplied hschema (h.here answer hat)
  case h_8 step =>
    cases hnext
    exact .inl ⟨h.agreed, trivial, h.kept, h.asker, fun answer heq => (nomatch heq),
      fun stored heq => absurd (ChangeStage.done.inj heq) (hstage stored)⟩
  all_goals first | exact absurd hstage id | cases hnext

end Rounds

/-! ### The cluster -/

section Fleet
variable {env : ClusterEnv} {held : NodeId → IndexSchema} {base schema : IndexSchema} {f f' : Fleet}
  {round position : Nat} {x : NodeId}
  {m : Nat × ChangeMessage}

@[simp] theorem Fleet.setRound_rounds (f : Fleet) (round : Nat) (r : Round) : (f.setRound round r).rounds round = r :=
  update_self ..

theorem Fleet.handle_rounds (world : NodeWorld) (tag : Nat) (message : ChangeMessage) :
    (f.handle env round x position world tag message).rounds round =
      { f.rounds round with
        asker := ((f.rounds round).asker.remove x position).hear x tag (f.respond env round x world message).1
        stored := storedAfter (f.rounds round) x message (f.respond env round x world message).1 } :=
  update_self ..

theorem Fleet.handle_nodes (world : NodeWorld) (tag : Nat) (message : ChangeMessage) (y : NodeId) :
    (f.handle env round x position world tag message).nodes y =
      if y = x then (f.respond env round x world message).2 else f.nodes y :=
  update_apply ..

variable {message : ChangeMessage} {event : ChangeEvent}

theorem respond_early (env : ClusterEnv) (f : Fleet) (round : Nat) (x : NodeId) (world : NodeWorld)
    (hmessage : message = .prepare ∨ message = .release) :
    (f.respond env round x world message).2.durable = (f.nodes x).durable ∧
      (∀ ready, (f.respond env round x world message).1 = .ready ready → ready.current = (f.nodes x).durable) ∧
      ∀ told, (f.respond env round x world message).1 ≠ .applied told := by
  have hspec := @prepareSchema_spec env x (f.nodes x) (f.rounds round).change.proposal world (changeId round)
  rcases hmessage with rfl | rfl
  · simp only [respond]
    cases hprepared : (prepareSchema env x (f.nodes x) (changeId round) (f.rounds round).change.proposal world).1 <;>
      grind
  · exact ⟨releaseSchemaChange_durable _, nofun, nofun⟩

theorem Gathering.handled (h : Gathering held f.nodes (f.rounds round)) (world : NodeWorld)
    (sent : ((f.rounds round).asker.inFlight x)[position]? = some m) :
    Gathering held (f.handle env round x position world m.1 m.2).nodes
    ((f.handle env round x position world m.1 m.2).rounds round) := by
  obtain ⟨hx, hmessage⟩ := h.asker.sent x m (mem_of_getElem? sent)
  obtain ⟨hdurable, hready, -⟩ := respond_early env f round x world hmessage
  rw [handle_rounds]
  refine ⟨h.unagreed, h.stage, fun y hy => ?_, ?_⟩
  · rw [handle_nodes]
    split
    · next heq => rw [hdurable, heq, h.kept x hx]
    · exact h.kept y hy
  · refine (h.asker.remove x position).hear m.1 fun ready hanswer => ?_
    rw [hready ready hanswer, h.kept x hx]

theorem respond_storing (round : Nat) (world : NodeWorld) (hbrings : Brings schema (held x))
    (hbetween : HeldOrStored env.parsers schema (held x) (f.nodes x))
    (hmessage : message = .prepare ∨ message = .release ∨ message = .apply schema) :
    HeldOrStored env.parsers schema (held x) (f.respond env round x world message).2 ∧
      (Holds env schema (held x) (f.nodes x) → Holds env schema (held x) (f.respond env round x world message).2) ∧
      ∀ told, (f.respond env round x world message).1 = .applied told →
        told.Told env schema (held x) (f.respond env round x world message).2 := by
  rcases or_assoc.mpr hmessage with hearly | rfl
  · obtain ⟨hdurable, -, hother⟩ := respond_early env f round x world hearly
    exact ⟨hbetween.of_durable hdurable, (·.of_durable hdurable), fun told hanswer => absurd hanswer (hother told)⟩
  · obtain ⟨hafter, hholds, happlied⟩ := hbrings.orchApplySchema x world.apply hbetween
    have hrelease := releaseSchemaChange_durable
      (n := (orchApplySchema env x (f.nodes x) schema world.apply).2) (changeId round)
    refine ⟨hafter.of_durable hrelease, fun hn => (hholds hn).of_durable hrelease, fun told hanswer => ?_⟩
    cases hanswer
    exact ⟨fun heq => (happlied heq).of_durable hrelease, fun documents heq => orchApplySchema_arrived heq⟩

theorem Storing.handled (h : Storing env held schema f.nodes (f.rounds round))
    (hbrings : ∀ x ∈ (f.rounds round).nodes, Brings schema (held x)) (world : NodeWorld)
    (sent : ((f.rounds round).asker.inFlight x)[position]? = some m) :
    Storing env held schema (f.handle env round x position world m.1 m.2).nodes
      ((f.handle env round x position world m.1 m.2).rounds round) := by
  obtain ⟨hx, hmessage⟩ := h.asker.sent x m (mem_of_getElem? sent)
  obtain ⟨hbetween, hholds, htold⟩ := respond_storing round world (hbrings x hx) (h.kept x hx) hmessage
  have hholdsAt (y : NodeId) (hy : Holds env schema (held y) (f.nodes y)) :
      Holds env schema (held y) ((f.handle env round x position world m.1 m.2).nodes y) := by
    rw [handle_nodes]
    split
    · next heq =>
      subst heq
      exact hholds hy
    · exact hy
  have htoldAt (y : NodeId) (told : ApplyAnswer) (hy : told.Told env schema (held y) (f.nodes y)) :
      told.Told env schema (held y) ((f.handle env round x position world m.1 m.2).nodes y) :=
    ⟨fun heq => hholdsAt y (hy.1 heq), hy.2⟩
  rw [handle_rounds]
  refine ⟨h.agreed, h.stage, fun y hy => ?_, ?_, fun answer heq => htoldAt _ _ (h.here answer heq),
    fun stored heq => ⟨(h.done stored heq).1, fun y hy => hholdsAt y ((h.done stored heq).2 y hy)⟩⟩
  · rw [handle_nodes]
    split
    · next heq =>
      subst heq
      exact hbetween
    · exact h.kept y hy
  · refine ((h.asker.mono fun y answer hy told heq => htoldAt y told (hy told heq)).remove x position).hear m.1
      fun told hanswer => ?_
    rw [handle_nodes, if_pos rfl]
    exact htold told hanswer

/-- The invariant of a round: gathering, storing, or given up. -/
structure Reconciling (env : ClusterEnv) (held : NodeId → IndexSchema) (base : IndexSchema) (round : Nat)
    (f : Fleet) : Prop where
  nodes : ∀ x, x ∈ f.members ↔ x ∈ (f.rounds round).nodes
  change : (f.rounds round).change = ⟨base, some .unchanged⟩
  phase : Gathering held f.nodes (f.rounds round) ∨
    (∃ schema, Settled held base (f.rounds round).nodes schema ∧ Storing env held schema f.nodes (f.rounds round)) ∨
    (f.rounds round).stage = .restoring ∨ (f.rounds round).stage = .done .refused

/-- What an event that leaves the nodes and the round's stage alone keeps. -/
theorem Reconciling.asker (h : Reconciling env held base round f) (asker : Asker NodeId ChangeMessage ChangeAnswer)
    (hasker : ∀ sent heard, (f.rounds round).asker.Within sent heard → asker.Within sent heard) :
    Reconciling env held base round (f.setRound round { f.rounds round with asker }) := by
  refine ⟨by rw [setRound_rounds]; exact h.nodes, by rw [setRound_rounds]; exact h.change, ?_⟩
  rw [setRound_rounds]
  rcases h.phase with hgather | ⟨schema, hsettled, hstore⟩ | hover
  · exact .inl ⟨hgather.unagreed, hgather.stage, hgather.kept, hasker _ _ hgather.asker⟩
  · exact .inr (.inl ⟨schema, hsettled, hstore.agreed, hstore.stage, hstore.kept, hasker _ _ hstore.asker,
      hstore.here, hstore.done⟩)
  · exact .inr (.inr hover)

theorem Reconciling.handled (h : Reconciling env held base round f) (hbase : Proposed held base (f.rounds round).nodes)
    (world : NodeWorld) (sent : ((f.rounds round).asker.inFlight x)[position]? = some m) :
    Reconciling env held base round (f.handle env round x position world m.1 m.2) := by
  refine ⟨by rw [handle_rounds]; exact h.nodes, by rw [handle_rounds]; exact h.change, ?_⟩
  rcases h.phase with hgather | ⟨schema, hsettled, hstore⟩ | hover
  · exact .inl (hgather.handled world sent)
  · refine .inr (.inl ⟨schema, ?_, hstore.handled (fun y hy => hsettled.brings hbase hy) world sent⟩)
    rwa [handle_rounds]
  · refine .inr (.inr ?_)
    rwa [handle_rounds]

theorem Reconciling.decided (h : Reconciling env held base round f)
    (hbase : Proposed held base (f.rounds round).nodes) {r : Round}
    (hnext : (f.rounds round).decide env = some r) (entered : List Nat) :
    Reconciling env held base round { f.setRound round r with entered } := by
  obtain ⟨hhere, hpeers, hchange⟩ := Round.decide_keeps hnext
  have hrounds : ({ f.setRound round r with entered } : Fleet).rounds round = r := setRound_rounds f round r
  have hnodes : r.nodes = (f.rounds round).nodes := by rw [Round.nodes, hhere, hpeers, Round.nodes]
  refine ⟨by rw [hrounds, hnodes]; exact h.nodes, by rw [hrounds, hchange, h.change], ?_⟩
  rw [hrounds, hnodes]
  rcases h.phase with hgather | ⟨schema, hsettled, hstore⟩ | hover | hover
  · rcases hgather.decide hbase h.change hnext with hgather | hstore
    · exact .inl hgather
    · exact .inr (.inl hstore)
  · rcases hstore.decide hnext with hstore | hrestoring
    · exact .inr (.inl ⟨schema, hsettled, hstore⟩)
    · exact .inr (.inr (.inl hrestoring))
  · simp only [Round.decide, hover, Option.some.injEq] at hnext
    exact .inr (.inr (.inr (by rw [← hnext])))
  · simp [Round.decide, hover] at hnext

theorem Reconciling.stage (h : Reconciling env held base round f) :
    (f.rounds round).stage.Gathers ∨ (f.rounds round).stage.Stores ∨
    (f.rounds round).stage = .restoring ∨ (f.rounds round).stage = .done .refused :=
  h.phase.imp (·.stage) (·.imp_left fun ⟨_, _, hstore⟩ => hstore.stage)

theorem Reconciling.step (h : Reconciling env held base round f) (hbase : Proposed held base f.members)
    (hround : event.round = round) (hstep : changeStep env f event = some f') : Reconciling env held base round f' := by
  have hproposed : Proposed held base (f.rounds round).nodes :=
    ⟨fun x hx => hbase.live x ((h.nodes x).mpr hx), fun x hx => hbase.counted x ((h.nodes x).mpr hx), hbase.baseLive,
      fun x hx => hbase.absorbs x ((h.nodes x).mpr hx)⟩
  have hcases := changeStep_cases hstep
  rw [hround] at hcases
  cases hcases with
  | started idle => simpa [idle, ChangeStage.Gathers, ChangeStage.Stores] using h.stage
  | handled world sent => exact h.handled hproposed world sent
  | lost x position => exact h.asker _ fun _ _ hwithin => hwithin.remove x position
  | gaveUp x => exact h.asker _ fun _ _ hwithin => hwithin.giveUp x
  | decided heard next count => exact h.decided hproposed next _

theorem changeStep_members (h : changeStep env f event = some f') : f'.members = f.members := by
  cases changeStep_cases h <;> rfl

theorem Reconciling.start {here : NodeId} {peers : List NodeId}
    (holds : ∀ x ∈ f.members, (f.nodes x).durable = some (held x))
    (hstep : changeStep env f (.start round here peers ⟨base, some .unchanged⟩) = some f') :
    Reconciling env held base round f' ∧ ∀ x, x ∈ f.members ↔ x ∈ here :: peers := by
  obtain ⟨-, -, hnodes, -, rfl⟩ := changeStep_start hstep
  have hmem (x : NodeId) : x ∈ f.members ↔ x ∈ here :: peers := by rw [hnodes x, mem_cons]
  refine ⟨⟨by rw [setRound_rounds]; exact hmem, by rw [setRound_rounds]; rfl, ?_⟩, hmem⟩
  rw [setRound_rounds]
  have hinitial : (Asker.initial : Asker NodeId ChangeMessage ChangeAnswer).Within
      (fun x message => x ∈ here :: peers ∧ (message = .prepare ∨ message = .release))
      fun x answer => ∀ ready, answer = .ready ready → ready.current = some (held x) := ⟨nofun, nofun⟩
  exact .inl ⟨rfl, trivial, fun x hx => holds x ((hmem x).mpr hx), hinitial.ask fun x hx => ⟨hx, .inl rfl⟩⟩

theorem Reconciling.run (h : Reconciling env held base round f) (hbase : Proposed held base f.members)
    {events : List ChangeEvent}
    (hrounds : ∀ event ∈ events, event.round = round) (hrun : run (changeStep env) f events = some f') :
    Reconciling env held base round f' ∧ f'.members = f.members := by
  induction events generalizing f with
  | nil =>
    cases hrun
    exact ⟨h, rfl⟩
  | cons event rest ih =>
    obtain ⟨g, hstep, hrest⟩ := run_cons hrun
    have hmembers : g.members = f.members := changeStep_members hstep
    obtain ⟨hg, hsame⟩ := ih (h.step hbase (hrounds event mem_cons_self) hstep) (hmembers ▸ hbase)
      (fun other hother => hrounds other (mem_cons_of_mem _ hother)) hrest
    exact ⟨hg, hsame.trans hmembers⟩

/-- A round that ends with its schema stored has it stored everywhere. -/
theorem Reconciling.applied (h : Reconciling env held base round f)
    (hdone : (f.rounds round).stage = .done (.applied schema)) :
    Settled held base f.members schema ∧ ∀ x ∈ f.members, Holds env schema (held x) (f.nodes x) := by
  rcases h.phase with hgather | ⟨settled, hsettled, hstore⟩ | hover | hover
  · have hstage := hgather.stage
    rw [hdone] at hstage
    exact absurd rfl (hstage schema)
  · obtain ⟨rfl, hholds⟩ := hstore.done schema hdone
    exact ⟨⟨hsettled.proposal, fun x hx => hsettled.above x ((h.nodes x).mp hx)⟩, fun x hx =>
      hholds x ((h.nodes x).mp hx)⟩
  · simp [hdone] at hover
  · simp [hdone] at hover

end Fleet

/-! ### Reading the nodes -/

section Reads
variable {env : ClusterEnv} {held : NodeId → IndexSchema} {f : Fleet} {nodes : List NodeId}

theorem FieldEdit.unchanged_apply (schema : IndexSchema) : FieldEdit.unchanged.apply env schema = .proposal schema := by
  simp [FieldEdit.apply, FieldEdit.unchanged]

theorem readSchemas_of_live (h : ∀ x ∈ nodes, (f.nodes x).durable = some (held x) ∧ (held x).recordsDrop = false) :
    f.readSchemas nodes = some (nodes.map fun x => (x, held x)) := by
  induction nodes with
  | nil => rfl
  | cons x rest ih =>
    obtain ⟨hdurable, hlive⟩ := h x mem_cons_self
    have hraw : (rawSchemaForPeer (f.nodes x) none).1 = .schema (held x) := by
      unfold rawSchemaForPeer
      dsimp only
      rw [load_durable, hdurable, Option.filter_some, hlive]
      rfl
    have hrest := ih fun y hy => h y (mem_cons_of_mem _ hy)
    unfold readSchemas at hrest ⊢
    obtain ⟨lists, hlists, hflat⟩ := Option.map_eq_some_iff.mp hrest
    rw [mapM_cons, hraw, hlists, map_cons, ← hflat]
    rfl

theorem reconcile_of_live (held : NodeId → IndexSchema) {base : IndexSchema}
    (h : ∀ x ∈ nodes, (f.nodes x).durable = some (held x) ∧ (held x).recordsDrop = false)
    (hcounted : ∀ x ∈ nodes, 0 < (held x).version) (hbase : mergedView env.fingerprint (nodes.map held) = some base) :
    f.reconcile env nodes = some ⟨0, [],
      if ∀ x ∈ nodes, (held x).version = base.version ∧ env.fingerprint (held x) = env.fingerprint base then .nothing
      else .edit ⟨base, some .unchanged⟩⟩ := by
  have hdrops : countDrops (nodes.map fun x => (x, held x)) 0 = ⟨0, [], nodes.map fun x => (x, held x)⟩ := by
    refine countDrops_live fun r hr => ?_
    obtain ⟨x, hx, rfl⟩ := mem_map.mp hr
    exact ⟨(h x hx).2, hcounted x hx⟩
  unfold reconcile reconcileOnce
  rw [readSchemas_of_live h, Option.map_some, hdrops]
  simp only [map_map, comp_def, hbase, FieldEdit.unchanged_apply, length_map, decide_true, Bool.true_and,
    all_map, all_eq_true, Bool.and_eq_true, decide_eq_true_eq]

end Reads

/-! ### One round -/

/-- The nodes' schemas differ in learned fields only. -/
structure Fleet.LearnedApart (f : Fleet) (held : NodeId → IndexSchema) : Prop where
  holds : ∀ x ∈ f.members, (f.nodes x).durable = some (held x)
  apart : CameoDb.LearnedApart { schema | ∃ x ∈ f.members, held x = schema }
  counted : ∀ x ∈ f.members, 0 < (held x).version

/-- Nodes that differ in what they learned merge to one schema, in whatever order they are listed, with every field
    that was learned at the join of the types it was given. A round that stores it on every node leaves them all
    with one version and one thumbprint, and a reconcile after it finds nothing to do. -/
theorem reconcile_agrees {env : ClusterEnv} {f : Fleet} {held : NodeId → IndexSchema} (h : f.LearnedApart held)
    (hsome : f.members ≠ []) :
    ∃ view, MergesTo env.fingerprint { schema | ∃ x ∈ f.members, held x = schema } view ∧
      ∀ (f' : Fleet) (round : Nat) (here : NodeId) (peers : List NodeId) (change : Change) (events : List ChangeEvent)
        (plan : Reconcile) (schema : IndexSchema),
        f.reconcile env (here :: peers) = some plan → plan.next = .edit change →
        run (changeStep env) f (.start round here peers change :: events) = some f' →
        (∀ event ∈ events, event.round = round) → (f'.rounds round).stage = .done (.applied schema) →
        (∃ version tenant, schema = { view with version, tenant }) ∧
        (∃ thumbprint, ∀ x ∈ f'.members, ∃ current, (f'.nodes x).durable = some current ∧
        current.version = schema.version ∧ env.fingerprint current = thumbprint) ∧
        ((∀ x ∈ f.members, (held x).version + 1 < u64Limit) → ∀ nodes : List NodeId, nodes ≠ [] →
        (∀ x ∈ nodes, x ∈ f'.members) → f'.reconcile env nodes = some ⟨0, [], .nothing⟩) := by
  have hnonempty : { schema | ∃ x ∈ f.members, held x = schema }.Nonempty := by
    obtain ⟨x, hx⟩ := exists_mem_of_ne_nil _ hsome
    exact ⟨held x, x, hx, rfl⟩
  have hlist (nodes : List NodeId) (hnodes : ∀ x, x ∈ f.members ↔ x ∈ nodes) (schema : IndexSchema) :
      schema ∈ nodes.map held ↔ schema ∈ { schema | ∃ x ∈ f.members, held x = schema } := by
    simp only [mem_map, Set.mem_ofPred_eq, hnodes]
  obtain ⟨view, hmerges⟩ := h.apart.mergesTo hnonempty (hlist f.members fun _ => Iff.rfl) env.fingerprint
  refine ⟨view, hmerges, fun f' round here peers change events plan schema hplan hedit hrun hrounds hdone => ?_⟩
  have hlive (x : NodeId) (hx : x ∈ f.members) : (held x).recordsDrop = false := h.apart.live _ ⟨x, hx, rfl⟩
  have hproposed : Proposed held view f.members := by
    refine ⟨hlive, h.counted, mergedView_live (hmerges.anyOrder _ (hlist f.members fun _ => Iff.rfl)), fun x hx => ?_⟩
    have habsorbs := absorbs_mergeLearned view (held x)
    rwa [hmerges.again _ (.inr ⟨x, hx, rfl⟩)] at habsorbs
  -- The round starts, and the change it starts with is the schema the nodes merge to.
  obtain ⟨g, hstart, hrest⟩ := run_cons hrun
  have hnodes := (changeStep_start hstart).2.2.1
  have hmem (x : NodeId) : x ∈ f.members ↔ x ∈ here :: peers := by rw [hnodes x, mem_cons]
  have hchange : change = ⟨view, some .unchanged⟩ := by
    rw [reconcile_of_live held (fun x hx => ⟨h.holds x ((hmem x).mpr hx), hlive x ((hmem x).mpr hx)⟩)
      (fun x hx => h.counted x ((hmem x).mpr hx)) (hmerges.anyOrder _ (hlist _ hmem))] at hplan
    obtain rfl := Option.some.inj hplan
    dsimp only at hedit
    split at hedit
    · cases hedit
    · exact (ReconcileStep.edit.inj hedit).symm
  subst hchange
  obtain ⟨hreconciling, hmembers⟩ := (Reconciling.start h.holds hstart).1.run
    (changeStep_members hstart ▸ hproposed) hrounds hrest
  have hsame : f'.members = f.members := hmembers.trans (changeStep_members hstart)
  obtain ⟨hsettled, hholds⟩ := hreconciling.applied hdone
  rw [hsame] at hsettled hholds ⊢
  refine ⟨hsettled.proposal, ⟨env.fingerprint (schema.declaredForm env.parsers), fun x hx => ?_⟩,
    fun hroom nodes hnodes hin => ?_⟩
  · rcases hholds x hx with hstored | ⟨hkept, hversion, hthumbprint⟩
    · exact ⟨_, hstored, rfl, rfl⟩
    · exact ⟨_, hkept, hversion, hthumbprint⟩
  · -- The version is above what any node held, so every node holds the schema itself.
    have hall (x : NodeId) (hx : x ∈ f.members) : (f'.nodes x).durable = some (schema.declaredForm env.parsers) := by
      rcases hholds x hx with hstored | ⟨-, hversion, -⟩
      · exact hstored
      · have habove := hsettled.above x hx (hroom x hx)
        omega
    have hpositive : 0 < schema.version := by
      obtain ⟨x, hx⟩ := exists_mem_of_ne_nil _ hsome
      exact (h.counted x hx).trans (hsettled.above x hx (hroom x hx))
    have hactive : (schema.declaredForm env.parsers).recordsDrop = false := by
      obtain ⟨version, tenant, rfl⟩ := hsettled.proposal
      exact hproposed.baseLive
    rw [reconcile_of_live (fun _ => schema.declaredForm env.parsers) (fun x hx => ⟨hall x (hin x hx), hactive⟩)
      (fun _ _ => hpositive) (mergedView_of_forall_eq (by simpa using hnodes) hactive (by simp))]
    rw [if_pos fun _ _ => ⟨rfl, rfl⟩]

def learnedAs (fieldType : TantivyFieldType) (version : Nat) : IndexSchema :=
  { default with
    version, fields := (∅ : ExtTreeMap String FieldDef).insert "rank" (FieldDef.newLearned "rank" fieldType) }

def twoLearned : NodeId → IndexSchema
  | 0 => learnedAs .i64 1
  | _ => learnedAs .f64 2

def twoLearners : Fleet where
  members := [0, 1]
  nodes x := ⟨none, some (twoLearned x), 0, [], none⟩
  rounds _ := ⟨0, [], ⟨.default, none⟩, .idle, .initial, none, [], false⟩
  entered := []

def ready : NodeWorld := ⟨0, false, true, ⟨true, true, 0, 0⟩⟩

def twoLearnersEvents : List ChangeEvent :=
  [.handle 0 0 0 ready, .handle 0 1 0 ready, .decide 0, .handle 0 0 0 ready, .decide 0, .handle 0 1 0 ready, .decide 0]

theorem mem_learnedAs {fieldType : TantivyFieldType} {version : Nat} {name : String} {field : FieldDef}
    (h : (learnedAs fieldType version).fields[name]? = some field) : field = FieldDef.newLearned "rank" fieldType := by
  simp only [learnedAs, ExtTreeMap.getElem?_insert] at h
  split at h
  · exact (Option.some.inj h).symm
  · simp at h

theorem twoLearners_apart : twoLearners.LearnedApart twoLearned := by
  have hlearned (x : NodeId) : ∃ fieldType version, twoLearned x = learnedAs fieldType version ∧ 0 < version := by
    unfold twoLearned
    split
    · exact ⟨_, _, rfl, by decide⟩
    · exact ⟨_, _, rfl, by decide⟩
  choose fieldType version hlearned hversion using hlearned
  refine ⟨fun x _ => rfl, ⟨?_, ?_, ?_, ?_⟩, fun x _ => ?_⟩
  · rintro a ⟨x, -, rfl⟩
    rw [hlearned]
    rfl
  · rintro a ⟨x, -, rfl⟩ b ⟨y, -, rfl⟩
    rw [hlearned, hlearned]
    rfl
  · rintro a ⟨x, -, rfl⟩ b ⟨y, -, rfl⟩ name field hfield hdeclared
    rw [hlearned] at hfield
    rw [mem_learnedAs hfield] at hdeclared
    cases hdeclared
  · rintro a ⟨x, -, rfl⟩ b ⟨y, -, rfl⟩ name field other hfield hother -
    rw [hlearned] at hfield hother
    rw [mem_learnedAs hfield, mem_learnedAs hother]
    rfl
  · rw [hlearned]
    exact hversion x

/-- The whole round, from the reads on. -/
def twoLearnersRun : Option Fleet :=
  (twoLearners.reconcile plainClusterEnv [0, 1]).bind fun plan =>
    match plan.next with
    | .edit change => run (changeStep plainClusterEnv) twoLearners (.start 0 0 [1] change :: twoLearnersEvents)
    | _ => none

theorem reconcile_agrees_two :
    ∃ f', twoLearnersRun = some f' ∧ f'.reconcile plainClusterEnv [1, 0] = some ⟨0, [], .nothing⟩ := by
  have hdone : (twoLearnersRun.any fun f => f.members = [0, 1] && (f.rounds 0).stage matches .done (.applied _)) =
      true := by
    decide +kernel
  cases hrun : twoLearnersRun with
  | none =>
    rw [hrun] at hdone
    cases hdone
  | some f' =>
    refine ⟨f', rfl, ?_⟩
    rw [hrun, Option.any_some, Bool.and_eq_true, decide_eq_true_eq] at hdone
    obtain ⟨hmembers, hstage⟩ := hdone
    obtain ⟨plan, hplan, hnext⟩ := Option.bind_eq_some_iff.mp hrun
    split at hnext
    · next change hedit =>
      split at hstage
      · next schema happlied =>
        obtain ⟨view, -, hround⟩ := @reconcile_agrees plainClusterEnv twoLearners twoLearned
          twoLearners_apart (by decide)
        have hevents : ∀ event ∈ twoLearnersEvents, event.round = 0 := by decide
        obtain ⟨-, -, hnothing⟩ := hround f' 0 0 [1] change twoLearnersEvents plan schema hplan hedit
          hnext hevents happlied
        refine hnothing (by decide) [1, 0] (by decide) ?_
        rw [hmembers]
        decide
      · cases hstage
    · cases hnext

end CameoDb
