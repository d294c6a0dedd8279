import CameoDb.Node.Change
import CameoDb.Theorems.Node.Canvass

/-! # One round of a schema change

What the messages of a round do on a node, what its coordinator decides, and what holds of the messages it has sent. -/

namespace CameoDb
open List

/-! ### On a node -/

section Node
variable {env : ClusterEnv} {me : NodeId} {n : NodeState} {schema : IndexSchema} {world : NodeWorld}

/-- A node keeps its schema in phase one; it keeps another change's reservation too, and says that it is busy. -/
theorem prepareSchema_spec (change : Nat) : (prepareSchema env me n change schema world).2.durable = n.durable ∧
    (∀ other, n.schemaChange = some other → other ≠ change →
      (prepareSchema env me n change schema world).2.schemaChange = some other) ∧
    ∀ ready, (prepareSchema env me n change schema world).1 = some ready → ready.current = n.durable ∧
      (ready.busy = false → (prepareSchema env me n change schema world).2.schemaChange = some change) := by
  fun_cases prepareSchema env me n change schema world <;> grind [NodeState.load, NodeState.durable]

@[simp] theorem releaseSchemaChange_durable (change : Nat) : (releaseSchemaChange n change).durable = n.durable := by
  unfold releaseSchemaChange
  split <;> rfl

end Node

/-! ### Storing a change -/

theorem mergeLearned_version (into from_ : IndexSchema) : (mergeLearned into from_).version = into.version := by
  rw [IndexSchema.mergeLearned_eq]

def NodeState.mergedInto (n : NodeState) (declared : IndexSchema) : IndexSchema :=
  (n.durable.filter fun current => !current.recordsDrop).elim declared (mergeLearned declared)

section Apply
variable {env : ClusterEnv} {me : NodeId} {n : NodeState} {schema declared : IndexSchema} {world : ApplyWorld}

theorem checkedDeclaration_version (h : checkedDeclaration env me schema = .ok declared) :
    declared.version = schema.version := by
  grind [checkedDeclaration, IndexSchema.normalizeAfterDeserialization]

theorem mergedInto_version (h : checkedDeclaration env me schema = .ok declared) :
    (n.mergedInto declared).version = schema.version := by
  unfold NodeState.mergedInto
  cases n.durable.filter fun current => !current.recordsDrop with
  | none => exact checkedDeclaration_version h
  | some held => exact (mergeLearned_version declared held).trans (checkedDeclaration_version h)

/-- What phase two does on a node: it refuses a declaration, keeps what it holds, holds the change already, or
    stores it over something that is not newer. -/
inductive ApplyCases (env : ClusterEnv) (me : NodeId) (n : NodeState) (schema : IndexSchema) :
    ApplyAnswer × NodeState → Prop
  | invalid : ApplyCases env me n schema (.failed, n)
  | kept {answer : ApplyAnswer} (unapplied : answer ≠ .applied) : ApplyCases env me n schema (answer, n.load)
  | same {declared current : IndexSchema} (ok : checkedDeclaration env me schema = .ok declared)
      (held : n.durable = some current) (version : current.version = schema.version)
    (thumbprint : env.fingerprint current = env.fingerprint (n.mergedInto declared)) :
    ApplyCases env me n schema (.applied, n.load)
  | stored {declared : IndexSchema} (ok : checkedDeclaration env me schema = .ok declared)
    (newest : ∀ current, n.durable = some current → current.version ≤ schema.version) :
    ApplyCases env me n schema (.applied, n.load.storeChange (n.mergedInto declared))

theorem storeApplied_cases (held : Option IndexSchema) (ok : checkedDeclaration env me schema = .ok declared)
    (newest : ∀ current, n.durable = some current → current.version ≤ schema.version) :
    ApplyCases env me n schema (storeApplied env n.load held (n.mergedInto declared) world) := by
  unfold storeApplied
  dsimp only
  split_ifs
  all_goals first | exact .stored ok newest | exact .kept (by simp)

theorem orchApplySchema_cases (env : ClusterEnv) (me : NodeId) (n : NodeState) (schema : IndexSchema)
    (world : ApplyWorld) : ApplyCases env me n schema (orchApplySchema env me n schema world) := by
  unfold orchApplySchema
  split
  · exact .invalid
  · rename_i declared hdeclared
    have hmerged : (n.mergedInto declared).version = schema.version := mergedInto_version hdeclared
    dsimp only
    rw [NodeState.load_durable]
    have hname : (n.durable.filter fun current => !current.recordsDrop).elim declared (mergeLearned declared) =
        n.mergedInto declared := rfl
    rw [hname]
    split
    · rename_i current hcurrent
      split_ifs with hsame hkept
      · exact .same hdeclared hcurrent (hsame.1.trans hmerged) hsame.2
      · exact .kept (by simp)
      · exact .kept (by simp)
      · refine storeApplied_cases _ hdeclared fun other hother => ?_
        grind [preferredSchema]
    · rename_i hnone
      split_ifs
      · exact .kept (by simp)
      · refine storeApplied_cases _ hdeclared fun other hother => ?_
        cases hnone.symm.trans hother

end Apply

theorem storeChange_mergedInto {env : ClusterEnv} {me : NodeId} {n : NodeState} {schema declared : IndexSchema}
    (ok : checkedDeclaration env me schema = .ok declared)
    (newest : ∀ current, n.durable = some current → current.version ≤ schema.version) :
    (n.load.storeChange (n.mergedInto declared)).durable = some (n.mergedInto declared) := by
  rcases storeChange_durable n.load (n.mergedInto declared) with h | ⟨current, hcached, hlt, -⟩
  · exact h
  · have hle := newest current hcached
    rw [mergedInto_version ok] at hlt
    omega

/-! ### The decision -/

section Decision
variable {env : ClusterEnv} {change : Change} {readiness : List (NodeId × SchemaReadiness)} {schema : IndexSchema}
  {held : Option IndexSchema}

def ChangeStep.Unapplied (step : ChangeStep) : Prop := ∀ schema, step ≠ .applied schema

/-- What phase one leads to once no node is busy: the round stops, or it has its proposal stored, one past the
    highest version unless some node holds no index. -/
def Verdict.Decides (change : Change) (readiness : List (NodeId × SchemaReadiness)) : Verdict → Prop
  | .stop step => step.Unapplied
  | .apply schema _ => ∃ version tenant, schema = { change.proposal with version, tenant } ∧
    (version = nextVersion (highestVersion readiness) ∨ ∃ r ∈ readiness, ∀ c, r.2.current = some c →
    c.recordsDrop = true)
  | _ => False

theorem goAhead_decides {version : Nat} (h : version = nextVersion (highestVersion readiness) ∨
    ∃ r ∈ readiness, ∀ c, r.2.current = some c → c.recordsDrop = true) :
    (goAhead env change readiness version).Decides change readiness := by
  unfold goAhead
  dsimp only
  split_ifs
  · simp [Verdict.Decides, ChangeStep.Unapplied]
  · simp [Verdict.Decides, ChangeStep.Unapplied]
  · exact ⟨version, _, rfl, h⟩

theorem decideEdit_decides (edit : FieldEdit) : (decideEdit env edit change readiness).Decides change readiness := by
  fun_cases decideEdit env edit change readiness with
  | case6 view _ proposal _ _ hnotAll hrest =>
    refine goAhead_decides (.inr ?_)
    simp only [all_eq_true, not_forall] at hnotAll hrest
    obtain ⟨r, hr, hnot⟩ := hnotAll
    have hdrop := hrest r hr
    exact ⟨r, hr, by grind⟩
  | case7 => exact goAhead_decides (.inl rfl)
  | _ => simp [Verdict.Decides, ChangeStep.Unapplied]

theorem decideReady_decides : (decideReady env change readiness).Decides change readiness := by
  fun_cases decideReady env change readiness with
  | case1 | case3 => simp [Verdict.Decides, ChangeStep.Unapplied]
  | case2 _ edit => exact decideEdit_decides edit
  | case4 | case5 => exact goAhead_decides (.inl rfl)

theorem countDrops_live {N : Type} {records : List (N × IndexSchema)}
    (h : ∀ r ∈ records, r.2.recordsDrop = false ∧ 0 < r.2.version) : countDrops records 0 = ⟨0, [], records⟩ := by
  have hdrops : (records.filter fun r => r.2.recordsDrop) = [] := by grind [filter_eq_nil_iff]
  have hstands : ∀ r ∈ records, r.2.droppedBy 0 = false := by grind [IndexSchema.droppedBy]
  have hmissed : (records.filter fun r => r.2.droppedBy 0) = [] := by grind [filter_eq_nil_iff]
  have hstanding : (records.filter fun r => !r.2.droppedBy 0) = records := by grind [filter_eq_self]
  simp only [countDrops, hdrops, foldl_nil, hmissed, map_nil, hstanding]

end Decision

/-! ### The answers of phase one -/

namespace Round
variable {env : ClusterEnv} {r : Round} {readiness : List (NodeId × SchemaReadiness)}

theorem readiness_spec (h : r.readiness = some readiness) : readiness.map Prod.fst = r.nodes ∧
    ∀ x ready, (x, ready) ∈ readiness → (x, some (.ready ready)) ∈ r.asker.answers := by
  obtain ⟨answers, hanswers, hready⟩ := Option.bind_eq_some_iff.mp h
  obtain ⟨hnodes, hheard⟩ := Asker.collect_spec hanswers
  rw [← hnodes]
  clear hnodes hanswers h
  induction answers generalizing readiness with
  | nil =>
    cases hready
    exact ⟨rfl, fun x ready hx => nomatch hx⟩
  | cons answer rest ih =>
    rw [mapM_cons] at hready
    obtain ⟨first, hfirst, hready⟩ := Option.bind_eq_some_iff.mp hready
    obtain ⟨others, hothers, hcons⟩ := Option.bind_eq_some_iff.mp hready
    cases hcons
    obtain ⟨hmap, hmem⟩ := ih hothers fun x a hx => hheard x a (mem_cons_of_mem _ hx)
    obtain ⟨node, answer⟩ := answer
    cases answer with
    | ready got =>
      cases hfirst
      refine ⟨by rw [map_cons, map_cons, hmap], fun x ready hx => ?_⟩
      rcases mem_cons.mp hx with hx | hx
      · cases hx
        exact hheard node (.ready got) mem_cons_self
      · exact hmem x ready hx
    | applied | done | refused => cases hfirst

theorem appliedOn_spec (r : Round) (x : NodeId) :
    r.appliedOn x = .failed ∨ (x, some (.applied (r.appliedOn x))) ∈ r.asker.answers := by
  unfold appliedOn
  split
  · rename_i answer hfound
    obtain ⟨⟨node, heard⟩, hfind, hheard⟩ := Option.bind_eq_some_iff.mp hfound
    have hnode : node = x := by simpa using find?_some hfind
    subst hnode
    cases hheard
    exact .inr (mem_of_find?_eq_some hfind)
  · exact .inl rfl

theorem decide_keeps {r' : Round} (h : r.decide env = some r') :
    r'.here = r.here ∧ r'.peers = r.peers ∧ r'.change = r.change := by
  unfold decide at h
  split at h <;> grind [decideApplied, release, ask, Option.map_eq_some_iff]

end Round

/-! ### One event -/

def ChangeEvent.round : ChangeEvent → Nat
  | start round .. | handle round .. | finishDrop round .. | lose round .. | giveUp round .. | decide round => round

/-- What an event of a round does: it starts the round, or a node handles one of its messages, or one is lost, or
    the coordinator stops waiting for a node, or it goes on. -/
inductive ChangeCases (env : ClusterEnv) (f : Fleet) (round : Nat) : Fleet → Prop
  | started {here : NodeId} {peers : List NodeId} {change : Change} (idle : (f.rounds round).stage = .idle)
      (apart : here ∉ peers) (nodes : ∀ x, x ∈ f.members ↔ x = here ∨ x ∈ peers) (proper : change.Proper) :
    ChangeCases env f round (f.setRound round
      ((⟨here, peers, change, .idle, .initial, none, [], false⟩ : Round).ask (.preparing 1) (here :: peers) .prepare))
  | handled {x : NodeId} {position : Nat} {m : Nat × ChangeMessage} (world : NodeWorld)
    (sent : ((f.rounds round).asker.inFlight x)[position]? = some m) :
    ChangeCases env f round (f.handle env round x position world m.1 m.2)
  | lost (x : NodeId) (position : Nat) :
    ChangeCases env f round (f.setRound round { f.rounds round with asker := (f.rounds round).asker.remove x position })
  | gaveUp (x : NodeId) :
    ChangeCases env f round (f.setRound round { f.rounds round with asker := (f.rounds round).asker.giveUp x })
  | decided {r : Round} {entered : List Nat} (heard : (f.rounds round).asker.waiting = [])
    (next : (f.rounds round).decide env = some r)
    (count : entered = if r.agreed.isSome ∧ (f.rounds round).agreed.isNone then round :: f.entered else f.entered) :
    ChangeCases env f round { f.setRound round r with entered }

theorem changeStep_start {env : ClusterEnv} {f f' : Fleet} {round : Nat} {here : NodeId}
    {peers : List NodeId} {change : Change} (h : changeStep env f (.start round here peers change) = some f') :
    (f.rounds round).stage = .idle ∧ here ∉ peers ∧ (∀ x, x ∈ f.members ↔ x = here ∨ x ∈ peers) ∧ change.Proper ∧
      f' = f.setRound round
        ((⟨here, peers, change, .idle, .initial, none, [], false⟩ : Round).ask (.preparing 1)
        (here :: peers) .prepare) := by
  simp only [changeStep, Option.ite_none_right_eq_some] at h
  obtain ⟨⟨hidle, hmember, hapart, hcovers, hpeers, hproper⟩, hdone⟩ := h
  refine ⟨?_, hapart, fun x => ⟨hcovers x, ?_⟩, hproper, (Option.some.inj hdone).symm⟩
  · cases hstage : (f.rounds round).stage with
    | idle => rfl
    | preparing | finishing | applyingLocal | applyingPeers | releasing | restoring | done =>
      rw [hstage] at hidle
      cases hidle
  · rintro (rfl | hx)
    · exact hmember
    · exact hpeers x hx

theorem changeStep_cases {env : ClusterEnv} {f f' : Fleet} {event : ChangeEvent}
    (h : changeStep env f event = some f') : ChangeCases env f event.round f' := by
  cases event with
  | start round here peers change =>
    obtain ⟨hidle, hapart, hnodes, hproper, rfl⟩ := changeStep_start h
    exact .started hidle hapart hnodes hproper
  | handle round node position world =>
    obtain ⟨m, hsent, hdone⟩ := Option.bind_eq_some_iff.mp h
    split at hdone
    · cases hdone
    · cases hdone
      exact .handled world hsent
  | finishDrop round node position =>
    obtain ⟨m, hsent, hdone⟩ := Option.bind_eq_some_iff.mp h
    split at hdone
    · cases hdone
      exact .handled .none hsent
    · cases hdone
  | lose round node position =>
    obtain ⟨m, -, hdone⟩ := Option.map_eq_some_iff.mp h
    cases hdone
    exact .lost node position
  | giveUp round node =>
    simp only [changeStep] at h
    split at h
    · cases h
      exact .gaveUp node
    · cases h
  | decide round =>
    simp only [changeStep] at h
    split at h
    · rename_i hheard
      obtain ⟨r, hnext, hdone⟩ := Option.map_eq_some_iff.mp h
      have hcase := @ChangeCases.decided env f round r _ hheard hnext rfl
      split_ifs at hdone hcase <;> exact hdone ▸ hcase
    · cases h

end CameoDb
