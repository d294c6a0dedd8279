import CameoDb.Node.Orchestrator
import CameoDb.Lib.Asker
import CameoDb.Lib.Transition
import Mathlib.Algebra.GroupWithZero.Nat

/-! # Schema changes across a cluster

Each round asks every node to reserve the index, decides once, and has every node store the schema. An event is one
message handled by one node, or one step of a coordinator. -/

namespace CameoDb
open Std

/-! ### Edits -/

/-- A `PATCH` of a schema: which fields are indexed, and the fields an unqualified term searches. -/
structure FieldEdit where
  fieldUpdates : List (String × Bool)
  defaultFields : Option (List String)

inductive Edited where
  | proposal (schema : IndexSchema)
  | unknown
  | invalid

def FieldDef.setIndexed (field : FieldDef) (indexed : Bool) : FieldDef :=
  if field.indexed = indexed then field
  else { field with indexed := indexed, learned := if indexed then false else field.learned }

def IndexSchema.setIndexed (schema : IndexSchema) (name : String) (indexed : Bool) : IndexSchema :=
  { schema with fields := schema.fields.modify name fun field => field.setIndexed indexed }

def FieldEdit.apply (env : ClusterEnv) (edit : FieldEdit) (held : IndexSchema) : Edited :=
  if edit.fieldUpdates.any fun update => !held.fields.contains update.1 then .unknown
  else
    let flagged := edit.fieldUpdates.foldl (fun next update => next.setIndexed update.1 update.2) held
    let next := match edit.defaultFields with
      | some names => { flagged with defaultFields := if names = [] then none else some names }
      | none => flagged
    let flags := edit.fieldUpdates.any fun update => (held.fields[update.1]?).any fun field => field.indexed ≠ update.2
    if next.hasGhostFields && flags && !env.validGhosts next then .invalid
    else if (edit.defaultFields.isSome || edit.fieldUpdates.any fun update => !update.2) && !env.validDefaults next then
      .invalid
    else .proposal next

/-! ### Phase one -/

/-- What one node reports: the schema it holds, whether the change leaves it as it is, its documents and the changes
    that conflict with them if a built column changes, and whether another change holds the index there. -/
structure SchemaReadiness where
  current : Option IndexSchema
  unchanged : Bool
  documents : Nat
  conflicts : List String
  quotaExceeded : Bool
  busy : Bool
  knowsGhosts : Bool

/-- What a node's shards, its tenants' quotas and its build say while it answers. -/
structure NodeWorld where
  documents : Nat
  quotaExceeded : Bool
  knowsGhosts : Bool
  apply : ApplyWorld

section Handlers
variable (env : ClusterEnv)

def prepareSchema (me : NodeId) (node : NodeState) (change : Nat) (schema : IndexSchema) (world : NodeWorld) :
    Option SchemaReadiness × NodeState :=
  let busy := node.schemaChange.any fun held => held ≠ change
  let n := if busy then node else { node with schemaChange := some change }
  match checkedDeclaration env me schema with
  | .error _ => (none, n)
  | .ok declared =>
    let n := n.load
    let held := n.durable.filter fun current => !current.recordsDrop
    let changes := (held.map fun current => env.rebuildChanges current declared).getD []
    (some {
      current := n.durable
      unchanged := held.any fun current => env.fingerprint (mergeLearned declared current) = env.fingerprint current
      documents := if changes = [] then 0 else world.documents
      conflicts := (changes.filter Prod.snd).map Prod.fst
      quotaExceeded := held.isNone && world.quotaExceeded
      busy := busy
      knowsGhosts := world.knowsGhosts }, n)

/-- Ends a change's reservation of the index, if it still holds it. -/
def releaseSchemaChange (n : NodeState) (change : Nat) : NodeState :=
  if n.schemaChange = some change then { n with schemaChange := none } else n

def applySchema (me : NodeId) (node : NodeState) (change : Nat) (schema : IndexSchema) (world : NodeWorld) :
    ApplyAnswer × NodeState :=
  let done := orchApplySchema env me node schema world.apply
  (done.1, releaseSchemaChange done.2 change)

end Handlers

/-! ### The decision -/

/-- What a round came to. -/
inductive ChangeStep where
  | applied (schema : IndexSchema)
  | refused
  | moved
  | unchanged (version : Nat)
  | failed

/-- What the answers of phase one lead to. -/
inductive Verdict where
  | stop (step : ChangeStep)
  | finish (droppedAt : Nat) (missed : List NodeId)
  | again
  | apply (schema : IndexSchema) (held : Option IndexSchema)

structure Change where
  proposal : IndexSchema
  edit : Option FieldEdit

def busyAttempts : Nat := 5

section Decision
variable (env : ClusterEnv)

/-- The version a round takes: one past the highest any node holds, a record of a drop included. -/
def highestVersion (readiness : List (NodeId × SchemaReadiness)) : Nat :=
  (readiness.filterMap fun r => r.2.current.map IndexSchema.version).foldl max 0

def heldSchemas (readiness : List (NodeId × SchemaReadiness)) : List IndexSchema :=
  readiness.filterMap fun r => r.2.current

/-- The schema the cluster holds, as it settles a disagreement. -/
def heldNow (readiness : List (NodeId × SchemaReadiness)) : Option IndexSchema :=
  preferredOf env.fingerprint ((heldSchemas readiness).filter fun current => !current.recordsDrop)

/-- The quota and the documents, and then the schema to apply: the owner that is recorded stays. -/
def goAhead (change : Change) (readiness : List (NodeId × SchemaReadiness)) (version : Nat) : Verdict :=
  let held := heldNow env readiness
  if held.isNone && readiness.any fun r => r.2.quotaExceeded then .stop .failed
  else if 0 < (readiness.map fun r => r.2.documents).sum && readiness.any fun r =>
    r.2.conflicts ≠ [] then .stop .refused
  else
    let tenant := match held with
      | some current => current.tenant
      | none => change.proposal.tenant
    .apply { change.proposal with version := version, tenant := tenant } held

def holdsView (view proposal current : IndexSchema) : Bool :=
  !current.recordsDrop && current.version = view.version && env.fingerprint current = env.fingerprint proposal

/-- An edit is made to the schema the cluster holds now; where every node that holds the index holds the result already,
    the others take it up at its version. -/
def decideEdit (edit : FieldEdit) (change : Change) (readiness : List (NodeId × SchemaReadiness)) : Verdict :=
  match mergedView env.fingerprint (heldSchemas readiness) with
  | none => .stop .failed
  | some view =>
    match edit.apply env view with
    | .invalid => .stop .failed
    | .unknown => .stop .refused
    | .proposal proposal =>
      if env.fingerprint proposal ≠ env.fingerprint change.proposal then .stop .moved
      else if readiness.all fun r => r.2.current.any (holdsView env view proposal) then .stop (.unchanged view.version)
      else if readiness.all fun r => r.2.current.all fun c => c.recordsDrop || holdsView env view proposal c then
        goAhead env change readiness view.version
      else goAhead env change readiness (nextVersion (highestVersion readiness))

/-- The decision of a round whose nodes all answered and none of which is busy. -/
def decideReady (change : Change) (readiness : List (NodeId × SchemaReadiness)) : Verdict :=
  if change.proposal.hasGhostFields && readiness.any fun r => !r.2.knowsGhosts then .stop .failed
  else
    match change.edit with
    | some edit => decideEdit env edit change readiness
    | none =>
      match heldNow env readiness with
      | some held =>
        if readiness.all fun r => r.2.unchanged && r.2.current.any fun c => c.version = held.version then
          .stop (.unchanged held.version)
        else goAhead env change readiness (nextVersion (highestVersion readiness))
      | none => goAhead env change readiness (nextVersion (highestVersion readiness))

/-- What the answers of phase one lead to: a node that missed a drop finishes it first, and a round that finds the
    index held by another change steps back. -/
def decidePrepared (attempt : Nat) (change : Change) (readiness : List (NodeId × SchemaReadiness)) : Verdict :=
  let counted := countDrops (readiness.filterMap fun r => r.2.current.map fun current => (r.1, current)) 0
  if counted.missed ≠ [] then .finish counted.droppedAt counted.missed
  else if readiness.any fun r => r.2.busy then
    if busyAttempts ≤ attempt then .stop .refused else .again
  else decideReady env change readiness

end Decision

/-! ### Rounds -/

inductive ChangeMessage where
  | prepare
  | apply (schema : IndexSchema)
  | release
  | restore (schema : IndexSchema)
  | finishDrop (droppedAt : Nat)

inductive ChangeAnswer where
  | ready (readiness : SchemaReadiness)
  | applied (answer : ApplyAnswer)
  | done
  | refused

/-- Where a round goes once its reservations are released. -/
inductive AfterRelease where
  | again (attempt : Nat)
  | finish (attempt droppedAt : Nat) (missed : List NodeId)
  | stop (step : ChangeStep)

inductive ChangeStage where
  | idle
  | preparing (attempt : Nat)
  | finishing (attempt : Nat)
  | applyingLocal
  | applyingPeers (here : ApplyAnswer)
  | releasing (next : AfterRelease)
  | restoring
  | done (step : ChangeStep)

/-- What phase one settled: the answers it was settled on, the schema to store, and the one held before. -/
structure Agreed where
  readiness : List (NodeId × SchemaReadiness)
  schema : IndexSchema
  held : Option IndexSchema

/-- One round: its coordinator's node and the peers, the change, and how far it is. `stored` and `restored` are its
    history: what its `ApplySchema` messages did, and whether it put back what was held before. -/
structure Round where
  here : NodeId
  peers : List NodeId
  change : Change
  stage : ChangeStage
  asker : Asker NodeId ChangeMessage ChangeAnswer
  agreed : Option Agreed
  stored : List (NodeId × ApplyAnswer)
  restored : Bool

def ApplyAnswer.arrivedCount : ApplyAnswer → Nat
  | arrived documents => documents
  | _ => 0

namespace Round

def nodes (r : Round) : List NodeId := r.here :: r.peers

def ask (r : Round) (stage : ChangeStage) (targets : List NodeId) (message : ChangeMessage) : Round :=
  { r with stage := stage, asker := r.asker.ask targets message }

def release (r : Round) (next : AfterRelease) : Round := r.ask (.releasing next) r.nodes .release

def readiness (r : Round) : Option (List (NodeId × SchemaReadiness)) :=
  (r.asker.collect r.nodes).bind fun answers => answers.mapM fun a =>
    match a.2 with
    | .ready ready => some (a.1, ready)
    | _ => none

def appliedOn (r : Round) (node : NodeId) : ApplyAnswer :=
  match (r.asker.answers.find? fun a => a.1 = node).bind Prod.snd with
  | some (.applied answer) => answer
  | _ => .failed

/-- The outcome of phase two. A conflict with documents that arrived meanwhile puts the schema held before back, at
    a version above. -/
def decideApplied (r : Round) (agreed : Agreed) (outcomes : List ApplyAnswer) : Round :=
  if 0 < (outcomes.map ApplyAnswer.arrivedCount).sum then
    match agreed.held with
    | some previous =>
      { r with restored := true }.ask .restoring r.nodes
        (.restore { previous with version := nextVersion agreed.schema.version })
    | none => { r with stage := .done .refused }
  else if outcomes.any fun o => o matches .superseded then { r with stage := .done .refused }
  else if outcomes.any fun o => o matches .failed then r.release (.stop .failed)
  else { r with stage := .done (.applied agreed.schema) }

/-- The coordinator goes on, once it waits for nobody. -/
def decide (env : ClusterEnv) (r : Round) : Option Round :=
  match r.stage with
  | .idle => none
  | .preparing attempt =>
    match r.readiness with
    | none => some (r.release (.stop .failed))
    | some readiness =>
      match decidePrepared env attempt r.change readiness with
      | .stop step => some (r.release (.stop step))
      | .finish droppedAt missed => some (r.release (.finish attempt droppedAt missed))
      | .again => some (r.release (.again attempt))
      | .apply schema held =>
        some ({ r with agreed := some ⟨readiness, schema, held⟩ }.ask .applyingLocal [r.here] (.apply schema))
  | .finishing attempt =>
    if r.asker.answers.any fun a => a.2.isNone then some { r with stage := .done .failed }
    else if busyAttempts ≤ attempt then some { r with stage := .done .failed }
    else some (r.ask (.preparing (attempt + 1)) r.nodes .prepare)
  | .applyingLocal =>
    match r.agreed, r.appliedOn r.here with
    | none, _ => none
    | some _, .failed => some (r.release (.stop .failed))
    | some agreed, answer => some (r.ask (.applyingPeers answer) r.peers (.apply agreed.schema))
  | .applyingPeers here =>
    r.agreed.map fun agreed => r.decideApplied agreed (here :: r.peers.map r.appliedOn)
  | .releasing (.again attempt) => some (r.ask (.preparing (attempt + 1)) r.nodes .prepare)
  | .releasing (.finish attempt droppedAt missed) => some (r.ask (.finishing attempt) missed (.finishDrop droppedAt))
  | .releasing (.stop step) => some { r with stage := .done step }
  | .restoring => some { r with stage := .done .refused }
  | .done _ => none

end Round

/-! ### The cluster -/

/-- A change's UUID, and the fresh one under which it puts back what was held. -/
def changeId (round : Nat) : Nat := 2 * round
def restoreId (round : Nat) : Nat := 2 * round + 1

/-- The nodes and the rounds that run; `entered` are the rounds that came through phase one, the last one first. -/
structure Fleet where
  members : List NodeId
  nodes : NodeId → NodeState
  rounds : Nat → Round
  entered : List Nat

inductive ChangeEvent where
  | start (round : Nat) (here : NodeId) (peers : List NodeId) (change : Change)
  /-- A node handles one of a round's messages to it, by its position in the order they were sent. -/
  | handle (round : Nat) (node : NodeId) (position : Nat) (world : NodeWorld)
  /-- A node handles one of a round's messages to it, which tells it to finish a drop. -/
  | finishDrop (round : Nat) (node : NodeId) (position : Nat)
  | lose (round : Nat) (node : NodeId) (position : Nat)
  | giveUp (round : Nat) (node : NodeId)
  | decide (round : Nat)

/-- A round that only runs when its proposal describes a live index: an edit is made to one. -/
def Change.Proper (change : Change) : Prop := change.edit.isSome → change.proposal.recordsDrop = false

instance (change : Change) : Decidable change.Proper := inferInstanceAs (Decidable (_ → _))

namespace Fleet

def setNode (f : Fleet) (node : NodeId) (n : NodeState) : Fleet := { f with nodes := Function.update f.nodes node n }

def setRound (f : Fleet) (round : Nat) (r : Round) : Fleet := { f with rounds := Function.update f.rounds round r }

def respond (env : ClusterEnv) (f : Fleet) (round : Nat) (node : NodeId) (world : NodeWorld) :
    ChangeMessage → ChangeAnswer × NodeState
  | .prepare =>
    let done := prepareSchema env node (f.nodes node) (changeId round) (f.rounds round).change.proposal world
    (done.1.elim .refused .ready, done.2)
  | .apply schema =>
    let done := applySchema env node (f.nodes node) (changeId round) schema world
    (.applied done.1, done.2)
  | .restore schema =>
    let done := applySchema env node (f.nodes node) (restoreId round) schema world
    (.applied done.1, done.2)
  | .release => (.done, releaseSchemaChange (f.nodes node) (changeId round))
  | .finishDrop droppedAt => (.done, (orchFinishDrop (f.nodes node) droppedAt).2)

def storedAfter (r : Round) (node : NodeId) (message : ChangeMessage) (answer : ChangeAnswer) :
    List (NodeId × ApplyAnswer) :=
  match message, answer with
  | .apply _, .applied done => r.stored ++ [(node, done)]
  | _, _ => r.stored

def handle (env : ClusterEnv) (f : Fleet) (round : Nat) (node : NodeId) (position : Nat) (world : NodeWorld) (tag : Nat)
    (message : ChangeMessage) : Fleet :=
  let r := f.rounds round
  let done := f.respond env round node world message
  (f.setNode node done.2).setRound round
    { r with
      asker := (r.asker.remove node position).hear node tag done.1
      stored := storedAfter r node message done.1 }

end Fleet

def ChangeMessage.isFinishDrop : ChangeMessage → Bool
  | finishDrop _ => true
  | _ => false

def NodeWorld.none : NodeWorld := ⟨0, false, false, ⟨false, false, 0, 0⟩⟩

def changeStep (env : ClusterEnv) (f : Fleet) : ChangeEvent → Option Fleet
  | .start round here peers change =>
    if (f.rounds round).stage matches .idle ∧ here ∈ f.members ∧ here ∉ peers ∧
    (∀ x ∈ f.members, x = here ∨ x ∈ peers) ∧ (∀ x ∈ peers, x ∈ f.members) ∧ change.Proper then
      let r : Round := ⟨here, peers, change, .idle, .initial, none, [], false⟩
      some (f.setRound round (r.ask (.preparing 1) r.nodes .prepare))
    else none
  | .handle round node position world =>
    ((f.rounds round).asker.inFlight node)[position]?.bind fun m =>
      if m.2.isFinishDrop then none else some (f.handle env round node position world m.1 m.2)
  | .finishDrop round node position =>
    ((f.rounds round).asker.inFlight node)[position]?.bind fun m =>
      if m.2.isFinishDrop then some (f.handle env round node position .none m.1 m.2) else none
  | .lose round node position =>
    ((f.rounds round).asker.inFlight node)[position]?.map fun _ =>
      f.setRound round { f.rounds round with asker := (f.rounds round).asker.remove node position }
  | .giveUp round node =>
    if node ∈ (f.rounds round).asker.waiting then
      some (f.setRound round { f.rounds round with asker := (f.rounds round).asker.giveUp node })
    else none
  | .decide round =>
    if (f.rounds round).asker.waiting = [] then
      ((f.rounds round).decide env).map fun r =>
        let g := f.setRound round r
        if r.agreed.isSome ∧ (f.rounds round).agreed.isNone then { g with entered := round :: g.entered } else g
    else none

end CameoDb
