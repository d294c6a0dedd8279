import CameoDb.Storage.Agreement
import CameoDb.Storage.Store

/-! # What a node's orchestrator does with the schema of one index

The handlers of one node that read or change the schema of an index. Each runs alone in the orchestrator's mailbox. -/

namespace CameoDb
open Std

/-- A node's UUID, which are compared as numbers. -/
abbrev NodeId := Nat

/-- What the nodes of a cluster have in common. -/
structure ClusterEnv where
  parsers : Parsers
  /-- The hash of the thumbprint. -/
  xxh3 : List UInt8 → UInt64
  /-- Why a node refuses a normalized declaration: its default fields, its tokenizers, which depend on the node's build,
      or its ghosts. -/
  invalid : NodeId → IndexSchema → Option String
  /-- What changing from one schema to another asks of a built index, each change with whether it conflicts with the
      documents there are. -/
  rebuildChanges : IndexSchema → IndexSchema → List (String × Bool)
  /-- Whether every ghost of a schema can be fed. -/
  validGhosts : IndexSchema → Bool
  /-- Whether the default fields of a schema are fields it searches. -/
  validDefaults : IndexSchema → Bool

def ClusterEnv.fingerprint (env : ClusterEnv) : IndexSchema → UInt64 :=
  IndexSchema.calculateFingerprint env.parsers env.xxh3

/-- What one node keeps of one index: the schema its cache holds, the schema row its shards store, how many writes are
    minting the index, the peers that said they are minting it too, and the change the index is reserved for. -/
structure NodeState where
  cached : Option IndexSchema
  stored : Option IndexSchema
  minting : Nat
  mintRivals : List NodeId
  schemaChange : Option Nat

namespace NodeState

def durable (n : NodeState) : Option IndexSchema := n.cached.or n.stored

/-- A read of the store fills the cache. -/
def load (n : NodeState) : NodeState := { n with cached := n.durable }

def schemaFor (n : NodeState) : IndexSchema := n.durable.getD .default

def put (n : NodeState) (schema : IndexSchema) : NodeState :=
  match n.cached with
  | some current => if schema.version < current.version then n else { n with cached := some schema }
  | none => { n with cached := some schema }

def persist (n : NodeState) (schema : IndexSchema) : NodeState := { n with stored := some schema }

end NodeState

def dropRecordVersion : Option IndexSchema → Nat
  | some schema => if schema.recordsDrop then schema.version else 0
  | none => 0

def NodeState.droppedHere (n : NodeState) : Nat := dropRecordVersion n.durable

def NodeState.dropRecord (n : NodeState) : Option Nat :=
  (n.durable.filter fun schema => schema.recordsDrop).map IndexSchema.version

/-! ### Answering a canvass -/

inductive RawAnswer where
  | schema (schema : IndexSchema)
  | null
  | beingMinted

def insertRival (rivals : List NodeId) : Option NodeId → List NodeId
  | some rival => if rival ∈ rivals then rivals else rival :: rivals
  | none => rivals

def rawSchemaForPeer (node : NodeState) (mintingBy : Option NodeId) : RawAnswer × NodeState :=
  let n := node.load
  match n.durable.filter fun schema => !schema.recordsDrop with
  | some schema => (.schema schema, n)
  | none =>
    if 0 < n.minting then (.beingMinted, { n with mintRivals := insertRival n.mintRivals mintingBy })
    else
      match n.durable with
      | some record => (.schema record, n)
      | none => (.null, n)

inductive PeerAnswer where
  | answered (value : Option IndexSchema)
  | minting
  | failed

def RawAnswer.heard : RawAnswer → PeerAnswer
  | schema s => .answered (some s)
  | null => .answered none
  | beingMinted => .minting

/-- The schema in a peer's answer, if it is one a write can be checked against. -/
def heldSchema (p : Parsers) : Option IndexSchema → Option IndexSchema
  | some schema => if schema.isLive then some (schema.normalizeAfterDeserialization p) else none
  | none => none

/-! ### What a canvass comes to -/

inductive PeerSchemaLookup where
  | found (schema : IndexSchema)
  | noneHeld (droppedAt : Nat)
  | contested (rivals : List NodeId)
  | unreachable

section Lookup
variable (env : ClusterEnv)

def heardSchemas (answers : List (NodeId × PeerAnswer)) : List (NodeId × IndexSchema) :=
  answers.filterMap fun (node, answer) =>
    match answer with
    | .answered value => (heldSchema env.parsers value).map fun schema => (node, schema)
    | _ => none

def heardRivals (answers : List (NodeId × PeerAnswer)) : List NodeId :=
  answers.filterMap fun (node, answer) =>
    match answer with
    | .minting => some node
    | _ => none

def heardDrops (answers : List (NodeId × PeerAnswer)) : List Nat :=
  answers.filterMap fun (_, answer) =>
    match answer with
    | .answered (some schema) => if schema.recordsDrop then some schema.version else none
    | _ => none

def PeerAnswer.isFailed : PeerAnswer → Bool
  | failed => true
  | _ => false

def countCanvass (droppedHere : Nat) (answers : List (NodeId × PeerAnswer)) : DropsCounted NodeId :=
  countDrops (heardSchemas env answers) ((heardDrops answers).foldl max droppedHere)

def peerSchemaFor (droppedHere : Nat) (answers : List (NodeId × PeerAnswer)) (untold : Bool) : PeerSchemaLookup :=
  let counted := countCanvass env droppedHere answers
  match preferredOf env.fingerprint (counted.standing.map Prod.snd) with
  | some schema => .found schema
  | none =>
    if untold || answers.any fun a => a.2.isFailed then .unreachable
    else if heardRivals answers ≠ [] then .contested (heardRivals answers)
    else .noneHeld counted.droppedAt

end Lookup

/-! ### The schema a write is checked against -/

def wantedFields (newFields : List (String × TantivyFieldType)) : ExtTreeMap String TantivyFieldType :=
  newFields.foldl (fun wanted entry => wanted.alter entry.1 fun
    | some joined => some (joined.widened entry.2)
    | none => some entry.2) ∅

def IndexSchema.addWanted (initial : Bool) (schema : IndexSchema) (name : String) (fieldType : TantivyFieldType) :
    IndexSchema :=
  match schema.fields[name]? with
  | none =>
    let field := if initial then FieldDef.new name fieldType else FieldDef.newLearned name fieldType
    { schema with fields := schema.fields.insert name field }
  | some field =>
    if field.isLearned && field.fieldType.widened fieldType ≠ field.fieldType then
      { schema with fields := schema.fields.insert name (field.retypeLearned (field.fieldType.widened fieldType)) }
    else schema

def evolveSequential (initial : Bool) (newFields : List (String × TantivyFieldType)) (schema : IndexSchema) :
    IndexSchema :=
  (wantedFields newFields).toList.foldl (fun schema entry => schema.addWanted initial entry.1 entry.2) schema

/-- The schema of a new index, before its fields are added: over a record of a drop, here or on a peer, it takes the
    next version. -/
def mintedSchema (current : IndexSchema) (peerDroppedAt : Nat) : IndexSchema :=
  let droppedAt := max (dropRecordVersion (some current)) peerDroppedAt
  { current with
    version := if 0 < droppedAt then nextVersion droppedAt else current.version
    state := .active
    fields := current.fields.insertIfNew "id" (FieldDef.new "id" .text) }

inductive WriteRefused where
  | quotaExceeded
  | schemaBodyRequired
  | schemaUnconfirmed
  | notCreatedImplicitly

/-- What a write made of the schema: nothing, for want of documents; or it added to a live one, took over a peer's, or
    created its own. -/
inductive Settlement where
  | untouched
  | evolved
  | adopted (schema : IndexSchema)
  | minted (schema : IndexSchema)

/-- Where a write that finds no live schema gets one from. -/
inductive SchemaSource where
  | carried (body : Option IndexSchema)
  | canvassed (lookup : PeerSchemaLookup)

/-- A write's documents, as validation reports them: whether there are any, and the fields the schema lacks. Then
    whether the tenant's quota lets it run, and whether this node may create the index for it, which the
    configuration and the quota decide. -/
structure WriteDocs where
  empty : Bool
  newFields : List (String × TantivyFieldType)
  admitted : Bool
  mayCreate : Bool

def adoptSchema (n : NodeState) (schema : IndexSchema) (docs : WriteDocs) : NodeState × Settlement :=
  let settled := evolveSequential false docs.newFields schema
  ((n.persist settled).put settled, .adopted schema)

/-- The schema part of a write. A bulk write without documents is validated against nothing, but the schema it was read
    with is cached. -/
def stagedSchemaValidation (node : NodeState) (docs : WriteDocs) (source : SchemaSource) :
    Except WriteRefused (NodeState × Settlement) :=
  let n := node.load
  if !docs.admitted then .error .quotaExceeded
  else if docs.empty then .ok ({ n with cached := some n.schemaFor }, .untouched)
  else if n.schemaFor.isLive then
    let settled := evolveSequential false docs.newFields n.schemaFor
    .ok (if settled = n.schemaFor then n else (n.persist settled).put settled, .evolved)
  else
    match source with
    | .carried (some body) =>
      if body.fields.isEmpty then .error .schemaBodyRequired else .ok (adoptSchema n body docs)
    | .carried none => .error .schemaBodyRequired
    | .canvassed (.found declared) => .ok (adoptSchema n declared docs)
    | .canvassed (.contested _) => .error .schemaUnconfirmed
    | .canvassed .unreachable => .error .schemaUnconfirmed
    | .canvassed (.noneHeld droppedAt) =>
      if docs.mayCreate then
        let minted := evolveSequential true docs.newFields (mintedSchema n.schemaFor droppedAt)
        .ok ((n.persist minted).put minted, .minted minted)
      else .error .notCreatedImplicitly

/-! ### Minting -/

def mintWinner (me : NodeId) (rivals : List NodeId) : Option NodeId := (rivals.filter (· < me)).min?

/-- Marks the index as being minted by one more write. -/
def NodeState.mark (n : NodeState) : NodeState := { n with minting := n.minting + 1 }

def releaseMint (n : NodeState) (counted : Bool) : NodeState :=
  if counted then
    if n.minting ≤ 1 then { n with minting := 0, mintRivals := [] } else { n with minting := n.minting - 1 }
  else n

inductive AfterCanvass where
  | yielded (winner : NodeId)
  | ran (result : Except WriteRefused Settlement)

def rivalsOf (n : NodeState) : PeerSchemaLookup → List NodeId
  | .contested rivals => rivals ++ n.mintRivals
  | _ => n.mintRivals

def runWrite (n : NodeState) (docs : WriteDocs) (lookup : PeerSchemaLookup) (counted : Bool) :
    AfterCanvass × NodeState :=
  match stagedSchemaValidation n docs (.canvassed lookup) with
  | .ok (n', settlement) => (.ran (.ok settlement), releaseMint n' counted)
  | .error e => (.ran (.error e), releaseMint n counted)

def mintAfterCanvass (me : NodeId) (node : NodeState) (docs : WriteDocs) (lookup : PeerSchemaLookup) (counted : Bool) :
    AfterCanvass × NodeState :=
  let n := node.load
  let settle (droppedAt : Nat) : AfterCanvass × NodeState :=
    match mintWinner me (rivalsOf n lookup) with
    | none => runWrite n docs (.noneHeld droppedAt) counted
    | some winner => (.yielded winner, releaseMint n counted)
  if counted && !n.schemaFor.isLive then
    match lookup with
    | .noneHeld droppedAt => settle droppedAt
    | .contested _ => settle 0
    | _ => runWrite n docs lookup counted
  else runWrite n docs lookup counted

/-! ### Dropping -/

/-- Deletes the index with its schema on every shard; the record of the drop replaces what the cache held. -/
def orchDeleteIndex (n : NodeState) : NodeState :=
  { n with cached := n.stored.map tombstone, stored := n.stored.map tombstone }

def orchFinishDrop (node : NodeState) (droppedAt : Nat) : Bool × NodeState :=
  let n := node.load
  if n.durable.any fun held => held.droppedBy droppedAt then (true, orchDeleteIndex n) else (false, n)

/-! ### Schema changes -/

inductive ApplyAnswer where
  | applied
  | superseded
  | arrived (documents : Nat)
  | failed

/-- What a node's shards answer while it stores a schema change: whether the tenant's quota and the stores let it, how
    many documents it counts, and how many a rebuild then finds. -/
structure ApplyWorld where
  quotaOk : Bool
  storesOk : Bool
  documents : Nat
  found : Nat

section Change
variable (env : ClusterEnv)

def checkedDeclaration (me : NodeId) (schema : IndexSchema) : Except String IndexSchema :=
  let normalized := schema.normalizeAfterDeserialization env.parsers
  match env.invalid me normalized with
  | some reason => .error reason
  | none => .ok { normalized with fields := normalized.fields.insertIfNew "id" (FieldDef.new "id" .text) }

def NodeState.storeChange (n : NodeState) (schema : IndexSchema) : NodeState := (n.persist schema).put schema

/-- Stores a schema the checks let through: a change to a built column rebuilds an index without documents. -/
def storeApplied (n : NodeState) (held : Option IndexSchema) (schema : IndexSchema) (world : ApplyWorld) :
    ApplyAnswer × NodeState :=
  let changes := (held.map fun current => env.rebuildChanges current schema).getD []
  let conflicts := changes.any Prod.snd
  if changes ≠ [] && 0 < world.documents && conflicts then (.arrived world.documents, n)
  else if changes ≠ [] && world.documents = 0 && 0 < world.found && conflicts then
    -- The shards the rebuild reached are built again from the schema held before.
    (.arrived world.found, n)
  else if world.storesOk then (.applied, n.storeChange schema)
  else (.failed, n)

/-- Phase two on this node. A schema this node holds and the cluster prefers is kept instead. -/
def orchApplySchema (me : NodeId) (node : NodeState) (schema : IndexSchema) (world : ApplyWorld) :
    ApplyAnswer × NodeState :=
  match checkedDeclaration env me schema with
  | .error _ => (.failed, node)
  | .ok declared =>
    let n := node.load
    let held := n.durable.filter fun current => !current.recordsDrop
    let schema := held.elim declared (mergeLearned declared)
    match n.durable with
    | some current =>
      if current.version = schema.version ∧ env.fingerprint current = env.fingerprint schema then (.applied, n)
      else
        let preferred := preferredSchema env.fingerprint current schema
        if env.fingerprint preferred = env.fingerprint current ∧ preferred.version =
          current.version then (.superseded, n)
        else if held.isNone && !world.quotaOk then (.failed, n)
        else storeApplied env n held schema world
    | none => if !world.quotaOk then (.failed, n) else storeApplied env n none schema world

end Change

end CameoDb
