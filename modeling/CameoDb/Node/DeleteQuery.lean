import CameoDb.Lib.Text
import CameoDb.Node.Search

/-! # Delete by query

Every shard counts its matches, the limit is decided on the sum, then every shard deletes. What can be reached may
change in between. -/

namespace CameoDb

def isRefusal : SearchError → Bool
  | .unsortableField | .unrunnableQuery _ | .searchDeadlineExceeded | .noShardAnswered true | .invalidInput => true
  | _ => false

inductive DeleteMode where
  | count
  | delete
deriving DecidableEq

structure DeleteTally where
  matched : Nat
  deleted : Nat
  skippedInexact : Nat
  shards : Nat
  shardsFailed : Nat
  nodesContacted : Nat
  nodesFailed : List NodeId
  errors : List SearchError
deriving DecidableEq

def DeleteTally.empty : DeleteTally := ⟨0, 0, 0, 0, 0, 0, [], []⟩

/-- Adds a part; the nodes are the sum's own. -/
def DeleteTally.add (tally other : DeleteTally) : DeleteTally where
  matched := tally.matched + other.matched
  deleted := tally.deleted + other.deleted
  skippedInexact := tally.skippedInexact + other.skippedInexact
  shards := tally.shards + other.shards
  shardsFailed := tally.shardsFailed + other.shardsFailed
  nodesContacted := tally.nodesContacted
  nodesFailed := tally.nodesFailed
  errors := tally.errors ++ other.errors

/-! ### A shard -/

def deleteChunk : Nat := 10000

def chunks {α : Type} (size : Nat) (xs : List α) : List (List α) :=
  (List.range ((xs.length + size - 1) / size)).map fun i => (xs.drop (i * size)).take size

/-- What becomes of one transaction of a delete: it is applied and answered, it is applied and the answer is lost,
    or nothing happens. -/
inductive ChunkFate where
  | applied
  | unanswered (error : SearchError)
  | failed (error : SearchError)
deriving DecidableEq

/-- A shard in one phase: why it finds nothing out, if so; its transactions, in order (the rest succeed); its last
    commit. -/
structure ShardFate where
  find : Option SearchError
  chunks : List ChunkFate
  commit : Option SearchError
deriving DecidableEq

def ShardFate.sound : ShardFate := ⟨none, [], none⟩

structure DeleteShard where
  matching : List String
  skippedInexact : Nat
deriving DecidableEq

/-- The chunks of a delete, until one is not answered; how many documents were reported deleted, and what was
    removed. -/
def deleteChunks : List (List String) → List ChunkFate → Except SearchError Nat × List String
  | [], _ => (.ok 0, [])
  | chunk :: rest, fates =>
    match fates.headD .applied with
    | .applied =>
      let done := deleteChunks rest fates.tail
      (done.1.map fun count => chunk.length + count, chunk ++ done.2)
    | .unanswered e => (.error e, chunk)
    | .failed e => (.error e, [])

def handleDeleteByQuery (shard : DeleteShard) (mode : DeleteMode) (refresh : Bool) (fate : ShardFate) :
    Except SearchError DeleteTally × List String :=
  match fate.find with
  | some e => (.error e, [])
  | none =>
    let found := { DeleteTally.empty with matched := shard.matching.length, skippedInexact := shard.skippedInexact }
    if mode = .delete ∧ shard.matching ≠ [] then
      let done := deleteChunks (chunks deleteChunk shard.matching) fate.chunks
      match done.1 with
      | .error e => (.error e, done.2)
      | .ok count =>
        match refresh, fate.commit with
        | true, some e => (.error e, done.2)
        | _, _ => (.ok { found with deleted := count }, done.2)
    else (.ok found, [])

/-! ### A node -/

structure NodeFate where
  holds : Bool
  shards : Nat → ShardFate

/-- The sum over the shards. Every shard runs, also where one refuses the query. -/
def tallyShards (tally : DeleteTally) : List (Except SearchError DeleteTally) → Except SearchError DeleteTally
  | [] => .ok tally
  | .ok part :: rest => tallyShards (tally.add part) rest
  | .error e :: rest =>
    if isRefusal e then .error e
    else tallyShards { tally with shardsFailed := tally.shardsFailed + 1, errors := tally.errors ++ [e] } rest

def deleteByQueryOnShards (shards : List DeleteShard) (mode : DeleteMode) (refresh : Bool) (fate : NodeFate) :
    Except SearchError DeleteTally × List (List String) :=
  if !fate.holds then (.error .indexNotFound, shards.map fun _ => [])
  else
    let outcomes := shards.zipIdx.map fun s => handleDeleteByQuery s.1 mode refresh (fate.shards s.2)
    (tallyShards { DeleteTally.empty with shards := shards.length } (outcomes.map Prod.fst), outcomes.map Prod.snd)

/-! ### The cluster -/

/-- What becomes of the question to a node: it is not asked (its coordinator does not know it, or it is past the
    fan-out limit), it does not hear of it, or it runs it, and then its answer comes, or not, or not in time, or
    cannot be read. -/
inductive AskFate where
  | unasked
  | unheard (error : SearchError)
  | answers
  | lost (error : SearchError)
  | elapsed
  | unreadable
deriving DecidableEq

structure PhaseFate where
  ask : AskFate
  node : NodeFate

structure DeleteNode where
  id : NodeId
  shards : List DeleteShard

inductive NodeAnswer where
  | answered (result : Except SearchError DeleteTally)
  | elapsed
  | unreadable

def askNode (node : DeleteNode) (mode : DeleteMode) (refresh : Bool) (fate : PhaseFate) :
    Option NodeAnswer × List (List String) :=
  let nothing := node.shards.map fun _ => []
  let done := deleteByQueryOnShards node.shards mode refresh fate.node
  match fate.ask with
  | .unasked => (none, nothing)
  | .unheard e => (some (.answered (.error e)), nothing)
  | .answers => (some (.answered done.1), done.2)
  | .lost e => (some (.answered (.error e)), done.2)
  | .elapsed => (some .elapsed, done.2)
  | .unreadable => (some .unreadable, done.2)

def tallyNodes (tally : DeleteTally) (absent : Nat) :
    List (NodeId × NodeAnswer) → Except SearchError (DeleteTally × Nat)
  | [] => .ok (tally, absent)
  | (node, answer) :: rest =>
    let tally := { tally with nodesContacted := tally.nodesContacted + 1 }
    let failed (e : SearchError) :=
      { tally with nodesFailed := tally.nodesFailed ++ [node], errors := tally.errors ++ [e] }
    match answer with
    | .elapsed => tallyNodes (failed .io) absent rest
    | .unreadable => tallyNodes (failed .io) absent rest
    | .answered (.ok part) => tallyNodes (tally.add part) absent rest
    | .answered (.error e) =>
      if isRefusal e then .error e
      else if holdsNoSuchIndex e then tallyNodes tally (absent + 1) rest
      else tallyNodes (failed e) absent rest

/-- One phase on this node, which comes first, and every peer: the answer, and what was removed on each shard of
    each node. -/
def routerDeleteByQuery (nodes : List DeleteNode) (mode : DeleteMode) (refresh : Bool) (fates : NodeId → PhaseFate) :
    Except SearchError DeleteTally × List (List (List String)) :=
  let asked := nodes.map fun node => (node.id, askNode node mode refresh (fates node.id))
  let answers := asked.filterMap fun a => a.2.1.map fun answer => (a.1, answer)
  let result := match tallyNodes .empty 0 answers with
    | .error e => .error e
    | .ok (tally, absent) => if absent = answers.length then .error .indexNotFound else .ok tally
  (result, asked.map fun a => a.2.2)

/-! ### The request -/

structure DeleteByQueryPayload where
  query : String
  maxDocs : Option Nat
  confirm : Bool
  dryRun : Bool
  refresh : Bool

inductive DeleteResponse where
  | badRequest
  | error (e : SearchError)
  | rateLimited
  | limitExceeded (counted : DeleteTally)
  | done (tally : DeleteTally)

/-- What a request meets: the nodes, what becomes of them in each phase, the configured limit, and whether the
    caller's write allowance covers the count. -/
structure DeleteWorld where
  nodes : List DeleteNode
  counting : NodeId → PhaseFate
  deleting : NodeId → PhaseFate
  deleteMaxDocs : Nat
  allowance : Nat → Bool

/-- The answer, and what was removed on each shard of each node in the two phases. -/
def deleteByQueryHandler (world : DeleteWorld) (payload : DeleteByQueryPayload) :
    DeleteResponse × List (List (List String)) :=
  if payload.query.toList.all isWhiteSpace then (.badRequest, [])
  else
    let maxDocs := payload.maxDocs.getD world.deleteMaxDocs
    let counting := routerDeleteByQuery world.nodes .count false world.counting
    match counting.1 with
    | .error e => (.error e, counting.2)
    | .ok counted =>
      if payload.dryRun || counted.matched = 0 then (.done counted, counting.2)
      else if maxDocs < counted.matched && !payload.confirm then (.limitExceeded counted, counting.2)
      else if !world.allowance counted.matched then (.rateLimited, counting.2)
      else
        let deleting := routerDeleteByQuery world.nodes .delete payload.refresh world.deleting
        (match deleting.1 with
          | .error e => .error e
          | .ok tally => .done tally, counting.2 ++ deleting.2)

end CameoDb
