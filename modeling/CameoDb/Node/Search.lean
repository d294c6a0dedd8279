import CameoDb.Node.Orchestrator
import Mathlib.Algebra.GroupWithZero.Nat
import Mathlib.Data.List.Sort

/-! # Searching a cluster

A node asks its shards for keys and then for the page's documents; the node that took the search merges what it and
its peers answer. -/

namespace CameoDb

/-- Why a search, or one shard's part of it, was not answered. -/
inductive SearchError where
  | indexNotFound
  | unsortableField
  | unrunnableQuery (notes : List String)
  | searchDeadlineExceeded
  | readDeadlineExpired
  | overloaded
  | noShardAnswered (callerError : Bool)
  | peerUnreachable
  | invalidInput
  | io
deriving DecidableEq

def holdsNoSuchIndex (e : SearchError) : Bool := e = .indexNotFound

/-- Refused before it started, because the node was behind. -/
def shedAgain : SearchError → Bool
  | .readDeadlineExpired | .overloaded => true
  | _ => false

def isCallerError : SearchError → Bool
  | .unsortableField | .unrunnableQuery _ | .searchDeadlineExceeded | .noShardAnswered _ | .invalidInput => true
  | _ => false

abbrev ShardId := Nat

/-! ### The page -/

structure SearchWindow where
  offset : Nat
  limit : Nat

namespace SearchWindow

/-- Every source is asked from the front: the skip happens once, after the merge. -/
def fetchCount (w : SearchWindow) : Nat := w.offset + w.limit

def widened (w : SearchWindow) : SearchWindow := ⟨0, w.fetchCount⟩

def apply {α : Type} (w : SearchWindow) (ordered : List α) : List α := (ordered.drop w.offset).take w.limit

end SearchWindow

/-- A hit with what it is ordered by (its score, or the value of the sort field), and what came with that key: the
    id of a document, or the document. -/
structure Hit (K D : Type) where
  key : K
  body : D
deriving DecidableEq, Repr

section Order
variable {K D : Type} (cmp : K → K → Ordering)

def rankedLe (a b : (Nat × Nat) × Hit K D) : Bool :=
  (((cmp a.2.key b.2.key).then (compare a.1.1 b.1.1)).then (compare a.1.2 b.1.2)).isLE

def orderRanked (ranked : List ((Nat × Nat) × Hit K D)) : List ((Nat × Nat) × Hit K D) :=
  ranked.insertionSort fun a b => rankedLe cmp a b

def rankBlock (source : Nat) (hits : List (Hit K D)) : List ((Nat × Nat) × Hit K D) :=
  hits.zipIdx.map fun h => ((source, h.2), h.1)

def orderHitBlocks (blocks : List (List (Hit K D))) (window : SearchWindow) : List (Hit K D) :=
  (window.apply (orderRanked cmp (blocks.zipIdx.flatMap fun b => rankBlock b.2 b.1))).map Prod.snd

end Order

/-! ### One node -/

structure SearchNotes where
  discarded : List String
  approximateSort : Option String
  narrowedDefaultFields : Option String
deriving DecidableEq

def SearchNotes.empty : SearchNotes := ⟨[], none, none⟩

def addNotes (into notes : SearchNotes) : SearchNotes where
  discarded := notes.discarded.foldl (fun seen note => if note ∈ seen then seen else seen ++ [note]) into.discarded
  approximateSort := into.approximateSort.or notes.approximateSort
  narrowedDefaultFields := into.narrowedDefaultFields.or notes.narrowedDefaultFields

/-- One shard's answer of the first phase. -/
structure ShardKeys (K : Type) where
  hits : List (Hit K String)
  totalHits : Nat
  emptied : Bool
  notes : SearchNotes

structure SearchShard (K D : Type) where
  id : ShardId
  keys : Nat → Except SearchError (ShardKeys K)
  fetch : List String → Except SearchError (List (String × D))

structure SearchNode (K D : Type) where
  id : NodeId
  holds : Bool
  schema : Nat × UInt64
  unsortable : Bool
  shards : List (SearchShard K D)

structure ShardStats where
  total : Nat
  responded : Nat
  failed : Nat
deriving DecidableEq

structure SearchAnswer (K D : Type) where
  hits : List (Hit K D)
  hitsReturned : Nat
  totalHits : Nat
  limit : Nat
  offset : Nat
  shards : ShardStats
  /-- How many nodes answered a merge. -/
  nodes : Option Nat
  /-- Which part could not be read, and why; on the wire the key is left out where there is none. -/
  errors : List (Nat × SearchError)
  /-- The schemas that were searched. -/
  searched : List (Nat × UInt64)
  notes : SearchNotes

section Gather
variable {K D : Type} (cmp : K → K → Ordering)

/-- The answers of a phase that came, and the failures. -/
def answered {α : Type} (results : List (ShardId × Except SearchError α)) : List (ShardId × α) :=
  results.filterMap fun r => match r.2 with
    | .ok answer => some (r.1, answer)
    | .error _ => none

def failures {α : Type} (results : List (ShardId × Except SearchError α)) : List (ShardId × SearchError) :=
  results.filterMap fun r => match r.2 with
    | .ok _ => none
    | .error e => some (r.1, e)

def deadlineExceeded (failed : List (ShardId × SearchError)) : Bool :=
  failed.any fun f => f.2 = .searchDeadlineExceeded

/-- The refusal when not one shard could run the query. -/
def noShardAnswered (success : Nat) (failed : List (ShardId × SearchError)) : Option SearchError :=
  if 0 < success || failed.isEmpty then none
  else if failed.all fun f => shedAgain f.2 then failed.head?.map Prod.snd
  else some (.noShardAnswered ((failed.filter fun f => !shedAgain f.2).all fun f => isCallerError f.2))

def groupWindowByShard (page : List ((Nat × Nat) × Hit K String)) : List (ShardId × List String) :=
  (page.map fun h => h.1.1).reverse.dedup.reverse.map fun shard =>
    (shard, (page.filter fun h => h.1.1 = shard).map fun h => h.2.body)

/-- The documents that came, by shard and id. -/
def documents (fetched : List (ShardId × List (String × D))) : ShardId × String → Option D :=
  (fetched.flatMap fun answer => answer.2.map fun doc => ((answer.1, doc.1), doc.2)).foldl
    (fun docs doc => Function.update docs doc.1 (some doc.2)) fun _ => none

/-- A hit takes its document; one whose document is gone is left out. -/
def assemble (docs : ShardId × String → Option D) : List ((Nat × Nat) × Hit K String) → List (Hit K D)
  | [] => []
  | hit :: page =>
    match docs (hit.1.1, hit.2.body) with
    | some doc => ⟨hit.2.key, doc⟩ :: assemble (Function.update docs (hit.1.1, hit.2.body) none) page
    | none => assemble docs page

namespace SearchNode
variable (node : SearchNode K D) (window : SearchWindow)

def keyResults : List (ShardId × Except SearchError (ShardKeys K)) :=
  node.shards.map fun s => (s.id, s.keys window.fetchCount)

def keyPage : List ((Nat × Nat) × Hit K String) :=
  window.apply (orderRanked cmp ((answered (node.keyResults window)).flatMap fun k => rankBlock k.1 k.2.hits))

/-- The documents of the page, from the shards that own them. -/
def fetchResults : List (ShardId × Except SearchError (List (String × D))) :=
  (groupWindowByShard (node.keyPage cmp window)).flatMap fun group =>
    (node.shards.filter fun s => s.id = group.1).map fun s => (s.id, s.fetch group.2)

def gather : Except SearchError (SearchAnswer K D) :=
  if !node.holds then .error .indexNotFound
  else if node.unsortable then .error .unsortableField
  else
    let keys := answered (node.keyResults window)
    let failed := failures (node.keyResults window)
    if deadlineExceeded failed then .error .searchDeadlineExceeded
    else match noShardAnswered keys.length failed with
      | some refusal => .error refusal
      | none =>
        let notes := (keys.map fun k => k.2.notes).foldl addNotes .empty
        if keys.any fun k => k.2.emptied then .error (.unrunnableQuery notes.discarded)
        else
          let fetched := node.fetchResults cmp window
          let failed := failed ++ failures fetched
          if deadlineExceeded failed then .error .searchDeadlineExceeded
          else
            let hits := assemble (documents (answered fetched)) (node.keyPage cmp window)
            .ok {
              hits := hits
              hitsReturned := hits.length
              totalHits := (keys.map fun k => k.2.totalHits).sum
              limit := window.limit
              offset := window.offset
              shards := ⟨node.shards.length, keys.length, failed.length⟩
              nodes := none
              errors := failed
              searched := [node.schema]
              notes := notes }

end SearchNode

end Gather

/-! ### The fan-out -/

inductive PeerFate where
  | answers
  | fails (error : SearchError)
  | timesOut
deriving DecidableEq

structure SearchPeer (K D : Type) where
  node : SearchNode K D
  connected : Bool
  fate : PeerFate

/-- A search as the node that took it finds the cluster. `refusal` is what this node's own worker pool says instead
    of running the search; `coordinator` is whether it could be asked for the peers. -/
structure SearchCluster (K D : Type) where
  here : SearchNode K D
  refusal : Option SearchError
  coordinator : Bool
  peers : List (SearchPeer K D)
  fanoutLimit : Nat

inductive PeerReply (K D : Type) where
  | replied (result : Except SearchError (SearchAnswer K D))
  | elapsed

namespace SearchCluster
variable {K D : Type} (cmp : K → K → Ordering)

def asked (c : SearchCluster K D) : List (SearchPeer K D) := (if c.coordinator then c.peers else []).take c.fanoutLimit

def localResult (c : SearchCluster K D) (window : SearchWindow) : Except SearchError (SearchAnswer K D) :=
  match c.refusal with
  | some refusal => .error refusal
  | none => c.here.gather cmp window

/-- A lost peer is counted as one that did not answer. -/
def peerReply (peer : SearchPeer K D) (window : SearchWindow) : PeerReply K D :=
  if !peer.connected then .replied (.error .peerUnreachable)
  else match peer.fate with
    | .answers => .replied (peer.node.gather cmp window)
    | .fails e => .replied (.error e)
    | .timesOut => .elapsed

def remote (c : SearchCluster K D) (window : SearchWindow) : List (NodeId × PeerReply K D) :=
  c.asked.map fun peer => (peer.node.id, peerReply cmp peer window)

end SearchCluster

/-! ### The merges -/

namespace PeerReply
variable {K D : Type}

def answer? : PeerReply K D → Option (SearchAnswer K D)
  | replied (.ok answer) => some answer
  | _ => none

def isAbsent : PeerReply K D → Bool
  | replied (.error e) => holdsNoSuchIndex e
  | _ => false

def error? : PeerReply K D → Option SearchError
  | replied (.ok _) => none
  | replied (.error e) => if holdsNoSuchIndex e then none else some e
  | elapsed => some .io

end PeerReply

namespace SearchCluster
variable {K D : Type} (cmp : K → K → Ordering)

/-- Every schema once, in order. -/
def searchedSchemas (answers : List (SearchAnswer K D)) : List (Nat × UInt64) :=
  (answers.flatMap fun a => a.searched).dedup.insertionSort fun a b => a.1 < b.1 ∨ a.1 = b.1 ∧ a.2 ≤ b.2

/-- The merge without streaming: this node is rank 0, then each peer in the order it was asked. -/
def handleBroadcast (c : SearchCluster K D) (window : SearchWindow) : Except SearchError (SearchAnswer K D) :=
  let replies := .replied (c.localResult cmp window.widened) :: (c.remote cmp window.widened).map Prod.snd
  if replies.all PeerReply.isAbsent then .error .indexNotFound
  else
    let answers := replies.filterMap PeerReply.answer?
    let errorCount := (replies.filterMap PeerReply.error?).length
    let hits := orderHitBlocks cmp (answers.map fun a => a.hits) window
    let queried := (answers.map fun a => a.shards.responded).sum
    .ok {
      hits := hits
      hitsReturned := hits.length
      totalHits := (answers.map fun a => a.totalHits).sum
      limit := window.limit
      offset := window.offset
      shards := ⟨queried, queried - errorCount, errorCount⟩
      nodes := some answers.length
      errors := []
      searched := searchedSchemas answers
      notes := (answers.map fun a => a.notes).foldl addNotes .empty }

/-- The merge with streaming. The peers come in the order of their ids; a local failure leaves an empty block, and
    no note. -/
def handleBroadcastStreaming (c : SearchCluster K D) (window : SearchWindow) : Except SearchError (SearchAnswer K D) :=
  let here : PeerReply K D := .replied (c.localResult cmp window.widened)
  let remote := c.remote cmp window.widened
  if here.isAbsent && remote.all fun r => r.2.isAbsent then .error .indexNotFound
  else
    let answers := remote.filterMap fun r => r.2.answer?.map fun answer => (r.1, answer)
    let errors := remote.filterMap fun r => r.2.error?.map fun e => (r.1, e)
    let blocks := (answers.map fun a => (a.1, a.2.hits)).insertionSort fun a b => a.1 ≤ b.1
    let hits := orderHitBlocks cmp (here.answer?.elim [] (fun a => a.hits) :: blocks.map Prod.snd) window
    let queried := 1 + (answers.map fun a => a.2.shards.responded).sum
    .ok {
      hits := hits
      hitsReturned := hits.length
      totalHits := here.answer?.elim 0 (fun a => a.totalHits) + (answers.map fun a => a.2.totalHits).sum
      limit := window.limit
      offset := window.offset
      shards := ⟨queried, queried - errors.length, errors.length⟩
      nodes := some (1 + remote.length)
      errors := errors
      searched := searchedSchemas (here.answer?.toList ++ answers.map Prod.snd)
      notes := .empty }

def search (streaming : Bool) (c : SearchCluster K D) (window : SearchWindow) : Except SearchError (SearchAnswer K D) :=
  if streaming then c.handleBroadcastStreaming cmp window else c.handleBroadcast cmp window

end SearchCluster

end CameoDb
