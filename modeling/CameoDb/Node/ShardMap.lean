import CameoDb.Lib.HashRing
import CameoDb.Lib.Transition
import CameoDb.Node.Search

/-! # Shard maps

The map from shards to nodes that each coordinator holds, and its ring. A map that was sent or answered is merged
whenever it comes. -/

namespace CameoDb

open Std

structure ShardMetadata where
  shardId : ShardId
  nodeId : NodeId
  vnodeTokens : List UInt64
  storageBytes : Nat
  documentCount : Nat
deriving DecidableEq

abbrev ShardAssignments := ExtTreeMap ShardId ShardMetadata

inductive NodeStatus where
  | connected
  | disconnected
deriving DecidableEq

structure NodeInfo where
  nodeId : NodeId
  nodeName : Option String
  address : String
  status : NodeStatus
  shardCount : Nat
deriving DecidableEq

/-- The hashes: the tokens of a shard, the checksum of a map, the hash of a key. A map is walked in an order of its
    own, which may differ from node to node and from time to time. -/
structure ShardMapEnv where
  generateTokens : ShardId → List UInt64
  checksum : ShardAssignments → UInt64
  hashKey : String → UInt64
  walk : NodeId → Nat → ShardAssignments → List (ShardId × ShardMetadata)
  walk_perm : ∀ node generation map, (walk node generation map).Perm map.toList

def ShardMapEnv.shardMetadata (env : ShardMapEnv) (node : NodeId) (shard : ShardId) : ShardMetadata :=
  ⟨shard, node, env.generateTokens shard, 0, 0⟩

structure Coordinator where
  localNodeId : NodeId
  shardAssignments : ShardAssignments := ∅
  expectedShards : ShardAssignments := ∅
  expectedNodes : ExtTreeMap NodeId NodeInfo := ∅
  peerNodes : ExtTreeMap NodeId NodeInfo := ∅
  generation : Nat := 0
  ring : HashRing UInt64 ShardId := ∅

structure MergeRemoteShards where
  nodeId : NodeId
  nodeName : String
  shards : ShardAssignments
  generation : Nat
  shardChecksum : UInt64

namespace Coordinator

def rebuildRing (env : ShardMapEnv) (c : Coordinator) : Coordinator :=
  { c with ring := HashRing.build ((env.walk c.localNodeId c.generation c.shardAssignments).map fun e =>
    (e.1, e.2.vnodeTokens)) }

def routeForKey (env : ShardMapEnv) (c : Coordinator) (key : String) : Option ShardId := c.ring.owner (env.hashKey key)

def registerLocalShards (env : ShardMapEnv) (c : Coordinator) (shards : List ShardMetadata) : Coordinator :=
  let map := shards.foldl (fun map shard => map.insert shard.shardId shard) c.shardAssignments
  { c with shardAssignments := map, generation := c.generation + 1 }.rebuildRing env

def syncGenerationIfNeeded (c : Coordinator) (remote : Nat) : Coordinator :=
  if remote > c.generation then { c with generation := remote } else c

def trackNode (nodes : ExtTreeMap NodeId NodeInfo) (node : NodeId) (name : String) (owned : Nat) :
    ExtTreeMap NodeId NodeInfo :=
  nodes.alter node fun
    | some info =>
      some { info with
        nodeName := if name = "" then info.nodeName else some name, shardCount := owned, status := .connected }
    | none => some ⟨node, if name = "" then none else some name, "", .connected, owned⟩

def routingChanged (known : Option ShardMetadata) (actual : ShardMetadata) : Bool :=
  match known with
  | none => true
  | some known => known.nodeId ≠ actual.nodeId || known.vnodeTokens ≠ actual.vnodeTokens

/-- The sender's shards that the sender's map does not have. -/
def dropped (msg : MergeRemoteShards) (shard : ShardId) (known : ShardMetadata) : Bool :=
  known.nodeId = msg.nodeId && !msg.shards.contains shard

def trackSender (c : Coordinator) (msg : MergeRemoteShards) : Coordinator :=
  -- A map has the shards of other nodes too.
  let owned := (msg.shards.toList.filter fun e => e.2.nodeId = msg.nodeId).length
  if msg.nodeId = c.localNodeId then c
  else { c with
    peerNodes := trackNode c.peerNodes msg.nodeId msg.nodeName owned
    expectedNodes := trackNode c.expectedNodes msg.nodeId msg.nodeName owned }

/-- The sender's shards are those of its map, and the shards of its map are as it has them. Only a change to where
    shards live moves the generation and the ring. -/
def takeShards (env : ShardMapEnv) (c : Coordinator) (msg : MergeRemoteShards) : Coordinator :=
  let removed := c.shardAssignments.filter fun shard known => dropped msg shard known
  let retained := c.shardAssignments.filter fun shard known => !dropped msg shard known
  let merged := msg.shards.filter fun shard actual => routingChanged retained[shard]? actual
  let c := { c with shardAssignments := retained ∪ msg.shards, expectedShards := c.expectedShards \ msg.shards }
  if !merged.isEmpty || !removed.isEmpty then { c with generation := c.generation + 1 }.rebuildRing env else c

def mergeRemoteShards (env : ShardMapEnv) (c : Coordinator) (msg : MergeRemoteShards) : Coordinator :=
  if env.checksum c.shardAssignments = msg.shardChecksum then c.syncGenerationIfNeeded msg.generation
  else (c.trackSender msg).takeShards env msg

end Coordinator

/-! ### The cluster -/

/-- A map on its way: the answer to a pull, or a push. `taken` is how many registrations there had been. -/
structure MapMessage where
  target : NodeId
  isPull : Bool
  taken : Nat
  msg : MergeRemoteShards

/-- The coordinators and the maps on their way. `registered` has every registration so far, and `pulls` the pulls
    that were merged: by whom, from whom, and how many registrations there had been when they were answered. -/
structure ShardCluster where
  nodes : NodeId → Coordinator
  inFlight : List MapMessage := []
  registered : List (NodeId × ShardId) := []
  pulls : List (NodeId × NodeId × Nat) := []

inductive MapStep where
  | register (node : NodeId) (shards : List ShardId)
  /-- A node answers another with its map. -/
  | answer (puller peer : NodeId)
  | push (sender target : NodeId) (name : String)
  | merge (i : Nat)
  | lose (i : Nat)
deriving DecidableEq

namespace ShardCluster

def initial : ShardCluster where
  nodes node := { localNodeId := node }

def map (s : ShardCluster) (node : NodeId) : ShardAssignments := (s.nodes node).shardAssignments

def step (env : ShardMapEnv) (s : ShardCluster) : MapStep → Option ShardCluster
  | .register node shards =>
    -- A shard is one node's: its id is new.
    if s.registered.any fun r => r.2 ∈ shards && r.1 ≠ node then none
    else
      some { s with
        nodes := Function.update s.nodes node
          ((s.nodes node).registerLocalShards env (shards.map (env.shardMetadata node)))
        registered := s.registered ++ shards.map fun shard => (node, shard) }
  | .answer puller peer =>
    -- A pull has no generation and no checksum to report.
    if puller = peer then none
    else some { s with inFlight := s.inFlight ++ [⟨puller, true, s.registered.length, ⟨peer, "", s.map peer, 0, 0⟩⟩] }
  | .push sender target name =>
    if sender = target then none
    else
      let c := s.nodes sender
      some { s with inFlight := s.inFlight ++
        [⟨target, false, s.registered.length,
          ⟨sender, name, c.shardAssignments, c.generation, env.checksum c.shardAssignments⟩⟩] }
  | .merge i =>
    match s.inFlight[i]? with
    | none => none
    | some m =>
      some { s with
        nodes := Function.update s.nodes m.target ((s.nodes m.target).mergeRemoteShards env m.msg)
        inFlight := s.inFlight.eraseIdx i
        pulls := if m.isPull then (m.target, m.msg.nodeId, m.taken) :: s.pulls else s.pulls }
  | .lose i => if i < s.inFlight.length then some { s with inFlight := s.inFlight.eraseIdx i } else none

end ShardCluster

end CameoDb
