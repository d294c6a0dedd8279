import CameoDb.Node.Orchestrator
import CameoDb.Lib.Transition

/-! # First writes to an index across a cluster

A node without a schema asks every peer and then decides in its mailbox. An event is one message handled by one
node, in any order. -/

namespace CameoDb

inductive FinishTold where
  | told (droppedAt : Nat)
  | untold
  deriving DecidableEq

/-- A first write whose canvass is in flight: who asks, whether it still holds a mark as minting, the drop its own node
    had recorded when it began, its documents, what was heard so far, and the drops that peers had recorded whose
    answer did not tell of them. -/
structure Canvass where
  node : NodeId
  counted : Bool
  droppedHere : Nat
  docs : WriteDocs
  answers : List (NodeId × PeerAnswer)
  finished : List (NodeId × FinishTold)
  withheld : List Nat

namespace Canvass

def mintingBy (c : Canvass) : Option NodeId := if c.counted then some c.node else none

def inOrder (c : Canvass) (members : List NodeId) : List (NodeId × PeerAnswer) :=
  members.filterMap fun peer => (c.answers.find? fun a => a.1 = peer)

def hasAnswered (c : Canvass) (peer : NodeId) : Bool := c.answers.any fun a => a.1 = peer

def allAnswered (c : Canvass) (members : List NodeId) : Bool :=
  members.all fun peer => peer = c.node || c.hasAnswered peer

def counts (env : ClusterEnv) (c : Canvass) (members : List NodeId) : DropsCounted NodeId :=
  countCanvass env c.droppedHere (c.inOrder members)

def untold (env : ClusterEnv) (c : Canvass) (members : List NodeId) : List NodeId :=
  (c.counts env members).missed.filter fun peer => !c.finished.any fun f => f.1 = peer

def lookup (env : ClusterEnv) (c : Canvass) (members : List NodeId) : PeerSchemaLookup :=
  peerSchemaFor env c.droppedHere (c.inOrder members) (c.finished.any fun f => f.2 = .untold)

/-- Everything asked has been answered and every missed drop was told of. -/
def complete (env : ClusterEnv) (c : Canvass) (members : List NodeId) : Bool :=
  c.allAnswered members && (c.untold env members).isEmpty

end Canvass

/-- How a node came by a schema it made live. -/
inductive Origin where
  | minted
  | adopted
  | applied
  deriving DecidableEq

/-- A schema a node made live, with the drop record the node held until then and the drop records of the peers that
    answered the canvass it acted on. -/
structure Install where
  node : NodeId
  schema : IndexSchema
  origin : Origin
  ownDrop : Option Nat
  peerDrops : List Nat

/-- A cluster, for one index. `installs` is the history of schemas made live. -/
structure Cluster where
  members : List NodeId
  nodes : NodeId → NodeState
  canvasses : List Canvass
  installs : List Install

inductive Delivery where
  | delivered
  | answerLost
  | lost
  deriving DecidableEq

/-- One message handled by one node. A canvass is named by its place among those in flight. -/
inductive MintEvent where
  /-- The first write to reach a node's mailbox: it starts a canvass, if the node holds no live schema. -/
  | write (node : NodeId) (docs : WriteDocs)
  /-- A peer is asked for its schema. -/
  | ask (canvass : Nat) (peer : NodeId) (delivery : Delivery)
  /-- A peer that missed a drop is told to finish it. -/
  | finish (canvass : Nat) (peer : NodeId) (delivery : Delivery)
  /-- `MintAfterCanvass` is handled. -/
  | settle (canvass : Nat)
  /-- A write that yielded asks again. -/
  | retry (canvass : Nat)
  /-- A write that yielded is refused. -/
  | giveUp (canvass : Nat)
  /-- A share of a bulk write, or a write, that another node forwarded, with the schema it carries. -/
  | forwarded (node : NodeId) (docs : WriteDocs) (body : Option IndexSchema)
  /-- Phase two of a schema change reaches a node. -/
  | apply (node : NodeId) (schema : IndexSchema) (world : ApplyWorld)
  /-- The index is deleted with its schema on a node. -/
  | delete (node : NodeId)

namespace Cluster

def setNode (c : Cluster) (node : NodeId) (n : NodeState) : Cluster :=
  { c with nodes := Function.update c.nodes node n }

def addCanvass (c : Cluster) (canvass : Canvass) : Cluster := { c with canvasses := c.canvasses ++ [canvass] }

def setCanvass (c : Cluster) (k : Nat) (canvass : Canvass) : Cluster :=
  { c with canvasses := c.canvasses.set k canvass }

def dropCanvass (c : Cluster) (k : Nat) : Cluster := { c with canvasses := c.canvasses.eraseIdx k }

def record (c : Cluster) (install : Option Install) : Cluster := { c with installs := install.toList ++ c.installs }

end Cluster

def Canvass.toldDrops (c : Canvass) : List Nat :=
  c.finished.filterMap fun f =>
    match f.2 with
    | .told droppedAt => some droppedAt
    | .untold => none

/-- What the peers that answered had recorded: they told of it, or recorded it as they were told to finish the drop,
    or said that they are minting the index instead. -/
def Canvass.peerDrops (c : Canvass) (members : List NodeId) : List Nat :=
  heardDrops (c.inOrder members) ++ c.toldDrops ++ c.withheld

def RawAnswer.withheld (record : Option Nat) : RawAnswer → List Nat
  | beingMinted => record.toList
  | _ => []

def Settlement.install (node : NodeId) (ownDrop : Option Nat) (peerDrops : List Nat) : Settlement → Option Install
  | untouched => none
  | evolved => none
  | adopted schema => some ⟨node, schema, .adopted, ownDrop, peerDrops⟩
  | minted schema => some ⟨node, schema, .minted, ownDrop, peerDrops⟩

section Step
variable (env : ClusterEnv)

def Cluster.askPeer (c : Cluster) (k : Nat) (canvass : Canvass) (peer : NodeId) (delivery : Delivery) : Cluster :=
  let raw := rawSchemaForPeer (c.nodes peer) canvass.mintingBy
  match delivery with
  | .delivered =>
    (c.setNode peer raw.2).setCanvass k
      { canvass with
        answers := canvass.answers ++ [(peer, raw.1.heard)]
        withheld := canvass.withheld ++ raw.1.withheld (c.nodes peer).dropRecord }
  | .answerLost => (c.setNode peer raw.2).setCanvass k { canvass with answers := canvass.answers ++ [(peer, .failed)] }
  | .lost => c.setCanvass k { canvass with answers := canvass.answers ++ [(peer, .failed)] }

def Cluster.finishPeer (c : Cluster) (k : Nat) (canvass : Canvass) (peer : NodeId) (delivery : Delivery) : Cluster :=
  let done := (orchFinishDrop (c.nodes peer) (canvass.counts env c.members).droppedAt).2
  match delivery with
  | .delivered =>
    (c.setNode peer done).setCanvass k { canvass with finished := canvass.finished ++ [(peer, .told done.droppedHere)] }
  | .answerLost => (c.setNode peer done).setCanvass k { canvass with finished := canvass.finished ++ [(peer, .untold)] }
  | .lost => c.setCanvass k { canvass with finished := canvass.finished ++ [(peer, .untold)] }

def Cluster.settleCanvass (c : Cluster) (k : Nat) (canvass : Canvass) : Cluster :=
  let node := c.nodes canvass.node
  let done := mintAfterCanvass canvass.node node canvass.docs (canvass.lookup env c.members) canvass.counted
  match done.1 with
  | .yielded _ =>
    (c.setNode canvass.node done.2).setCanvass k
      { canvass with counted := false, droppedHere := 0, answers := [], finished := [], withheld := [] }
  | .ran result =>
    let install := match result with
      | .ok settlement => settlement.install canvass.node node.dropRecord (canvass.peerDrops c.members)
      | .error _ => none
    ((c.setNode canvass.node done.2).dropCanvass k).record install

def Cluster.forwardedWrite (c : Cluster) (node : NodeId) (docs : WriteDocs) (body : Option IndexSchema) : Cluster :=
  match stagedSchemaValidation (c.nodes node) docs (.carried body) with
  | .ok (n, settlement) => (c.setNode node n).record (settlement.install node (c.nodes node).dropRecord [])
  | .error _ => c.setNode node (c.nodes node).load

def Cluster.applyChange (c : Cluster) (node : NodeId) (schema : IndexSchema) (world : ApplyWorld) : Cluster :=
  let done := orchApplySchema env node (c.nodes node) schema world
  let made := if done.2.stored = (c.nodes node).stored then none else done.2.stored
  (c.setNode node done.2).record (made.map fun schema => ⟨node, schema, .applied, (c.nodes node).dropRecord, []⟩)

def mintStep (c : Cluster) : MintEvent → Option Cluster
  | .write node docs =>
    let n := (c.nodes node).load
    if node ∈ c.members ∧ n.schemaFor.isLive = false then
      some ((c.setNode node n.mark).addCanvass ⟨node, true, n.droppedHere, docs, [], [], []⟩)
    else none
  | .ask k peer delivery =>
    (c.canvasses[k]?).bind fun canvass =>
      if peer ∈ c.members ∧ peer ≠ canvass.node ∧ canvass.hasAnswered peer = false then
        some (c.askPeer k canvass peer delivery)
      else none
  | .finish k peer delivery =>
    (c.canvasses[k]?).bind fun canvass =>
      if canvass.allAnswered c.members ∧ peer ∈ canvass.untold env c.members then
        some (c.finishPeer env k canvass peer delivery)
      else none
  | .settle k =>
    (c.canvasses[k]?).bind fun canvass =>
      if canvass.complete env c.members then
        match canvass.counted, canvass.lookup env c.members with
        | false, .found _ => some (c.settleCanvass env k canvass)
        | false, _ => none
        | true, _ => some (c.settleCanvass env k canvass)
      else none
  | .retry k =>
    (c.canvasses[k]?).bind fun canvass =>
      if canvass.counted = false then
        some (c.setCanvass k { canvass with answers := [], finished := [], withheld := [] }) else none
  | .giveUp k =>
    (c.canvasses[k]?).bind fun canvass => if canvass.counted = false then some (c.dropCanvass k) else none
  | .forwarded node docs body => if node ∈ c.members then some (c.forwardedWrite node docs body) else none
  | .apply node schema world => if node ∈ c.members then some (c.applyChange env node schema world) else none
  | .delete node => if node ∈ c.members then some (c.setNode node (orchDeleteIndex (c.nodes node))) else none

end Step

end CameoDb
