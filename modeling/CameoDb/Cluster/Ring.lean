import CameoDb.Lib.HashRing
import Mathlib.Data.Finset.Basic

/-! # The ring of nodes

Every node has 256 tokens on the ring, hashed from its id; a key belongs to the node of the first token from the
key's hash on. -/

namespace CameoDb

/-- The 16 bytes of an id. -/
abbrev Uuid := BitVec 128

def vnodeCount : Nat := 256

/-- XXH3: of an id with an index after it, and of the bytes of a key. -/
structure RingEnv where
  digest : Uuid → UInt32 → UInt64
  hashKey : String → UInt64

namespace RingEnv

def generateTokens (env : RingEnv) (uuid : Uuid) : List UInt64 :=
  (List.range vnodeCount).map fun index => env.digest uuid index.toUInt32

end RingEnv

structure NodeIdentity where
  uuid : Uuid
  vnodeTokens : List UInt64

def RingEnv.nodeIdentity (env : RingEnv) (uuid : Uuid) : NodeIdentity := ⟨uuid, env.generateTokens uuid⟩

abbrev ConsistentRing := HashRing UInt64 Uuid

namespace ConsistentRing

def addNode (ring : ConsistentRing) (identity : NodeIdentity) : ConsistentRing :=
  HashRing.addNode ring identity.uuid identity.vnodeTokens

def removeNode (ring : ConsistentRing) (nodeId : Uuid) : ConsistentRing := HashRing.removeNode ring nodeId

def getOwner (env : RingEnv) (ring : ConsistentRing) (key : String) : Option Uuid := ring.owner (env.hashKey key)

end ConsistentRing

/-! ### Histories -/

inductive RingCall where
  | addNode (node : Uuid)
  | removeNode (node : Uuid)
deriving DecidableEq

def RingCall.node : RingCall → Uuid
  | addNode node | removeNode node => node

def RingCall.apply (env : RingEnv) (ring : ConsistentRing) : RingCall → ConsistentRing
  | addNode node => ring.addNode (env.nodeIdentity node)
  | removeNode node => ring.removeNode node

def ringAfter (env : RingEnv) (calls : List RingCall) : ConsistentRing := calls.foldl (RingCall.apply env) ∅

def RingCall.onNodes (nodes : Finset Uuid) : RingCall → Finset Uuid
  | addNode node => insert node nodes
  | removeNode node => nodes.erase node

/-- The nodes that were added and not removed since. -/
def presentAfter (calls : List RingCall) : Finset Uuid := calls.foldl RingCall.onNodes ∅

end CameoDb
