import CameoDb.Node.Change

/-! # Agreeing on what the nodes learned

A reconcile reads what every node learned and, unless they agree, has the merge stored on all of them as a change
that edits nothing. -/

namespace CameoDb

def FieldEdit.unchanged : FieldEdit := ⟨[], none⟩

inductive ReconcileStep where
  | nothing
  | edit (change : Change)
  | failed

structure Reconcile where
  droppedAt : Nat
  missed : List NodeId
  next : ReconcileStep

/-- What the answers of some nodes come to, those that hold nothing left out. -/
def reconcileOnce (env : ClusterEnv) (nodes : Nat) (answers : List (NodeId × IndexSchema)) : Reconcile :=
  let counted := countDrops answers 0
  let held := counted.standing.map Prod.snd
  let next := match mergedView env.fingerprint held with
    | none => .nothing
    | some base =>
      if held.length = nodes && held.all fun schema =>
          schema.version = base.version && env.fingerprint schema = env.fingerprint base then .nothing
      else
        match FieldEdit.unchanged.apply env base with
        | .proposal proposal => .edit ⟨proposal, some .unchanged⟩
        | _ => .failed
  ⟨counted.droppedAt, counted.missed, next⟩

/-- What each node answers to `GetRawSchema`; a node that is minting the index has no answer yet. The reads fill
    caches and change nothing else. -/
def Fleet.readSchemas (f : Fleet) (nodes : List NodeId) : Option (List (NodeId × IndexSchema)) :=
  (nodes.mapM fun x =>
    match (rawSchemaForPeer (f.nodes x) none).1 with
    | .schema schema => some [(x, schema)]
    | .null => some []
    | .beingMinted => none).map List.flatten

def Fleet.reconcile (env : ClusterEnv) (f : Fleet) (nodes : List NodeId) : Option Reconcile :=
  (f.readSchemas nodes).map (reconcileOnce env nodes.length)

end CameoDb
