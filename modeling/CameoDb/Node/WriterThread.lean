import CameoDb.Storage.Store
import Mathlib.Data.List.Dedup

/-! # The writer thread of a shard

One thread applies every write of a shard, those of an index it found together as one batch, whose numbers are split
over the callers. -/

namespace CameoDb
open Std Crash

/-- A command on the channel. `reply` names the caller that waits for the answer. -/
inductive StorageCommand where
  | write (index : String) (op : WalOp) (reply : Nat)
  | batchWrite (index : String) (ops : List WalOp) (reply : Nat)
  | commit (index : String) (reply : Nat)
  | evictWriter (index : String) (reply : Nat)
  | merge (index : String) (reply : Nat)
  | deleteIndex (index : String) (deleteSchema : Bool) (reply : Nat)
  | rebuildIfEmpty (index : String) (schema : IndexSchema) (reply : Nat)
  | shutdown

inductive Reply where
  | single (result : Except StoreError Nat)
  | batch (result : Except StoreError (List Nat))

/-! ### Grouping -/

def writeOf : StorageCommand → Option (String × WalOp × Nat)
  | .write index op reply => some (index, op, reply)
  | _ => none

def batchOf : StorageCommand → Option (String × List WalOp × Nat)
  | .batchWrite index ops reply => some (index, ops, reply)
  | _ => none

def groupOf {α : Type} (pick : StorageCommand → Option (String × α)) (cmds : List StorageCommand) (index : String) :
    List α :=
  cmds.filterMap fun cmd => (pick cmd).bind fun (i, a) => if i = index then some a else none

def keysOf {α : Type} (pick : StorageCommand → Option (String × α)) (cmds : List StorageCommand) : List String :=
  (cmds.filterMap fun cmd => (pick cmd).map Prod.fst).dedup

abbrev writeGroup := groupOf writeOf

abbrev batchGroup := groupOf batchOf

abbrev writeKeys := keysOf writeOf

abbrev batchKeys := keysOf batchOf

/-- The orders in which the groups are walked, which a hash map leaves open: first the indexes with both kinds of group,
    then those with single writes only, then those with batches only. -/
structure Walk (cmds : List StorageCommand) where
  mixed : List String
  writes : List String
  batches : List String
  mixed_perm : mixed.Perm ((writeKeys cmds).filter (· ∈ batchKeys cmds))
  writes_perm : writes.Perm ((writeKeys cmds).filter (· ∉ batchKeys cmds))
  batches_perm : batches.Perm ((batchKeys cmds).filter (· ∉ writeKeys cmds))

/-! ### Applying the groups of one index -/

section Drain
variable (env : Env)

def applyWrite (op : WalOp) : StoreM Nat := do
  let r ← applyBatch env [op]
  pure (r.1.headD 0)

def walkRanges : List Nat → Nat → Option (List (Nat × Nat) × Nat)
  | [], offset => some ([], offset)
  | count :: rest, offset =>
    -- `checked_add`
    if u64Limit ≤ offset + count then none
    else (walkRanges rest (offset + count)).map fun (ranges, last) => ((offset, offset + count) :: ranges, last)

/-- The run of numbers each caller of a merged write owns, unless there is not one number per operation. -/
def mergedReplyRanges (opCounts : List Nat) (seqIdCount : Nat) : Option (List (Nat × Nat)) :=
  match walkRanges opCounts 0 with
  | some (ranges, offset) => if offset = seqIdCount then some ranges else none
  | none => none

inductive MergedWriteReply where
  | single (reply : Nat)
  | batch (reply : Nat)

def MergedWriteReply.fail (error : StoreError) : MergedWriteReply → Nat × Reply
  | single reply => (reply, .single (.error error))
  | batch reply => (reply, .batch (.error error))

def MergedWriteReply.answer (seqIds : List Nat) (range : Nat × Nat) : MergedWriteReply → Nat × Reply
  | single reply => (reply, .single (.ok (seqIds.getD range.1 0)))
  | batch reply => (reply, .batch (.ok ((seqIds.drop range.1).take (range.2 - range.1))))

def drainMixed (writes : List (WalOp × Nat)) (batches : List (List WalOp × Nat)) : StoreM (List (Nat × Reply)) := do
  let segments := writes.map (fun w => MergedWriteReply.single w.2) ++ batches.map fun b => MergedWriteReply.batch b.2
  let opCounts := writes.map (fun _ => 1) ++ batches.map fun b => b.1.length
  let res ← Prog.attempt (applyBatch env (writes.map Prod.fst ++ batches.flatMap Prod.fst))
  match res with
  | .ok (seqIds, _) =>
    match mergedReplyRanges opCounts seqIds.length with
    | none =>
      pure (segments.map (·.fail (.serialization "merged write returned the wrong number of sequence ids")))
    | some ranges => pure ((segments.zip ranges).map fun (segment, range) => segment.answer seqIds range)
  | .error e => pure (segments.map (·.fail e))

def drainWrites : List (WalOp × Nat) → StoreM (List (Nat × Reply))
  | [(op, reply)] => do
    let res ← Prog.attempt (applyWrite env op)
    pure [(reply, .single res)]
  | writes => do
    let res ← Prog.attempt (applyBatch env (writes.map Prod.fst))
    match res with
    | .ok (seqIds, _) => pure (((writes.map Prod.snd).zip seqIds).map fun (reply, seq) => (reply, .single (.ok seq)))
    | .error e => pure (writes.map fun w => (w.2, .single (.error e)))

/-- The numbers of merged batches, split back by how many operations each brought. -/
def splitBatches (seqIds : List Nat) : List (List WalOp × Nat) → Nat → List (Nat × Reply)
  | [], _ => []
  | (ops, reply) :: rest, offset =>
    (reply, .batch (.ok ((seqIds.drop offset).take ops.length))) :: splitBatches seqIds rest (offset + ops.length)

def drainBatches : List (List WalOp × Nat) → StoreM (List (Nat × Reply))
  | [(ops, reply)] => do
    let res ← Prog.attempt (applyBatch env ops)
    pure [(reply, .batch (res.map Prod.fst))]
  | batches => do
    let res ← Prog.attempt (applyBatch env (batches.flatMap Prod.fst))
    match res with
    | .ok (seqIds, _) => pure (splitBatches seqIds batches 0)
    | .error e => pure (batches.map fun b => (b.2, .batch (.error e)))

end Drain

/-! ### A whole drain -/

abbrev Shard := String → Store

abbrev ShardM := Prog Shard StoreError

def atIndex {α : Type} (index : String) (m : StoreM α) : ShardM α := fun fates shard =>
  let r := m fates (shard index)
  ⟨r.outcome, r.fates, Function.update shard index r.state⟩

/-- What every index of a shard has in common. -/
structure ShardEnv where
  config : StorageConfig
  parsers : Parsers

def ShardEnv.at (env : ShardEnv) (index : String) : Env := ⟨env.config, env.parsers, index⟩

/-- The write phases of one drain of the channel: the answers in the order they are sent. -/
def drain (env : ShardEnv) (cmds : List StorageCommand) (walk : Walk cmds) : ShardM (List (Nat × Reply)) := do
  let mixed ← Prog.forEach (fun index =>
    atIndex index (drainMixed (env.at index) (writeGroup cmds index) (batchGroup cmds index))) walk.mixed
  let writes ← Prog.forEach (fun index =>
    atIndex index (drainWrites (env.at index) (writeGroup cmds index))) walk.writes
  let batches ← Prog.forEach (fun index =>
    atIndex index (drainBatches (env.at index) (batchGroup cmds index))) walk.batches
  pure (mixed.flatten ++ writes.flatten ++ batches.flatten)

/-! ### One command at a time -/

def applyCommand (env : ShardEnv) : StorageCommand → ShardM (List (Nat × Reply))
  | .write index op reply => atIndex index (drainWrites (env.at index) [(op, reply)])
  | .batchWrite index ops reply => atIndex index (drainBatches (env.at index) [(ops, reply)])
  | _ => pure []

def groupCommands (cmds : List StorageCommand) (index : String) : List StorageCommand :=
  (writeGroup cmds index).map (fun w => .write index w.1 w.2) ++
    (batchGroup cmds index).map fun b => .batchWrite index b.1 b.2

/-- The write commands of a drain in the order the thread serializes them: index by index, and for one index the single
    writes before the batches. -/
def serialized (cmds : List StorageCommand) (walk : Walk cmds) : List StorageCommand :=
  (walk.mixed ++ walk.writes ++ walk.batches).flatMap (groupCommands cmds)

def applySerially (env : ShardEnv) (cmds : List StorageCommand) (walk : Walk cmds) : ShardM (List (Nat × Reply)) := do
  let replies ← Prog.forEach (applyCommand env) (serialized cmds walk)
  pure replies.flatten

end CameoDb
