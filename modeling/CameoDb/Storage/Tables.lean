import CameoDb.Storage.Document
import CameoDb.Lib.Decimal
import CameoDb.Lib.Durable
import CameoDb.Lib.TermIndex

/-! # The two engines under one index

redb is the list of the transactions committed to it, Tantivy the documents of its last commit with the payload that
was stamped. -/

namespace CameoDb
open Std

/-- One above the largest `u64`. -/
def u64Limit : Nat := 2 ^ 64

/-- A write-ahead log operation. -/
inductive WalOp where
  | put (id : String) (blob : Option JsonValue)
  | delete (id : String)
  deriving DecidableEq, Repr

def WalOp.id : WalOp → String
  | put id _ => id
  | delete id => id

def WalOp.isDelete : WalOp → Bool
  | delete _ => true
  | put _ _ => false

inductive WalEntry where
  | idOnly (id : String)
  | legacy (op : WalOp)
  deriving DecidableEq, Repr

def decodeWalEntry : WalEntry → String
  | .idOnly id => id
  | .legacy op => op.id

/-! ### redb -/

/-- The tables of one index: document bodies by id, WAL entries by sequence, the sequence recorded as
    committed, and the schema row. -/
structure Tables where
  data : ExtTreeMap String (Option JsonValue)
  wal : ExtTreeMap Nat WalEntry
  recoveryMeta : Option Nat
  schema : Option IndexSchema
  deriving DecidableEq

def Tables.empty : Tables := ⟨∅, ∅, none, none⟩

inductive TableWrite where
  | walInsert (seq : Nat) (entry : WalEntry)
  | dataInsert (id : String) (row : Option JsonValue)
  | dataRemove (id : String)
  /-- `retain_in(0..=upTo, |_, _| false)` -/
  | walTruncate (upTo : Nat)
  | metaInsert (seq : Nat)
  | metaRemove
  | schemaInsert (schema : IndexSchema)
  | deleteDataTable
  | deleteWalTable

abbrev Txn := List TableWrite

namespace Tables

def write (t : Tables) : TableWrite → Tables
  | .walInsert seq entry => { t with wal := t.wal.insert seq entry }
  | .dataInsert id row => { t with data := t.data.insert id row }
  | .dataRemove id => { t with data := t.data.erase id }
  | .walTruncate upTo => { t with wal := t.wal.filter fun seq _ => upTo < seq }
  | .metaInsert seq => { t with recoveryMeta := some seq }
  | .metaRemove => { t with recoveryMeta := none }
  | .schemaInsert schema => { t with schema := some schema }
  | .deleteDataTable => { t with data := ∅ }
  | .deleteWalTable => { t with wal := ∅ }

def run (t : Tables) (txn : Txn) : Tables := txn.foldl write t

def after (txns : List Txn) : Tables := txns.foldl run empty

def maxWalSeq (t : Tables) : Nat := t.wal.keys.getLast?.getD 0

end Tables

/-! ### Tantivy -/

def checkpointPayloadPrefix : String := "cameodb:wal_seq="

def encodeCheckpointPayload (seq : Nat) : String := checkpointPayloadPrefix ++ toString seq

def decodeCheckpointPayload (payload : String) : Option Nat :=
  (payload.toList.dropPrefix? checkpointPayloadPrefix.toList).bind (Decimal.parse u64Limit)

theorem decode_encodeCheckpointPayload {seq : Nat} (h : seq < u64Limit) :
    decodeCheckpointPayload (encodeCheckpointPayload seq) = some seq := by
  have hdrop : (encodeCheckpointPayload seq).toList.dropPrefix? checkpointPayloadPrefix.toList =
      some (toString seq).toList :=
    List.dropPrefix?_eq_some_iff.mpr ⟨checkpointPayloadPrefix.toList, by simp [encodeCheckpointPayload]⟩
  rw [decodeCheckpointPayload, hdrop]
  exact Decimal.parse_toString h

/-- The committed state of a search index, as its `meta.json` names it. -/
structure TantivyIndex where
  fields : SchemaFields
  docs : List TantivyDocument
  payload : Option String
  deriving DecidableEq

/-- Edits a writer holds that no commit has published yet. -/
abbrev Buffer := List (Edit String TantivyDocument)

namespace TantivyIndex

def view (index : TantivyIndex) (buffer : Buffer) : List TantivyDocument :=
  Edit.applyAll TantivyDocument.id index.docs buffer

def commit (index : TantivyIndex) (buffer : Buffer) (payload : Option String) : TantivyIndex :=
  { index with docs := index.view buffer, payload := payload }

/-- The WAL sequence recorded in the last commit. -/
def checkpointSeq (index : TantivyIndex) : Option Nat := index.payload.bind decodeCheckpointPayload

/-- The highest `_seq` of a committed document, `0` when there is none. -/
def highestIndexedSeq (index : TantivyIndex) : Nat := (index.docs.filterMap TantivyDocument.seq).max?.getD 0

end TantivyIndex

/-- The directory of an index: not there, there without a `meta.json`, or a built index. -/
inductive IndexDir where
  | absent
  | bare
  | built (index : TantivyIndex)
  deriving DecidableEq

/-- The documents a reader of this directory would see. -/
def IndexDir.docs : IndexDir → List TantivyDocument
  | built index => index.docs
  | absent | bare => []

end CameoDb
