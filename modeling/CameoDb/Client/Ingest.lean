import CameoDb.Lib.Transition
import Mathlib.Data.Finset.Insert

/-! # A load of rows in batches

Rows go out in batches, and a batch with an id that was sent before, by its hash, waits until no other is in flight. -/

namespace CameoDb.Ingest

variable {I D H : Type} [DecidableEq I] [DecidableEq H]

structure LoadBatch (I D : Type) where
  rows : List (I × D)
  repeats : Bool

structure CsvIngest (I D H : Type) where
  rows : List (I × D)
  batchRepeats : Bool
  /-- The ledger: the hashes of the ids sent so far. -/
  seen : Finset H

namespace CsvIngest

def new : CsvIngest I D H := ⟨[], false, ∅⟩

def flush (s : CsvIngest I D H) : CsvIngest I D H × Option (LoadBatch I D) :=
  if s.rows.isEmpty then (s, none) else ({ s with rows := [], batchRepeats := false }, some ⟨s.rows, s.batchRepeats⟩)

/-- A row and its id, if the id's columns have values; a row without one is skipped. -/
def pushRow (hash : I → H) (batchSize : Nat) (s : CsvIngest I D H) :
    Option I × D → CsvIngest I D H × Option (LoadBatch I D)
  | (none, _) => (s, none)
  | (some id, doc) =>
    let s : CsvIngest I D H :=
      { rows := s.rows ++ [(id, doc)], batchRepeats := s.batchRepeats || hash id ∈ s.seen,
        seen := insert (hash id) s.seen }
    if batchSize.max 1 ≤ s.rows.length then s.flush else (s, none)

/-- The batches a load sends, in order. -/
def batches (hash : I → H) (batchSize : Nat) (s : CsvIngest I D H) : List (Option I × D) → List (LoadBatch I D)
  | [] => s.flush.2.toList
  | row :: rest =>
    (s.pushRow hash batchSize row).2.toList ++ batches hash batchSize (s.pushRow hash batchSize row).1 rest

end CsvIngest

/-- The batches to be sent, what is left to apply of those in flight, and the documents of the index. -/
structure Load (I D : Type) where
  queue : List (LoadBatch I D)
  inFlight : List (List (I × D))
  index : I → Option D

/-- The next batch is sent, the node applies a row of one in flight, or the sender settles one that was applied. -/
inductive LoadStep where
  | send
  | land (batch : Nat)
  | settle (batch : Nat)

def put (index : I → Option D) (row : I × D) : I → Option D := Function.update index row.1 (some row.2)

def Load.step (parallel : Nat) (s : Load I D) : LoadStep → Option (Load I D)
  | .send =>
    match s.queue with
    | batch :: rest =>
      if (batch.repeats && !s.inFlight.isEmpty) || parallel ≤ s.inFlight.length then none
      else some { s with queue := rest, inFlight := s.inFlight ++ [batch.rows] }
    | [] => none
  | .land k =>
    match s.inFlight[k]? with
    | some (row :: rest) => some { s with inFlight := s.inFlight.set k rest, index := put s.index row }
    | _ => none
  | .settle k =>
    match s.inFlight[k]? with
    | some [] => some { s with inFlight := s.inFlight.eraseIdx k }
    | _ => none

end CameoDb.Ingest
