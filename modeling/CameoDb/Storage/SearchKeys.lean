import CameoDb.Storage.Document
import CameoDb.Storage.SortKey
import Mathlib.Data.List.Sort
import Mathlib.Data.Prod.Lex

/-! # The key phase of a search

A shard answers with the ids of its first hits, each with its score and sort value. A text field without a column is
sorted after the fetch. -/

namespace CameoDb

structure SortSpec where
  field : String
  order : SortOrder
deriving DecidableEq

abbrev Score := UInt32

/-- `1.0`, the score of a hit that was not ranked by one. -/
def Score.placeholder : Score := 0x3f800000

structure SearchMatch where
  score : Score
  doc : TantivyDocument
deriving DecidableEq

structure KeyHit where
  score : Score
  id : String
  sortKey : Option SortKey
deriving DecidableEq

inductive KeySearchError where
  | fieldNotFound (name : String)
  | invalidInput (message : String)
  | unsortable (name : String) (kind : ColumnKind)
deriving DecidableEq

/-! ### Sorting by a column -/

/-- The value of a column, as the collector of its type reads it. -/
def TantivyValue.sortKey : TantivyValue → Option SortKey
  | u64 n => some (.u64 n)
  | i64 n => some (.i64 n)
  | f64 bits => some (.f64 bits)
  | date secs => some (.date (Int64.ofInt secs))
  | str s => some (.str s)
  | _ => none

def SortKey.compareValue : SortKey → SortKey → Ordering
  | u64 a, u64 b => compare a.toNat b.toNat
  | i64 a, i64 b | date a, date b => compare a.toInt b.toInt
  | f64 a, f64 b => compare (F64.units a) (F64.units b)
  | str a, str b => compare a b
  | _, _ => .eq

/-- The collector's order: by value, either way, with the documents that have none last. -/
def compareColumn (order : SortOrder) (a b : Option SortKey) : Ordering :=
  match a, b with
  | some x, some y =>
    match order with
    | .asc => x.compareValue y
    | .desc => y.compareValue x
  | some _, none => .lt
  | none, some _ => .gt
  | none, none => .eq

namespace SearchMatch

def firstValue (column : String) (hit : SearchMatch) : Option TantivyValue :=
  if column = "id" then some (.str hit.doc.id) else hit.doc.values.lookup column

def sortKey (column : String) (hit : SearchMatch) : Option SortKey := (hit.firstValue column).bind TantivyValue.sortKey

def ipRank (column : String) (descending : Bool) (hit : SearchMatch) : Bool × Nat :=
  match hit.firstValue column with
  | some (.ip address) => (true, if descending then address.toNat else 2 ^ 128 - 1 - address.toNat)
  | _ => (false, 0)

end SearchMatch

def ipSortKey (descending : Bool) (rank : Bool × Nat) : Option SortKey :=
  if rank.1 then some (.ip (BitVec.ofNat 128 (if descending then rank.2 else 2 ^ 128 - 1 - rank.2)).toHex) else none

/-! ### Sorting after the fetch -/

def compareFetched (order : SortOrder) (a b : Option String) : Ordering :=
  let base :=
    match a, b with
    | some x, some y => compare x y
    | some _, none => .lt
    | none, some _ => .gt
    | none, none => .eq
  match order with
  | .asc => base
  | .desc => base.swap

/-! ### The search -/

/-- A search as a shard finds it: the columns it was built with, what the query is (an id asked for by name, if it
    is that) and what it matches, in the order of the documents' addresses, and the documents as a fetch returns
    them. -/
structure KeySearch where
  schema : IndexSchema
  fields : SchemaFields
  idFast : Bool
  exactId : Option String
  matched : List SearchMatch
  document : String → Option JsonValue

namespace KeySearch
variable (k : KeySearch)

def byScore : List SearchMatch := k.matched.insertionSort fun a b => b.score ≤ a.score

def byColumn (column : String) (order : SortOrder) : List SearchMatch :=
  k.matched.insertionSort fun a b => (compareColumn order (a.sortKey column) (b.sortKey column)).isLE

def byIp (column : String) (descending : Bool) : List SearchMatch :=
  k.matched.insertionSort fun a b => toLex (b.ipRank column descending) ≤ toLex (a.ipRank column descending)

/-- The candidates of a sort after the fetch: of the best `2 * limit` scores those whose document is there, each
    with the text it has under the field. -/
def fetchedCandidates (limit : Nat) (field : String) : List (Option String × KeyHit) :=
  (k.byScore.take (2 * limit)).filterMap fun hit =>
    (k.document hit.doc.id).map fun doc =>
      let value := (doc.asObject.bind (JsonValue.member? · field)).bind JsonValue.asStr
      (value, ⟨hit.score, hit.doc.id, value.map .str⟩)

def byFetched (limit : Nat) (field : String) (order : SortOrder) : List KeyHit :=
  ((k.fetchedCandidates limit field).zipIdx.insertionSort fun a b =>
    ((compareFetched order a.1.1 b.1.1).then (compare a.2 b.2)).isLE).map fun a => a.1.2

def column? (name : String) : Option Column :=
  if name = "id" then some ⟨.str, true, k.idFast, some ("raw", .basic)⟩ else k.fields.columns[name]?

def sortsByDocumentKey (spec : SortSpec) : Bool := spec.field = "id" || k.schema.isShadowField spec.field

def columnName (spec : SortSpec) : String := if k.sortsByDocumentKey spec then "id" else spec.field

def documentName (spec : SortSpec) : String :=
  if k.sortsByDocumentKey spec then k.schema.documentKeyField else spec.field

def sortedHits (limit : Nat) (spec : SortSpec) : Except KeySearchError (List KeyHit) :=
  if spec.field = "_seq" then .error (.fieldNotFound spec.field)
  else
    match k.column? (k.columnName spec) with
    | none => .error (.fieldNotFound spec.field)
    | some column =>
      let byColumn := (k.byColumn (k.columnName spec) spec.order).map fun hit =>
        ⟨.placeholder, hit.doc.id, hit.sortKey (k.columnName spec)⟩
      if !column.fast && column.kind ≠ .str then
        .error (.invalidInput ("Field '" ++ spec.field ++ "' is not marked as FAST. Only FAST fields support sorting."))
      else
        match column.kind with
        | .u64 | .i64 | .f64 | .date => .ok byColumn
        | .ipAddr =>
          .ok ((k.byIp (k.columnName spec) (spec.order = .desc)).map fun hit =>
            ⟨.placeholder, hit.doc.id, ipSortKey (spec.order = .desc)
              (hit.ipRank (k.columnName spec) (spec.order = .desc))⟩)
        | .str => if column.fast then .ok byColumn else .ok (k.byFetched limit (k.documentName spec) spec.order)
        | kind => .error (.unsortable spec.field kind)

def searchKeys (limit : Nat) (sort : Option SortSpec) : Except KeySearchError (List KeyHit) :=
  if limit = 0 then .ok []
  else
    match k.exactId with
    | some id => .ok (if (k.document id).isSome then [⟨.placeholder, id, none⟩] else [])
    | none =>
      match sort with
      | none => .ok ((k.byScore.take limit).map fun hit => ⟨hit.score, hit.doc.id, none⟩)
      | some spec => (k.sortedHits limit spec).map (List.take limit)

end KeySearch

end CameoDb
