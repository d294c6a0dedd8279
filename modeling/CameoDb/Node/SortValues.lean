import CameoDb.Storage.SortKey
import CameoDb.Node.Search

/-! # Ordering hits by a sort value

One comparator orders the keys of a node's shards and the stamped documents of a cluster's nodes. -/

namespace CameoDb

/-- The ordering between two sort values: as `i64` where both are one, else as doubles, else as text; a missing
    value is last in either order. -/
def compareSortValues (a b : Option JsonValue) (order : SortOrder) : Ordering :=
  match a, b with
  | some x, some y =>
    let base :=
      match x.asI64, y.asI64 with
      | some nx, some ny => compare nx.toInt ny.toInt
      | _, _ =>
        match x.asF64, y.asF64 with
        | some nx, some ny => compare nx ny
        | _, _ =>
          match x.asStr, y.asStr with
          | some sx, some sy => compare sx sy
          | _, _ => .eq
    match order with
    | .asc => base
    | .desc => base.swap
  | some _, none => .lt
  | none, some _ => .gt
  | none, none => .eq

def compareSortKeys (order : SortOrder) (left right : Option SortKey) : Ordering :=
  compareSortValues (left.map SortKey.toJson) (right.map SortKey.toJson) order

/-- The hits of a node's shards in one sequence: a tie falls to the shard, then to the place in the shard's own
    order. -/
def orderKeyHits (order : SortOrder) (hits : List ((Nat × Nat) × Hit (Option SortKey) String)) :
    List ((Nat × Nat) × Hit (Option SortKey) String) :=
  orderRanked (compareSortKeys order) hits

end CameoDb
