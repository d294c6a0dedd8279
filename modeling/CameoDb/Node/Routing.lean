import CameoDb.Node.Validate
import CameoDb.Node.Search
import CameoDb.Lib.HashRing

/-! # Routing keys

Which shard a write or a delete goes to: the ring gives the shard of a key, and a ladder of fallbacks gives the key.
A delete has no document, so its ladder is shorter. -/

namespace CameoDb

def IndexSchema.getRoutingField (schema : IndexSchema) : String :=
  if schema.routingFieldName = "" then "id" else schema.routingFieldName

section Keys
variable (p : Parsers)

def routingText : JsonValue → Option String
  | .string s => some s
  | .number n => some (p.jsonText (.number n))
  | .bool b => some (toString b)
  | _ => none

def extractRoutingValue (doc : JsonValue) (fieldName : String) : Option String :=
  (doc.asObject.bind (JsonValue.member? · fieldName)).bind (routingText p)

def hexPair (b : UInt8) : List Char := [Nat.digitChar (b.toNat / 16), Nat.digitChar (b.toNat % 16)]

def maxPrefixLen : Nat := 64

def deriveRoutingKeyFromDoc (doc : JsonValue) : Option String :=
  let bytes := (p.jsonText doc).toUTF8.toList
  if bytes = [] then some "empty-doc" else some (String.ofList ((bytes.take maxPrefixLen).flatMap hexPair))

def routingKeyWithoutSchema (routingKey : Option String) (id : String) (doc : JsonValue) : Option String :=
  (routingKey.or (if id = "" then none else some id)).or (deriveRoutingKeyFromDoc p doc)

def routingKeyFor (routingField : String) (routingKey : Option String) (id : String) (doc : JsonValue) :
    Option String :=
  (extractRoutingValue p doc routingField).or (routingKeyWithoutSchema p routingKey id doc)

def effectiveRoutingKey (schema : IndexSchema) (id : String) (routingKey : Option String) (doc : JsonValue) :
    Option String :=
  routingKeyFor p schema.getRoutingField routingKey id doc

end Keys

inductive RouteError where
  | validation (message : String)
  | notReady (message : String)
deriving DecidableEq

def needsRoutingKey (routingField id : String) : RouteError :=
  .validation ("index routes by '" ++ routingField ++
    "', which is not the document key, so a delete must carry the same " ++
    "routing_key the write used — read it off the document with a search for id:" ++ id)

def effectiveDeleteRoutingKey (schema : IndexSchema) (id : String) (routingKey : Option String) :
    Except RouteError String :=
  if schema.getRoutingField = "id" || schema.isShadowField schema.getRoutingField then .ok id
  else
    match routingKey with
    | some key => if key = "" then .error (needsRoutingKey schema.getRoutingField id) else .ok key
    | none => .error (needsRoutingKey schema.getRoutingField id)

structure ShardRing where
  hashKey : String → UInt64
  ring : HashRing UInt64 ShardId
  shards : List ShardId

def ShardRing.routeWrite (r : ShardRing) : Option String → Except RouteError ShardId
  | none => .error (.validation "Missing routing key for write")
  | some key =>
    match (r.ring.owner (r.hashKey key)).or r.shards.head? with
    | some shard => .ok shard
    | none => .error (.notReady "No shard selected")

/-! ### The rows of an index on its shards -/

abbrev ShardRows := ShardId → String → Option JsonValue

inductive RowOp where
  | write (id : String) (routingKey : Option String) (body : JsonValue)
  | delete (id : String) (routingKey : Option String)

namespace ShardRows

def set (rows : ShardRows) (shard : ShardId) (id : String) (row : Option JsonValue) : ShardRows :=
  fun s i => if s = shard ∧ i = id then row else rows s i

def place (rows : ShardRows) (r : ShardRing) (key : Option String) (id : String) (row : Option JsonValue) : ShardRows :=
  match r.routeWrite key with
  | .error _ => rows
  | .ok shard => rows.set shard id row

def apply (p : NodeParsers) (schema : IndexSchema) (r : ShardRing) (rows : ShardRows) : RowOp → ShardRows
  | .write id routingKey body =>
    match (validateDocument p id body schema).validationError with
    | some _ => rows
    | none =>
      rows.place r (effectiveRoutingKey p.toParsers schema id routingKey body) id
      (some (filterUnstoredFieldsOwned schema body))
  | .delete id routingKey =>
    match effectiveDeleteRoutingKey schema id routingKey with
    | .error _ => rows
    | .ok key => rows.place r (some key) id none

def after (p : NodeParsers) (schema : IndexSchema) (r : ShardRing) (ops : List RowOp) : ShardRows :=
  ops.foldl (apply p schema r) fun _ _ => none

end ShardRows

end CameoDb
