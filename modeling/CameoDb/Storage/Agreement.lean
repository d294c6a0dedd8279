import CameoDb.Storage.Tables

/-! # Comparing and merging the schemas of several nodes

Nodes that hold one index compare their schemas by version and thumbprint, count the drops recorded among them, and
merge what each of them learned from its own writes. -/

namespace CameoDb
open Std

/-- `saturating_add(1)` of a `u64`. -/
def nextVersion (version : Nat) : Nat := min (version + 1) (u64Limit - 1)

namespace IndexSchema

def recordsDrop (schema : IndexSchema) : Bool := schema.state = .dropped

def droppedBy (schema : IndexSchema) (droppedAt : Nat) : Bool := !schema.recordsDrop && schema.version ≤ droppedAt

def isLive (schema : IndexSchema) : Bool := !schema.fields.isEmpty && !schema.recordsDrop

end IndexSchema

structure DropsCounted (N : Type) where
  droppedAt : Nat
  missed : List N
  standing : List (N × IndexSchema)

def countDrops {N : Type} (records : List (N × IndexSchema)) (droppedAt : Nat) : DropsCounted N :=
  let droppedAt := (records.filter fun r => r.2.recordsDrop).foldl (fun at_ r => max at_ r.2.version) droppedAt
  ⟨droppedAt, (records.filter fun r => r.2.droppedBy droppedAt).map Prod.fst, records.filter fun r =>
    !r.2.droppedBy droppedAt⟩

/-! ### Normal form and thumbprint -/

/-- Blank is the same as unset. -/
def normalizeDescription (p : Parsers) : Option String → Option String
  | some text => if p.trim text = "" then none else some (p.trim text)
  | none => none

/-- A field as it is built, whatever its declaration leaves open. -/
def FieldDef.normalize (p : Parsers) (key : String) (field : FieldDef) : FieldDef :=
  let named := { field with
    name := if field.name = "" then key else field.name
    description := normalizeDescription p field.description
    fast := some field.isFast }
  if key = "id" then
    { named with
      fieldType := .text, fast := some true, indexed := true, stored := true, tokenizer := some "raw"
      indexRecordOption := some "Basic" }
  else if named.isShadow || !named.indexed then named
  else
    match named.fieldType with
    | .text =>
      { named with
        tokenizer := some (named.tokenizer.getD "default")
        indexRecordOption := some (named.indexRecordOption.getD "WithFreqsAndPositions") }
    | .string =>
      { named with
        tokenizer := some (named.tokenizer.getD "raw")
        indexRecordOption := some (named.indexRecordOption.getD "Basic") }
    | _ => named

namespace IndexSchema

def readByGhosts (schema : IndexSchema) : List String :=
  schema.fields.toList.flatMap fun entry =>
    match entry.2.ghost with
    | some ghost => ghost.source :: (ghost.when_.map GhostCondition.field).toList
    | none => []

/-- A declaration as every node stores it: every default resolved, and a field a ghost reads no longer learned. -/
def normalizeAfterDeserialization (p : Parsers) (schema : IndexSchema) : IndexSchema :=
  let described := { schema with
    description := normalizeDescription p schema.description
    fields := schema.fields.map (FieldDef.normalize p) }
  { described with
    fields := described.fields.map fun key field =>
      if key ∈ described.readByGhosts then { field with learned := false } else field }

end IndexSchema

/-! The bytes that are hashed. Every part of variable length has its length before it. -/

def leBytes (n : Nat) : List UInt8 := (List.range 8).map fun i => UInt8.ofNat (n / 256 ^ i)

def pushStr (text : String) : List UInt8 := leBytes text.utf8ByteSize ++ text.toUTF8.toList

def pushOpt : Option String → List UInt8
  | none => [0]
  | some text => 1 :: pushStr text

def pushBool (b : Bool) : List UInt8 := [if b then 1 else 0]

def pushGhost (p : Parsers) (ghost : Ghost) : List UInt8 :=
  0x47 :: pushStr ghost.source ++
    match ghost.when_ with
    | none => [0]
    | some when_ =>
      (if when_.notIn.isSome then 2 else 1) :: pushStr when_.field ++ leBytes when_.values.length ++
        when_.values.flatMap fun value => pushStr (p.jsonText value)

def pushField (p : Parsers) (name : String) (field : FieldDef) : List UInt8 :=
  pushStr name ++ pushStr field.fieldType.name ++ pushBool field.indexed ++ pushBool field.stored ++
    pushBool field.isFast ++ pushBool field.isShadow ++ pushOpt field.description ++ pushOpt field.tokenizer ++
    pushOpt field.indexRecordOption ++ (if field.learned then [0x4C] else []) ++
    match field.ghost with
    | some ghost => pushGhost p ghost
    | none => []

def pushNames (marker : UInt8) (names : List String) : List UInt8 :=
  marker :: leBytes names.length ++ names.flatMap pushStr

namespace IndexSchema

/-- What a normalized schema is hashed as: its fields in the order of their names, `_seq` left out, and the
    properties of the index. The version is not part of it. -/
def fingerprintBytes (p : Parsers) (schema : IndexSchema) : List UInt8 :=
  (schema.fields.toList.filter fun entry => entry.1 ≠ "_seq").flatMap (fun entry => pushField p entry.1 entry.2) ++
    pushStr schema.routingFieldName ++ pushOpt schema.description ++
    (match schema.defaultFields with
      | some names => pushNames 0xD5 names
      | none => []) ++
    if schema.idFields = [] then [] else pushNames 0x1D schema.idFields

def calculateFingerprint (p : Parsers) (xxh3 : List UInt8 → UInt64) (schema : IndexSchema) : UInt64 :=
  xxh3 ((schema.normalizeAfterDeserialization p).fingerprintBytes p)

end IndexSchema

/-- Which of two schemas of an index the cluster settles on: the newer, and at a tie the one with the lower
    thumbprint. -/
def preferredSchema (fingerprint : IndexSchema → UInt64) (a b : IndexSchema) : IndexSchema :=
  if b.version < a.version then a
  else if a.version < b.version then b
  else if fingerprint b < fingerprint a then b else a

/-- The one of several the cluster settles on. -/
def preferredOf (fingerprint : IndexSchema → UInt64) : List IndexSchema → Option IndexSchema
  | [] => none
  | first :: rest => some (rest.foldl (preferredSchema fingerprint) first)

/-! ### Learned fields -/

/-- A field a write added and no column was built for. -/
def FieldDef.isLearned (field : FieldDef) : Bool := field.learned && !field.indexed

/-- Brings one field of another schema in, if that schema learned it. -/
def IndexSchema.mergeField (into : IndexSchema) (name : String) (field : FieldDef) : IndexSchema :=
  match into.fields[name]? with
  | none => if field.isLearned then { into with fields := into.fields.insert name field } else into
  | some held =>
    if held.isLearned && field.isLearned then
      if held.fieldType.widened field.fieldType = held.fieldType then into
      else { into with
        fields := into.fields.insert name (held.retypeLearned (held.fieldType.widened field.fieldType)) }
    else into

def mergeLearned (into from_ : IndexSchema) : IndexSchema :=
  from_.fields.toList.foldl (fun into entry => into.mergeField entry.1 entry.2) into

def mergedView (fingerprint : IndexSchema → UInt64) (schemas : List IndexSchema) : Option IndexSchema :=
  let held := schemas.filter fun schema => !schema.recordsDrop
  (preferredOf fingerprint held).map fun view => held.foldl mergeLearned view

end CameoDb
