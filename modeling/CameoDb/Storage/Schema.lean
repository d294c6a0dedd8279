import CameoDb.Storage.Json
import Mathlib.Data.String.Basic

/-! # Index schemas

A field the schema has not seen is learned from the write that brings it, without a column, and widens to hold what
is written to it. -/

namespace CameoDb
open Std

/-- Native field types of the search engine. -/
inductive TantivyFieldType where
  | text
  | string
  | i64
  | u64
  | f64
  | date
  | boolean
  | bytes
  | ip
  | json
  | facet
  deriving DecidableEq, Repr, Inhabited

namespace TantivyFieldType

def isNumeric : TantivyFieldType → Bool
  | i64 | u64 | f64 => true
  | _ => false

/-- The narrowest type that holds the values of both. -/
def widened (a b : TantivyFieldType) : TantivyFieldType :=
  if a = b then a
  else if a.isNumeric && b.isNumeric then f64
  else text

def name : TantivyFieldType → String
  | text => "text"
  | string => "string"
  | i64 => "i64"
  | u64 => "u64"
  | f64 => "f64"
  | date => "date"
  | boolean => "boolean"
  | bytes => "bytes"
  | ip => "ip"
  | json => "json"
  | facet => "facet"

end TantivyFieldType

/-- The parsers and printers the engine takes from its libraries: JSON text, number conversion, dates,
    addresses, facet paths, and the trimming of text. -/
structure Parsers where
  /-- `serde_json::to_string`. -/
  jsonText : JsonValue → String
  /-- `Number::as_f64`, as the bits of the double. -/
  asF64 : JsonNumber → UInt64
  /-- `parse_date_str_to_tantivy`: seconds since the epoch, clamped. -/
  dateSecs : String → Option Int
  /-- RFC 3339, RFC 2822 or a naive date or datetime. -/
  isDateText : String → Bool
  /-- `IpAddr::from_str`, mapped into IPv6. -/
  ipv6 : String → Option (BitVec 128)
  /-- `Facet::from_text`: the encoded path. -/
  facet : String → Option String
  /-- `str::trim`. -/
  trim : String → String

structure GhostCondition where
  field : String
  inValues : Option (List JsonValue)
  notIn : Option (List JsonValue)
  deriving DecidableEq, Repr

namespace GhostCondition

def values (when_ : GhostCondition) : List JsonValue :=
  (when_.inValues.or when_.notIn).getD []

def matchesBody (when_ : GhostCondition) (body : List (String × JsonValue)) : Bool :=
  let listed := match JsonValue.member? body when_.field with
    | some (.array items) => items.any fun item => when_.values.any (·.same item)
    | some value => when_.values.any (·.same value)
    | none => false
  listed != when_.notIn.isSome

end GhostCondition

/-- Where a ghost field's values come from: another field of the stored body. -/
structure Ghost where
  source : String
  when_ : Option GhostCondition
  deriving DecidableEq, Repr

def Ghost.feeds (ghost : Ghost) (body : List (String × JsonValue)) : Bool :=
  (JsonValue.member? body ghost.source).isSome &&
    (match ghost.when_ with
      | none => true
      | some when_ => when_.matchesBody body)

/-- Field definition for schema evolution and validation. -/
structure FieldDef where
  name : String
  fieldType : TantivyFieldType
  indexed : Bool
  stored : Bool
  fast : Option Bool
  isShadow : Bool
  description : Option String
  tokenizer : Option String
  indexRecordOption : Option String
  learned : Bool
  ghost : Option Ghost
  deriving DecidableEq, Repr

namespace FieldDef

def fastByDefault : TantivyFieldType → Bool
  | .i64 | .u64 | .f64 | .date => true
  | _ => false

def canBeFast : TantivyFieldType → Bool
  | .text | .string | .i64 | .u64 | .f64 | .date | .ip => true
  | _ => false

def new (name : String) (fieldType : TantivyFieldType) : FieldDef where
  name := name
  fieldType := fieldType
  indexed := true
  stored := name == "id"
  fast := some (name == "id" || fastByDefault fieldType)
  isShadow := false
  description := none
  tokenizer := none
  indexRecordOption := none
  learned := false
  ghost := none

def isFast (field : FieldDef) : Bool :=
  if field.isShadow || !canBeFast field.fieldType then false
  else field.fast.getD (fastByDefault field.fieldType)

/-- A field a write added, typed by the values it has seen. -/
def newLearned (name : String) (fieldType : TantivyFieldType) : FieldDef :=
  { new name fieldType with indexed := false, learned := true }

def retypeLearned (field : FieldDef) (fieldType : TantivyFieldType) : FieldDef :=
  let fresh := new field.name fieldType
  { field with fieldType := fresh.fieldType, fast := fresh.fast }

def isGhost (field : FieldDef) : Bool := field.ghost.isSome

def inferLeafType (p : Parsers) : JsonValue → TantivyFieldType
  | .number n => if n.isI64 then .i64 else if n.isU64 then .u64 else .f64
  | .bool _ => .boolean
  | .string s => if p.isDateText s then .date else if (p.ipv6 s).isSome then .ip else .text
  | .object _ => .json
  | .array _ | .null => .text

def inferElementType (p : Parsers) : List JsonValue → Option TantivyFieldType → Option TantivyFieldType
  | [], agreed => agreed
  | .null :: items, agreed => inferElementType p items agreed
  | .array _ :: _, _ | .object _ :: _, _ => none
  | item :: items, none => inferElementType p items (some (inferLeafType p item))
  | item :: items, some current => inferElementType p items (some (current.widened (inferLeafType p item)))

def inferTypeFromValue (p : Parsers) : JsonValue → TantivyFieldType
  | .array items => (inferElementType p items none).getD .text
  | value => inferLeafType p value

end FieldDef

/-- Whether a schema describes a live index or records that one was dropped. -/
inductive SchemaState where
  | active
  | dropped
  deriving DecidableEq, Repr

structure IndexSchema where
  fields : ExtTreeMap String FieldDef
  state : SchemaState
  version : Nat
  description : Option String
  tenant : Option String
  defaultFields : Option (List String)
  routingFieldName : String
  idFields : List String
  deriving DecidableEq

namespace IndexSchema

def default : IndexSchema where
  fields := ∅
  state := .active
  version := 1
  description := none
  tenant := none
  defaultFields := none
  routingFieldName := "id"
  idFields := []

def hasShadowFields (schema : IndexSchema) : Bool :=
  schema.fields.toList.any fun entry => entry.2.isShadow

def hasGhostFields (schema : IndexSchema) : Bool :=
  schema.fields.toList.any fun entry => entry.2.isGhost

def isShadowField (schema : IndexSchema) (name : String) : Bool :=
  match schema.fields[name]? with
  | some field => field.isShadow
  | none => false

def shadowNames (schema : IndexSchema) : List String :=
  (schema.fields.toList.filter fun entry => entry.2.isShadow).map Prod.fst

def documentKeyField (schema : IndexSchema) : String := schema.shadowNames.head?.getD "id"

/-- Records what a written value says about its field, and whether anything changed. -/
def evolveField (p : Parsers) (schema : IndexSchema) (name : String) (value : JsonValue) : IndexSchema × Bool :=
  if name = "id" then (schema, false)
  else
    let inferred := FieldDef.inferTypeFromValue p value
    match schema.fields[name]? with
    | none => ({ schema with fields := schema.fields.insert name (FieldDef.newLearned name inferred) }, true)
    | some field =>
      if field.isShadow || field.isGhost then (schema, false)
      -- An indexed field's type is pinned to the column the index built for it.
      else if field.indexed then (schema, false)
      else if !field.learned then (schema, false)
      else
        let widened := field.fieldType.widened inferred
        if widened = field.fieldType then (schema, false)
        else ({ schema with fields := schema.fields.insert name (field.retypeLearned widened) }, true)

/-- `evolve_field` over the members of a body, with the names of the fields that changed. -/
def evolveMembers (p : Parsers) : IndexSchema → List (String × JsonValue) → IndexSchema × List String
  | schema, [] => (schema, [])
  | schema, (name, value) :: rest =>
    let (evolved, changed) := schema.evolveField p name value
    let (final, names) := evolved.evolveMembers p rest
    (final, if changed then name :: names else names)

def evolveFromDocument (p : Parsers) (schema : IndexSchema) (blob : JsonValue) : IndexSchema × List String :=
  match blob.asObject with
  | some members => schema.evolveMembers p members
  | none => (schema, [])

/-! ### What evolution leaves alone -/

/-- The fields a column can be built for. Documents are built from these alone. -/
def indexedFields (schema : IndexSchema) : ExtTreeMap String FieldDef :=
  schema.fields.filter fun _ field => field.indexed

theorem filter_insert_of_not_indexed {fields : ExtTreeMap String FieldDef} {name : String} {field : FieldDef}
    (old : ∀ f : FieldDef, fields[name]? = some f → f.indexed = false) (new : field.indexed = false) :
    (fields.insert name field).filter (fun _ f => f.indexed) = fields.filter fun _ f => f.indexed := by
  apply ExtTreeMap.ext_getElem?
  intro k
  simp only [ExtTreeMap.getElem?_filter', ExtTreeMap.getElem?_insert]
  by_cases hk : compare name k = .eq
  · rw [LawfulEqCmp.compare_eq_iff_eq.mp hk] at old
    cases hf : fields[k]? with
    | none => simp [hk, new, Option.filter]
    | some f => simp [hk, new, old f hf, Option.filter]
  · simp [hk]

/-- What learning from one value can do: nothing, or a definition without a column put over none or over another without
    one, and neither of them of a field kept out of stored bodies. -/
theorem evolveField_cases (p : Parsers) (schema : IndexSchema) (name : String) (value : JsonValue) :
    (schema.evolveField p name value).1 = schema ∨
      ∃ field, (schema.evolveField p name value).1 = { schema with fields := schema.fields.insert name field } ∧
        field.indexed = false ∧ (field.isShadow || field.isGhost) = false ∧
        ∀ old, schema.fields[name]? = some old → old.indexed = false ∧ (old.isShadow || old.isGhost) = false := by
  unfold evolveField
  split
  · exact Or.inl rfl
  · split
    · next hnone => exact Or.inr ⟨_, rfl, rfl, rfl, fun old h => by simp [hnone] at h⟩
    · next field hsome =>
      split
      · exact Or.inl rfl
      · next hplain =>
        split
        · exact Or.inl rfl
        · next hidx =>
          split
          · exact Or.inl rfl
          · dsimp only
            split
            · exact Or.inl rfl
            · have hidx : field.indexed = false := by simpa using hidx
              have hplain : (field.isShadow || field.isGhost) = false := by simpa using hplain
              refine Or.inr ⟨_, rfl, hidx, hplain, fun old h => ?_⟩
              rw [hsome] at h
              cases h
              exact ⟨hidx, hplain⟩

theorem evolveField_indexedFields (p : Parsers) (schema : IndexSchema) (name : String) (value : JsonValue) :
    (schema.evolveField p name value).1.indexedFields = schema.indexedFields := by
  rcases evolveField_cases p schema name value with h | ⟨field, h, hidx, -, hold⟩
  · rw [h]
  · rw [h]
    exact filter_insert_of_not_indexed (fun f hf => (hold f hf).1) hidx

theorem evolveMembers_indexedFields (p : Parsers) (schema : IndexSchema) (members : List (String × JsonValue)) :
    (schema.evolveMembers p members).1.indexedFields = schema.indexedFields := by
  induction members generalizing schema with
  | nil => rfl
  | cons member rest ih =>
    simp only [evolveMembers]
    rw [ih, evolveField_indexedFields]

theorem evolveFromDocument_indexedFields (p : Parsers) (schema : IndexSchema) (blob : JsonValue) :
    (schema.evolveFromDocument p blob).1.indexedFields = schema.indexedFields := by
  unfold evolveFromDocument
  split
  · exact evolveMembers_indexedFields p schema _
  · rfl

variable {p : Parsers} {schema : IndexSchema} {k : String}

theorem mem_evolveField (h : k ∈ schema.fields) (name : String) (value : JsonValue) :
    k ∈ (schema.evolveField p name value).1.fields := by
  rcases evolveField_cases p schema name value with h' | ⟨field, h', -⟩
  · rw [h']
    exact h
  · rw [h']
    exact ExtTreeMap.mem_insert.mpr (Or.inr h)

theorem mem_evolveFromDocument (h : k ∈ schema.fields) (blob : JsonValue) :
    k ∈ (schema.evolveFromDocument p blob).1.fields := by
  have members : ∀ (ms : List (String × JsonValue)) (schema : IndexSchema), k ∈ schema.fields →
      k ∈ (schema.evolveMembers p ms).1.fields := by
    intro ms
    induction ms with
    | nil => exact fun _ h => h
    | cons m rest ih => exact fun schema h => ih _ (mem_evolveField h m.1 m.2)
  unfold evolveFromDocument
  split
  · exact members _ _ h
  · exact h

end IndexSchema

end CameoDb
