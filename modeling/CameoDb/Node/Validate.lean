import CameoDb.Storage.Document
import CameoDb.Lib.Decimal
import Mathlib.Data.List.Sort
import Mathlib.Data.List.DropRight

/-! # The check of a document before it is written

What a field can hold is the writer's to say, in `addJsonValueToDoc`; this is the same question, answered apart
before the write. -/

namespace CameoDb

def TantivyFieldType.debugName : TantivyFieldType → String
  | text => "Text"
  | string => "String"
  | i64 => "I64"
  | u64 => "U64"
  | f64 => "F64"
  | date => "Date"
  | boolean => "Boolean"
  | bytes => "Bytes"
  | ip => "Ip"
  | json => "Json"
  | facet => "Facet"

def JsonValue.isNumber : JsonValue → Bool
  | number _ => true
  | _ => false

/-! ### One field -/

section Field
variable (p : Parsers)

def typeMismatch (field : String) (declared : TantivyFieldType) (value : JsonValue) : String :=
  "Type mismatch for field '" ++ field ++ "': expected " ++ declared.debugName ++ ", got " ++
    (FieldDef.inferTypeFromValue p value).debugName

def splitOnce (c : Char) (text : List Char) : Option (List Char × List Char) :=
  (text.idxOf? c).map fun i => (text.take i, text.drop (i + 1))

def rsplitOnce (c : Char) (text : List Char) : Option (List Char × List Char) :=
  (splitOnce c text.reverse).map fun parts => (parts.2.reverse, parts.1.reverse)

def looksLikeCidr (text : String) : Bool :=
  match splitOnce '/' text.toList with
  | some (address, bits) => (Decimal.parse (2 ^ 8) bits).isSome && (p.ipv6 (String.ofList address)).isSome
  | none => false

def looksLikeAddressWithPort (text : String) : Bool :=
  match rsplitOnce ':' text.toList with
  | some (host, port) =>
    let bracket := fun c => c == '[' || c == ']'
    (Decimal.parse (2 ^ 16) port).isSome &&
      (p.ipv6 (String.ofList ((host.dropWhile bracket).rdropWhile bracket))).isSome
  | none => false

def ipMismatch (field : String) (value : JsonValue) : String :=
  let text := p.jsonText value
  let shown := if 80 < text.length then String.ofList (text.toList.take 80) ++ "…" else text
  let why := match value.asStr with
    | none => ""
    | some written =>
      if looksLikeCidr p (p.trim written) then
        " — a CIDR block is a query (`field:10.0.0.0/8`), not a value; write an address"
      else if looksLikeAddressWithPort p (p.trim written) then " — write the address without its port"
      else if p.trim written ≠ written then " — it has whitespace around it"
      else ""
  "field '" ++ field ++ "': " ++ shown ++ " is not an IPv4 or IPv6 address, which an ip field holds" ++ why

def byteValueError (value : JsonValue) : Option String :=
  match value.asU64 with
  | some n => if n ≤ 255 then none else some (notAByte p value)
  | none => some (notAByte p value)

def facetPathError (path : String) : Option String :=
  match p.facet path with
  | some _ => none
  | none => some (badFacetPath path)

def isDateValue : JsonValue → Bool
  | .string s => (p.dateSecs s).isSome
  | value => value.asI64.isSome

/-- Whether a field of a type can hold a single value. A number or a string is asked the writer's own question. -/
def scalarTypeIsStorable (declared : TantivyFieldType) (value : JsonValue) : Bool :=
  match declared with
  | .u64 => value.asU64.isSome
  | .i64 => value.asI64.isSome
  | .f64 => value.isNumber
  | .string => value.asStr.isSome
  | _ => declared = FieldDef.inferTypeFromValue p value

def manyShape : JsonValue → Option String
  | .array _ => some "a list"
  | .object _ => some "an object"
  | _ => none

def unstorableScalar (field : String) (declared : TantivyFieldType) (value : JsonValue) : Option String :=
  if value = .null then none
  else
    match manyShape value with
    | some shape =>
      some ("field '" ++ field ++ "': " ++ shape ++ " is not one value a " ++ declared.debugName ++
        " field can hold. A list " ++
        "under this field is several values of it, flattened one level — so the elements are the values, and a list or an " ++
        "object among them is not one")
    | none =>
      match declared with
      | .ip => if (value.asStr.bind p.ipv6).isSome then none else some (ipMismatch p field value)
      | .facet =>
        match value.asStr with
        | some path => (facetPathError p path).map fun why => "field '" ++ field ++ "': " ++ why
        | none => some (typeMismatch p field declared value)
      | .date => if isDateValue p value then none else some (typeMismatch p field declared value)
      | _ => if scalarTypeIsStorable p declared value then none else some (typeMismatch p field declared value)

def unstorableValue (field : String) (declared : TantivyFieldType) (value : JsonValue) : Option String :=
  if value = .null then none
  else
    match declared with
    | .text | .json => none
    | .bytes =>
      match value.asArray with
      | some items => (items.findSome? (byteValueError p)).map fun why => "field '" ++ field ++ "': " ++ why
      | none => some (typeMismatch p field declared value)
    | _ =>
      match value.asArray with
      | some items => items.findSome? (unstorableScalar p field declared)
      | none => unstorableScalar p field declared value

end Field

/-! ### The document -/

structure NodeParsers extends Parsers where
  /-- `Number::from_str`. -/
  number : String → Option JsonNumber

/-- Numbers compare as such: the two zeros of a double are one. -/
def JsonNumber.eqv : JsonNumber → JsonNumber → Bool
  | float a, float b => a = b || (a.toNat % 2 ^ 63 = 0 && b.toNat % 2 ^ 63 = 0)
  | a, b => a = b

structure SchemaValidationResult where
  needsEvolution : Bool
  newFields : List (String × TantivyFieldType)
  validationError : Option String

section Document
variable (p : NodeParsers)

/-- Whether a value written under a name for the document key is that key. -/
def namesIdentifier (value : JsonValue) (id : String) : Bool :=
  match value with
  | .string text => text = id
  | .number number => (p.number id).any fun writtenAs => writtenAs.eqv number
  | _ => false

def unusableDocumentIdentity (id : String) (doc : JsonValue) : Option String :=
  match doc.asObject with
  | none => some "Document body must be a JSON object"
  | some members =>
    if id = "" then
      some ("Document must be written with a non-empty 'id' beside its body: the identifier is the key it is stored, updated " ++
        "and looked up under. The body itself does not have to repeat it.")
    else
      (JsonValue.member? members "id").bind fun bodyId =>
        if namesIdentifier p bodyId id then none
        else some ("document is written under id=" ++ id ++ " but its body says id=" ++ p.jsonText bodyId ++
          ". The identifier " ++
          "beside the body is the key the document is stored under, so the two cannot differ: a later read would find this " ++
          "document as " ++ id ++ " and report " ++ p.jsonText bodyId ++
            ". Leave 'id' out of the body — it is supplied from " ++ "the key — or correct one of the two.")

def disagreeingShadowField (doc : JsonValue) (schema : IndexSchema) (id : String) : Option String :=
  if !schema.hasShadowFields then none
  else
    doc.asObject.bind fun members =>
      schema.shadowNames.findSome? fun name =>
        (JsonValue.member? members name).bind fun value =>
          if namesIdentifier p value id then none
          else some ("field '" ++ name ++
            "' is a shadow of 'id' and must carry the same value, but this document has " ++ name ++
            "=" ++ p.jsonText value ++ " and id=" ++ id ++
              ". A shadow field is a name for the identifier rather than a field of " ++
            "its own, so nothing would store " ++ p.jsonText value ++ " and a later read would report "
              ++ id ++ " under '" ++
            name ++ "'. Write the value under a different field name, or correct the identifier.")

/-- The first ghost a body names, in the order of the names. -/
def writtenGhostField (doc : JsonValue) (schema : IndexSchema) : Option String :=
  if !schema.hasGhostFields then none
  else
    doc.asObject.bind fun members =>
      let named := members.filterMap fun m => (schema.fields[m.1]?.bind FieldDef.ghost).map fun ghost => (m.1, ghost)
      (named.insertionSort fun a b => a.1 ≤ b.1).head?.map fun first =>
        "field '" ++ first.1 ++ "' is a ghost of '" ++ first.2.source ++
          "': its column is filled from '" ++ first.2.source ++
          "' and it is never stored, so a value written under it would be neither stored nor indexed. Write the text to '" ++
          first.2.source ++ "' instead"

/-- Every member of a body either fits what the schema declares, widens a field a write added, or is new. -/
def checkMembers (schema : IndexSchema) :
    List (String × JsonValue) → List (String × TantivyFieldType) → SchemaValidationResult
  | [], found => ⟨!found.isEmpty, found, none⟩
  | (key, value) :: rest, found =>
    if key = "id" then checkMembers schema rest found
    else
      match schema.fields[key]? with
      | some field =>
        match unstorableValue p.toParsers key field.fieldType value with
        | none => checkMembers schema rest found
        | some why =>
          if field.learned && !field.indexed then
            let widened := field.fieldType.widened (FieldDef.inferTypeFromValue p.toParsers value)
            let fits := (unstorableValue p.toParsers key widened value).isNone
            checkMembers schema rest (found ++ [(key, if fits then widened else .text)])
          else ⟨false, [], some why⟩
      | none => checkMembers schema rest (found ++ [(key, FieldDef.inferTypeFromValue p.toParsers value)])

def validateDocument (id : String) (doc : JsonValue) (schema : IndexSchema) : SchemaValidationResult :=
  match unusableDocumentIdentity p id doc with
  | some why => ⟨false, [], some why⟩
  | none =>
    match disagreeingShadowField p doc schema id with
    | some why => ⟨false, [], some why⟩
    | none =>
      match writtenGhostField doc schema with
      | some why => ⟨false, [], some why⟩
      | none => checkMembers p schema (doc.asObject.getD []) []

end Document

end CameoDb
