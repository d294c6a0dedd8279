import CameoDb.Storage.Schema

/-! # The columns of an index and the documents built for them

`SchemaFields.document` builds for a write, which refuses a value its column cannot take, and for a replay, which
skips it. -/

namespace CameoDb
open Std

inductive StoreError where
  | redb
  | tantivy
  | io
  | serialization (message : String)
  | indexNotFound (message : String)
  | writerPanicked (index : String)
  | invalidFieldValue (field reason : String)
  deriving DecidableEq, Repr

inductive ColumnKind where
  | str
  | u64
  | i64
  | f64
  | bool
  | date
  | facet
  | bytes
  | json
  | ipAddr
  deriving DecidableEq, Repr

inductive IndexRecordOption where
  | basic
  | withFreqs
  | withFreqsAndPositions
  deriving DecidableEq, Repr

namespace IndexRecordOption

/-- The postings a text column keeps, by the name a schema declares. -/
def ofDeclared : Option String → IndexRecordOption
  | some "Basic" => basic
  | some "WithFreqs" => withFreqs
  | _ => withFreqsAndPositions

def name : IndexRecordOption → String
  | basic => "Basic"
  | withFreqs => "WithFreqs"
  | withFreqsAndPositions => "WithFreqsAndPositions"

end IndexRecordOption

/-- A column as the search index built it. Every column is indexed. -/
structure Column where
  kind : ColumnKind
  stored : Bool
  fast : Bool
  /-- Tokenizer and postings of a text column. -/
  analysis : Option (String × IndexRecordOption)
  deriving DecidableEq, Repr

/-- The columns of a built index besides `id`, which every index has. `seq` says whether the index was built
    with the `_seq` column of older builds. -/
structure SchemaFields where
  seq : Bool
  columns : ExtTreeMap String Column
  deriving DecidableEq

def FieldDef.column (field : FieldDef) : Column :=
  match field.fieldType with
  | .text =>
    ⟨.str, field.stored, field.isFast,
      some (field.tokenizer.getD "default", .ofDeclared field.indexRecordOption)⟩
  | .string => ⟨.str, false, field.isFast, some ("raw", .basic)⟩
  | .i64 => ⟨.i64, false, field.isFast, none⟩
  | .u64 => ⟨.u64, false, field.isFast, none⟩
  | .f64 => ⟨.f64, false, field.isFast, none⟩
  | .date => ⟨.date, false, field.isFast, none⟩
  | .boolean => ⟨.bool, false, false, none⟩
  | .bytes => ⟨.bytes, false, false, none⟩
  | .ip => ⟨.ipAddr, false, field.isFast, none⟩
  | .json => ⟨.json, false, false, none⟩
  | .facet => ⟨.facet, false, false, none⟩

def FieldDef.buildsColumn (name : String) (field : FieldDef) : Bool :=
  name != "id" && name != "_seq" && field.indexed && !field.isShadow

def createSchemaFromDefinition (schema : IndexSchema) : SchemaFields where
  seq := false
  columns := (schema.fields.filter FieldDef.buildsColumn).map fun _ field => field.column

/-- The definition a built column reads back as. -/
def Column.fieldDef (name : String) (column : Column) : FieldDef where
  name := name
  fieldType := match column.kind with
    | .str => .text
    | .u64 => .u64
    | .i64 => .i64
    | .f64 => .f64
    | .bool => .boolean
    | .date => .date
    | .bytes => .bytes
    | .json => .json
    | .ipAddr => .ip
    | .facet => .facet
  indexed := true
  stored := column.stored
  fast := some column.fast
  isShadow := false
  description := none
  tokenizer := column.analysis.map Prod.fst
  indexRecordOption := column.analysis.map fun analysis => analysis.2.name
  learned := false
  ghost := none

def deriveFieldsFromTantivy (fields : SchemaFields) : ExtTreeMap String FieldDef :=
  fields.columns.map Column.fieldDef

inductive TantivyValue where
  | str (s : String)
  | u64 (n : UInt64)
  | i64 (n : Int64)
  | f64 (bits : UInt64)
  | date (secs : Int)
  | bool (b : Bool)
  | bytes (bytes : List UInt8)
  | ip (address : BitVec 128)
  | facet (path : String)
  deriving DecidableEq, Repr

/-- A document of the search index: its id, its sequence where the index has that column, and every value
    beside the name of its column. -/
structure TantivyDocument where
  id : String
  seq : Option Nat
  values : List (String × TantivyValue)
  deriving DecidableEq, Repr

/-- What a value the field's type cannot hold should cost. -/
inductive BadValue where
  | refuse
  | skipAndWarn
  deriving DecidableEq, Repr

def writableType (declared : TantivyFieldType) (built : ColumnKind) : TantivyFieldType :=
  match declared, built with
  | .text, .str => .text
  | .string, .str => .string
  | .json, .str => .json
  | _, .str => .text
  | _, .json => .json
  | _, .i64 => .i64
  | _, .u64 => .u64
  | _, .f64 => .f64
  | _, .date => .date
  | _, .bool => .boolean
  | _, .bytes => .bytes
  | _, .ipAddr => .ip
  | _, .facet => .facet

def tantivyMinTimestampSecs : Int := -9223372036
def tantivyMaxTimestampSecs : Int := 9223372036

/-- A whole number of seconds since the epoch, clamped to what a date column holds. -/
def epochSecondsToTantivy (secs : Int) : Int :=
  max tantivyMinTimestampSecs (min secs tantivyMaxTimestampSecs)

section Values
variable (p : Parsers)

def notAByte (value : JsonValue) : String :=
  p.jsonText value ++ " is not a byte; every element of a bytes field is a whole number 0-255"

def badFacetPath (value : String) : String :=
  "'" ++ value ++ "' is not a facet path; a facet path begins with '/' and names its levels in order, as in " ++
  "'/electronics/phones'. Escape a literal slash inside a level as '\\/'"

def oneOrMany (value : JsonValue) : List JsonValue :=
  value.asArray.getD [value]

def textValues : List JsonValue → List TantivyValue
  | [] => []
  | .string s :: rest => .str s :: textValues rest
  | .null :: rest => textValues rest
  | other :: rest => .str (p.jsonText other) :: textValues rest

def byteValues (field : String) (bad : BadValue) : List JsonValue → List UInt8 → Except StoreError (List UInt8)
  | [], acc => .ok acc
  | item :: rest, acc =>
    match item.asU64 with
    | some n =>
      if n ≤ 255 then byteValues field bad rest (acc ++ [n.toUInt8])
      else match bad with
        | .refuse => .error (.invalidFieldValue field (notAByte p item))
        | .skipAndWarn => .ok []
    | none => match bad with
      | .refuse => .error (.invalidFieldValue field (notAByte p item))
      | .skipAndWarn => .ok []

def scalarValue (field : String) (fieldType : TantivyFieldType) (bad : BadValue) (value : JsonValue) :
    Except StoreError (Option TantivyValue) :=
  match fieldType with
  | .string => .ok (value.asStr.map .str)
  | .f64 => .ok (match value with
      | .number n => some (.f64 (p.asF64 n))
      | _ => none)
  | .i64 => .ok (value.asI64.map .i64)
  | .u64 => .ok (value.asU64.map .u64)
  | .date => .ok (match value with
      | .string s => (p.dateSecs s).map .date
      | _ => value.asI64.map fun n => .date (epochSecondsToTantivy n.toInt))
  | .boolean => .ok (value.asBool.map .bool)
  | .ip => .ok ((value.asStr.bind p.ipv6).map .ip)
  | .facet =>
    match value.asStr with
    | none => .ok none
    | some s =>
      match p.facet s with
      | some path => .ok (some (.facet path))
      | none =>
        match bad with
        | .refuse => .error (.invalidFieldValue field (badFacetPath s))
        | .skipAndWarn => .ok none
  -- Taken whole or as text before any value is looked at.
  | .text | .json | .bytes => .ok none

def scalarValues (field : String) (fieldType : TantivyFieldType) (bad : BadValue) :
    List JsonValue → Except StoreError (List TantivyValue)
  | [] => .ok []
  | value :: rest =>
    match scalarValue p field fieldType bad value with
    | .error e => .error e
    | .ok added =>
      match scalarValues field fieldType bad rest with
      | .error e => .error e
      | .ok more => .ok (added.toList ++ more)

def addJsonValueToDoc (field : String) (fieldType : TantivyFieldType) (value : JsonValue) (bad : BadValue) :
    Except StoreError (List TantivyValue) :=
  match fieldType with
  | .text => .ok (textValues p (oneOrMany value))
  | .json => .ok [.str (p.jsonText value)]
  | .bytes =>
    match value.asArray with
    | none => .ok []
    | some items =>
      match byteValues p field bad items [] with
      | .error e => .error e
      | .ok [] => .ok []
      | .ok bytes => .ok [.bytes bytes]
  | scalar => scalarValues p field scalar bad (oneOrMany value)

end Values

namespace SchemaFields
variable (p : Parsers) (fields : SchemaFields)

def writeType (name : String) (declared : TantivyFieldType) : TantivyFieldType :=
  match fields.columns[name]? with
  | some column => writableType declared column.kind
  | none => declared

def memberValues (schema : IndexSchema) (bad : BadValue) (name : String) (value : JsonValue) :
    Except StoreError (List (String × TantivyValue)) :=
  match schema.indexedFields[name]? with
  | none => .ok []
  | some declared =>
    if declared.isShadow || declared.isGhost then .ok []
    else if fields.columns.contains name then
      (addJsonValueToDoc p name (fields.writeType name declared.fieldType) value bad).map
        (·.map fun v => (name, v))
    else .ok []

def ghostValues (body : List (String × JsonValue)) (bad : BadValue) (name : String) (field : FieldDef) :
    Except StoreError (List (String × TantivyValue)) :=
  match field.ghost with
  | none => .ok []
  | some ghost =>
    match JsonValue.member? body ghost.source with
    | none => .ok []
    | some value =>
      if fields.columns.contains name && ghost.feeds body then
        (addJsonValueToDoc p name (fields.writeType name field.fieldType) value bad).map
          (·.map fun v => (name, v))
      else .ok []

def collect {α : Type} (f : α → Except StoreError (List (String × TantivyValue))) :
    List α → Except StoreError (List (String × TantivyValue))
  | [] => .ok []
  | a :: rest =>
    match f a with
    | .error e => .error e
    | .ok added => (collect f rest).map (added ++ ·)

/-- The values a body adds: its own members first, then the ghosts it feeds. -/
def bodyValues (schema : IndexSchema) (body : Option JsonValue) (bad : BadValue) :
    Except StoreError (List (String × TantivyValue)) :=
  match body.bind JsonValue.asObject with
  | none => .ok []
  | some members =>
    match collect (fun m => fields.memberValues p schema bad m.1 m.2) members with
    | .error e => .error e
    | .ok own =>
      (collect (fun f => fields.ghostValues p members bad f.1 f.2) schema.indexedFields.toList).map (own ++ ·)

def document (schema : IndexSchema) (id : String) (seq : Nat) (body : Option JsonValue) (bad : BadValue) :
    Except StoreError TantivyDocument :=
  (fields.bodyValues p schema body bad).map fun values =>
    ⟨id, if fields.seq then some seq else none, values⟩

end SchemaFields

/-- Whether a member under this name is kept out of the stored body. -/
def IndexSchema.isUnstored (schema : IndexSchema) (name : String) : Bool :=
  match schema.fields[name]? with
  | some field => field.isShadow || field.isGhost
  | none => false

/-- The body without its shadow and ghost fields. -/
def filterUnstoredFieldsOwned (schema : IndexSchema) : JsonValue → JsonValue
  | .object members => .object (members.filter fun m => !schema.isUnstored m.1)
  | value => value

/-! ### A replay builds what the write built -/

section Replay
variable {p : Parsers} {field : String} {fieldType : TantivyFieldType}

theorem byteValues_of_refuse {items : List JsonValue} {acc bytes : List UInt8}
    (h : byteValues p field .refuse items acc = .ok bytes) : byteValues p field .skipAndWarn items acc = .ok bytes := by
  induction items generalizing acc with
  | nil => exact h
  | cons item rest ih =>
    unfold byteValues at h ⊢
    split at h
    · split at h
      · next hle => simp only [hle, ↓reduceIte]; exact ih h
      · cases h
    · cases h

theorem byteValues_skip (items : List JsonValue) (acc : List UInt8) :
    ∃ bytes, byteValues p field .skipAndWarn items acc = .ok bytes := by
  induction items generalizing acc with
  | nil => exact ⟨acc, rfl⟩
  | cons item rest ih =>
    unfold byteValues
    split
    · split
      · exact ih _
      · exact ⟨[], rfl⟩
    · exact ⟨[], rfl⟩

variable {value : JsonValue} {vs : List TantivyValue}

theorem scalarValue_of_refuse {v : Option TantivyValue} (h : scalarValue p field fieldType .refuse value = .ok v) :
    scalarValue p field fieldType .skipAndWarn value = .ok v := by
  cases fieldType with
  | facet =>
    simp only [scalarValue] at h ⊢
    cases hv : value.asStr with
    | none => rw [hv] at h; exact h
    | some s =>
      rw [hv] at h
      cases hf : p.facet s with
      | none => simp [hf] at h
      | some path => simpa [hf] using h
  | _ => exact h

theorem scalarValue_skip (value : JsonValue) : ∃ v, scalarValue p field fieldType .skipAndWarn value = .ok v := by
  unfold scalarValue
  split <;> try exact ⟨_, rfl⟩
  split
  · exact ⟨_, rfl⟩
  · split <;> exact ⟨_, rfl⟩

theorem scalarValues_of_refuse {values : List JsonValue} (h : scalarValues p field fieldType .refuse values = .ok vs) :
    scalarValues p field fieldType .skipAndWarn values = .ok vs := by
  induction values generalizing vs with
  | nil => exact h
  | cons value rest ih =>
    unfold scalarValues at h ⊢
    split at h
    · cases h
    · next added hadded =>
      split at h
      · cases h
      · next more hmore =>
        simp only [scalarValue_of_refuse hadded, ih hmore]
        exact h

theorem scalarValues_skip (values : List JsonValue) :
    ∃ vs, scalarValues p field fieldType .skipAndWarn values = .ok vs := by
  induction values with
  | nil => exact ⟨[], rfl⟩
  | cons value rest ih =>
    obtain ⟨v, hv⟩ : ∃ v, scalarValue p field fieldType .skipAndWarn value = .ok v := scalarValue_skip value
    obtain ⟨vs, hvs⟩ := ih
    exact ⟨v.toList ++ vs, by simp only [scalarValues, hv, hvs]⟩

theorem addJsonValueToDoc_of_refuse (h : addJsonValueToDoc p field fieldType value .refuse = .ok vs) :
    addJsonValueToDoc p field fieldType value .skipAndWarn = .ok vs := by
  cases fieldType with
  | text => exact h
  | json => exact h
  | bytes =>
    simp only [addJsonValueToDoc] at h ⊢
    cases hv : value.asArray with
    | none => rw [hv] at h; exact h
    | some items =>
      rw [hv] at h
      simp only at h ⊢
      cases hb : byteValues p field .refuse items [] with
      | error e => rw [hb] at h; cases h
      | ok bytes => rw [byteValues_of_refuse hb]; rw [hb] at h; exact h
  | _ => exact scalarValues_of_refuse h

theorem addJsonValueToDoc_skip (value : JsonValue) :
    ∃ vs, addJsonValueToDoc p field fieldType value .skipAndWarn = .ok vs := by
  cases fieldType with
  | text => exact ⟨_, rfl⟩
  | json => exact ⟨_, rfl⟩
  | bytes =>
    unfold addJsonValueToDoc
    cases value.asArray with
    | none => exact ⟨[], rfl⟩
    | some items =>
      obtain ⟨bytes, hb⟩ : ∃ bytes, byteValues p field .skipAndWarn items [] = .ok bytes := byteValues_skip items []
      simp only [hb]
      cases bytes <;> exact ⟨_, rfl⟩
  | _ => exact scalarValues_skip _

end Replay

namespace SchemaFields
variable {p : Parsers} {fields : SchemaFields} {schema : IndexSchema}
  {vs : List (String × TantivyValue)} {α : Type} {name : String} {value : JsonValue} {body : Option JsonValue}

theorem collect_of_refuse {f g : α → Except StoreError (List (String × TantivyValue))}
    (hfg : ∀ a vs, f a = .ok vs → g a = .ok vs)
    {as : List α} (h : collect f as = .ok vs) : collect g as = .ok vs := by
  induction as generalizing vs with
  | nil => exact h
  | cons a rest ih =>
    unfold collect at h ⊢
    cases hf : f a with
    | error e => rw [hf] at h; cases h
    | ok added =>
      rw [hf] at h
      rw [hfg a added hf]
      cases hrest : collect f rest with
      | error e => simp [hrest, Except.map] at h
      | ok more =>
        rw [hrest] at h
        simp only [ih hrest]
        exact h

theorem collect_total {f : α → Except StoreError (List (String × TantivyValue))}
    (hf : ∀ a, ∃ vs, f a = .ok vs) (as : List α) : ∃ vs, collect f as = .ok vs := by
  induction as with
  | nil => exact ⟨[], rfl⟩
  | cons a rest ih =>
    obtain ⟨added, ha⟩ := hf a
    obtain ⟨more, hmore⟩ := ih
    exact ⟨added ++ more, by simp only [collect, ha, hmore, Except.map]⟩

theorem named_of_refuse {field : String} {fieldType : TantivyFieldType}
    (h : (addJsonValueToDoc p field fieldType value .refuse).map (·.map fun v => (name, v)) = .ok vs) :
    (addJsonValueToDoc p field fieldType value .skipAndWarn).map (·.map fun v => (name, v)) = .ok vs := by
  cases ha : addJsonValueToDoc p field fieldType value .refuse with
  | error e => simp [ha, Except.map] at h
  | ok added => rw [addJsonValueToDoc_of_refuse ha]; rw [ha] at h; exact h

theorem memberValues_of_refuse (h : fields.memberValues p schema .refuse name value = .ok vs) :
    fields.memberValues p schema .skipAndWarn name value = .ok vs := by
  unfold memberValues at h ⊢
  cases hf : schema.indexedFields[name]? with
  | none => rw [hf] at h; exact h
  | some declared =>
    rw [hf] at h
    simp only at h ⊢
    split at h
    · next hs => rw [if_pos hs]; exact h
    · next hs =>
      rw [if_neg hs]
      split at h
      · next hc => rw [if_pos hc]; exact named_of_refuse h
      · next hc => rw [if_neg hc]; exact h

theorem ghostValues_of_refuse {body : List (String × JsonValue)} {field : FieldDef}
    (h : fields.ghostValues p body .refuse name field = .ok vs) :
    fields.ghostValues p body .skipAndWarn name field = .ok vs := by
  unfold ghostValues at h ⊢
  cases hg : field.ghost with
  | none => rw [hg] at h; exact h
  | some ghost =>
    rw [hg] at h
    simp only at h ⊢
    cases hm : JsonValue.member? body ghost.source with
    | none => rw [hm] at h; exact h
    | some value =>
      rw [hm] at h
      simp only at h ⊢
      split at h
      · next hc => rw [if_pos hc]; exact named_of_refuse h
      · next hc => rw [if_neg hc]; exact h

theorem bodyValues_of_refuse (h : fields.bodyValues p schema body .refuse = .ok vs) :
    fields.bodyValues p schema body .skipAndWarn = .ok vs := by
  unfold bodyValues at h ⊢
  cases hb : body.bind JsonValue.asObject with
  | none => rw [hb] at h; exact h
  | some members =>
    rw [hb] at h
    simp only at h ⊢
    cases hown : collect (fun m => fields.memberValues p schema .refuse m.1 m.2) members with
    | error e => simp [hown] at h
    | ok own =>
      rw [hown] at h
      rw [collect_of_refuse (fun m vs => memberValues_of_refuse) hown]
      cases hgh : collect (fun f => fields.ghostValues p members .refuse f.1 f.2) schema.indexedFields.toList with
      | error e => simp [hgh, Except.map] at h
      | ok ghosts =>
        rw [hgh] at h
        simp only [collect_of_refuse (fun f vs => ghostValues_of_refuse) hgh]
        exact h

theorem bodyValues_skip (body : Option JsonValue) : ∃ vs, fields.bodyValues p schema body .skipAndWarn = .ok vs := by
  have named : ∀ (field : String) (ty : TantivyFieldType) (value : JsonValue) (name : String),
      ∃ vs, (addJsonValueToDoc p field ty value .skipAndWarn).map (·.map fun v => (name, v)) = .ok vs := by
    intro field ty value name
    obtain ⟨vs, hvs⟩ : ∃ vs, addJsonValueToDoc p field ty value .skipAndWarn = .ok vs := addJsonValueToDoc_skip value
    exact ⟨vs.map fun v => (name, v), by rw [hvs]; rfl⟩
  unfold bodyValues
  split
  · exact ⟨[], rfl⟩
  · next members _ =>
    obtain ⟨own, hown⟩ := collect_total (f := fun m => fields.memberValues p schema .skipAndWarn m.1 m.2)
      (fun m => by
        unfold memberValues
        split
        · exact ⟨[], rfl⟩
        · split
          · exact ⟨[], rfl⟩
          · split
            · exact named _ _ _ _
            · exact ⟨[], rfl⟩) members
    obtain ⟨ghosts, hgh⟩ := collect_total (f := fun f => fields.ghostValues p members .skipAndWarn f.1 f.2)
      (fun f => by
        unfold ghostValues
        split
        · exact ⟨[], rfl⟩
        · split
          · exact ⟨[], rfl⟩
          · split
            · exact named _ _ _ _
            · exact ⟨[], rfl⟩) schema.indexedFields.toList
    exact ⟨own ++ ghosts, by simp only [hown, hgh, Except.map]⟩

def rowValues (p : Parsers) (fields : SchemaFields) (indexed : ExtTreeMap String FieldDef) (body : Option JsonValue) :
    List (String × TantivyValue) :=
  match fields.bodyValues p { IndexSchema.default with fields := indexed } body .skipAndWarn with
  | .ok vs => vs
  | .error _ => []

theorem indexedFields_default (schema : IndexSchema) :
    ({ IndexSchema.default with fields := schema.indexedFields } : IndexSchema).indexedFields =
    schema.indexedFields := by
  unfold IndexSchema.indexedFields
  apply ExtTreeMap.ext_getElem?
  intro k
  simp only [ExtTreeMap.getElem?_filter']
  rw [Option.filter_filter]
  simp

def rowDocument (p : Parsers) (fields : SchemaFields) (indexed : ExtTreeMap String FieldDef) (id : String) (seq : Nat)
    (body : Option JsonValue) : TantivyDocument :=
  ⟨id, if fields.seq then some seq else none, fields.rowValues p indexed body⟩

theorem document_skip (id : String) (seq : Nat) (body : Option JsonValue) :
    fields.document p schema id seq body .skipAndWarn =
      .ok (fields.rowDocument p schema.indexedFields id seq body) := by
  have hsame : fields.bodyValues p { IndexSchema.default with fields := schema.indexedFields } body .skipAndWarn =
      fields.bodyValues p schema body .skipAndWarn := by
    simp only [bodyValues, memberValues, indexedFields_default]
  obtain ⟨vs, hvs⟩ : ∃ vs, fields.bodyValues p schema body .skipAndWarn = .ok vs := bodyValues_skip body
  simp only [document, rowDocument, rowValues, hsame, hvs, Except.map]

theorem document_refuse {id : String} {seq : Nat} {doc : TantivyDocument}
    (h : fields.document p schema id seq body .refuse = .ok doc) :
    doc = fields.rowDocument p schema.indexedFields id seq body := by
  have hskip : fields.document p schema id seq body .skipAndWarn =
      .ok (fields.rowDocument p schema.indexedFields id seq body) := document_skip id seq body
  unfold document at h hskip
  cases hb : fields.bodyValues p schema body .refuse with
  | error e => simp [hb, Except.map] at h
  | ok vs =>
    rw [bodyValues_of_refuse hb] at hskip
    rw [hb] at h
    exact Except.ok.inj (h.symm.trans hskip)

end SchemaFields

end CameoDb
