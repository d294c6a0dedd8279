import CameoDb.Storage.Store
import CameoDb.Lib.BooleanQuery

/-! # What a delete by query removes from one shard

A query is screened: clauses match a value exactly, and on a text field only a required phrase is allowed, checked
against the rows. -/

namespace CameoDb
open Std Crash

/-! ### The query as the grammar reads it -/

inductive Delimiter where
  | singleQuotes
  | doubleQuotes
  | none
deriving DecidableEq

structure UserInputLiteral where
  fieldName : Option String
  phrase : String
  delimiter : Delimiter
  slop : Nat
  isPrefix : Bool

inductive UserInputBound where
  | inclusive (value : String)
  | exclusive (value : String)
  | unbounded
deriving DecidableEq

inductive UserInputLeaf where
  | literal (l : UserInputLiteral)
  | all
  | range (field : Option String) (lower upper : UserInputBound)
  | set (field : Option String) (elements : List String)
  | exists_ (field : String)
  | regex (field : Option String)

abbrev UserInputAst := BooleanQuery UserInputLeaf

def UserInputLeaf.field? : UserInputLeaf → Option String
  | .literal l => l.fieldName
  | .all => none
  | .range field _ _ | .set field _ | .regex field => field
  | .exists_ field => some field

inductive QueryParserError where
  | syntaxError (message : String)
  | unsupportedQuery (message : String)
deriving DecidableEq

def refused (reason : String) : QueryParserError :=
  .unsupportedQuery ("not a query a delete can run, so nothing was deleted: " ++ reason)

/-! ### The screen -/

structure ExactText where
  field : String
  value : String
deriving DecidableEq

/-- What kind of field a clause names, as far as a delete is concerned: the document key or a shadow of it, a field
    the index matches exactly, or analyzed text. -/
inductive DeleteKind where
  | key
  | exact
  | text
deriving DecidableEq

def IndexSchema.deleteKind (schema : IndexSchema) (field : String) : Except QueryParserError DeleteKind :=
  if field = "id" || schema.isShadowField field then .ok .key
  else
    match schema.fields[field]? with
    | none => .error (refused (field ++ " is not a field of this index"))
    | some defn =>
      if defn.isGhost then
        .error (refused (field ++ " is a ghost field, an analyzed column of another field; match the source"))
      else if !defn.indexed then .error (refused (field ++ " is not indexed, so nothing can match it"))
      else
        match defn.fieldType with
        | .string | .i64 | .u64 | .f64 | .date | .ip | .boolean => .ok .exact
        | .text => .ok .text
        | .json | .bytes | .facet =>
          .error (refused (field ++ " is a " ++ defn.fieldType.name ++ " field, which a delete does not match"))

def endsWithStar (text : String) : Bool := text.toList.getLast? == some '*'

def trimStars (text : String) : String := String.ofList (text.toList.reverse.dropWhile (· == '*')).reverse

structure Screen where
  found : List ExactText
  positive : Nat
deriving DecidableEq

namespace Screen

def screenLiteral (schema : IndexSchema) (screen : Screen) (literal : UserInputLiteral) (negated required : Bool) :
    Except QueryParserError Screen :=
  match literal.fieldName with
  | none =>
    .error (refused ("'" ++ literal.phrase ++ "' names no field; a delete matches named fields only, as field:value"))
  | some field =>
    if literal.isPrefix || endsWithStar literal.phrase then
      .error (refused (field ++ ":" ++ trimStars literal.phrase ++ "* is a prefix; a delete matches whole values only"))
    else if 0 < literal.slop then
      .error (refused (field ++ ":\"" ++ literal.phrase ++ "\"~" ++ toString literal.slop ++
        " is a phrase with slop; a delete matches whole values only"))
    else
      match schema.deleteKind field with
      | .error e => .error e
      | .ok .key | .ok .exact => .ok screen
      | .ok .text =>
        if literal.delimiter ≠ .doubleQuotes then
          .error (refused (field ++
            " is a text field, matched in a delete only as a quoted phrase equal to the whole value: " ++
            field ++ ":\"" ++ literal.phrase ++ "\""))
        else if negated || !required then
          .error (refused ("the text clause on " ++ field ++
            " must be required — joined to the rest with AND, not negated or " ++
            "one alternative of an OR — so each match can be checked against the stored value"))
        else .ok { screen with found := screen.found ++ [⟨field, literal.phrase⟩] }

def screenLeaf (schema : IndexSchema) (screen : Screen) (leaf : UserInputLeaf) (negated required : Bool) :
    Except QueryParserError Screen :=
  match leaf with
  | .literal l => screen.screenLiteral schema l negated required
  | .range field _ _ =>
    let field := field.getD "*"
    match schema.deleteKind field with
    | .error e => .error e
    | .ok .exact => .ok screen
    | .ok .key =>
      .error (refused ("a range on " ++ field ++ ", the document key, is not allowed; name the ids, as " ++
        field ++ ": IN [a b]"))
    | .ok .text => .error (refused ("a range on " ++ field ++ ", a text field, matches analyzed terms, not values"))
  | .set field _ =>
    let field := field.getD "*"
    match schema.deleteKind field with
    | .error e => .error e
    | .ok .key | .ok .exact => .ok screen
    | .ok .text => .error (refused ("an IN set on " ++ field ++ ", a text field, matches analyzed terms, not values"))
  | .all => .error (refused "'*' matches every document; name what to delete, or drop the index")
  | .exists_ field => .error (refused ("a presence test on " ++ field ++ " is not a value to match"))
  | .regex field => .error (refused ("a regex on " ++ field.getD "a field" ++ " matches patterns, not values"))

mutual

def node (schema : IndexSchema) (screen : Screen) : UserInputAst → Bool → Bool → Except QueryParserError Screen
  | .clause clauses, negated, _ => nodes schema screen clauses negated
  | .boost inner, negated, required => node schema screen inner negated required
  | .leaf leaf, negated, required =>
    match screen.screenLeaf schema leaf negated required with
    | .error e => .error e
    | .ok screen => .ok (if negated then screen else { screen with positive := screen.positive + 1 })

def nodes (schema : IndexSchema) (screen : Screen) :
    List (Option Occur × UserInputAst) → Bool → Except QueryParserError Screen
  | [], _ => .ok screen
  | (occur, clause) :: rest, negated =>
    match node schema screen clause (negated || occur = some .mustNot) false with
    | .error e => .error e
    | .ok screen => nodes schema screen rest negated

end

/-- The members of the outer group, of which the `AND`ed ones are required, and the one member of a group of one. -/
def outer (schema : IndexSchema) (alone : Bool) :
    Screen → List (Option Occur × UserInputAst) → Except QueryParserError Screen
  | screen, [] => .ok screen
  | screen, (occur, clause) :: rest =>
    let negated : Bool := occur = some .mustNot
    match screen.node schema clause negated (!negated && (occur = some .must || alone)) with
    | .error e => .error e
    | .ok screen => outer schema alone screen rest

end Screen

def unboost : UserInputAst → UserInputAst
  | .boost inner => unboost inner
  | other => other

/-- Refuses what a delete cannot run, and returns the text clauses to check against stored values. -/
def screenQuery (schema : IndexSchema) (ast : UserInputAst) : Except QueryParserError (List ExactText) :=
  let screened := match unboost ast with
    | .clause clauses => Screen.outer schema (clauses.length = 1) ⟨[], 0⟩ clauses
    | other => Screen.node schema ⟨[], 0⟩ other false true
  match screened with
  | .error e => .error e
  | .ok screen =>
    if screen.positive = 0 then
      .error (refused "it names nothing to match — a delete needs at least one clause that is not negated")
    else .ok screen.found

/-! ### The search -/

/-- A query ready to run: the tree the parser is handed, and what was noted of clauses that were dropped, such as
    those on a field the index has no column for. -/
structure PreparedQuery (fields : SchemaFields) where
  ast : UserInputAst
  discarded : List String
  resolved : discarded = [] → ∀ e ∈ ast.leaves false, ∀ name, e.2.field? = some name → name = "id" ∨
    name ∈ fields.columns

/-- What the query engine does with a query: how it is read, and when a clause on one column matches, which for the
    columns that are not analyzed is a matter of single values. -/
structure QueryEnv where
  prepare (fields : SchemaFields) (schema : IndexSchema) (query : String) : Except QueryParserError
    (PreparedQuery fields)
  ofValue : ColumnKind → UserInputLeaf → TantivyValue → Bool
  ofText : Column → UserInputLeaf → TantivyDocument → Bool

def Column.termExact (column : Column) : Bool :=
  match column.kind with
  | .str => column.analysis.map Prod.fst = some "raw"
  | .u64 | .i64 | .f64 | .bool | .date | .ipAddr => true
  | .facet | .bytes | .json => false

def QueryEnv.leafHit (q : QueryEnv) (fields : SchemaFields) (doc : TantivyDocument) (leaf : UserInputLeaf) : Bool :=
  match leaf.field? with
  | none => false
  | some name =>
    if name = "id" then q.ofValue .str leaf (.str doc.id)
    else
      match fields.columns[name]? with
      | none => false
      | some column =>
        if column.termExact then doc.values.any fun v => v.1 = name && q.ofValue column.kind leaf v.2
        else q.ofText column leaf doc

/-! ### The matches -/

/-- What a delete by query found on one shard: the ids to delete, in index order, and how many candidates a text
    clause turned away. -/
structure DeleteMatches where
  ids : List String
  skippedInexact : Nat
deriving DecidableEq

def holdsExactly (body : JsonValue) (clause : ExactText) : Bool :=
  match body.asObject.bind (JsonValue.member? · clause.field) with
  | some (.string value) => value = clause.value
  | some (.array items) => items.any fun item => item.asStr = some clause.value
  | _ => false

/-- The ids narrowed to the documents whose stored values equal every required text clause. -/
def keepExact (data : ExtTreeMap String (Option JsonValue)) (exact : List ExactText) : List String → DeleteMatches
  | [] => ⟨[], 0⟩
  | id :: rest =>
    let kept := keepExact data exact rest
    match data[id]? with
    -- A row deleted since the commit has nothing left to delete.
    | none => kept
    | some body =>
      if exact.all (holdsExactly (body.getD .null)) then { kept with ids := id :: kept.ids }
      else { kept with skippedInexact := kept.skippedInexact + 1 }

def deleteQueryMatches (q : QueryEnv) (query : String) : StoreM (Except QueryParserError DeleteMatches) := do
  let dir ← Prog.gets Store.dir
  match dir with
  | .built index => do
    Prog.touch .tantivy
    let schema ← getSchemaCached
    let schema := schema.getD .default
    match q.prepare index.fields schema query with
    | .error e => pure (.error e)
    | .ok prepared =>
      match screenQuery schema prepared.ast with
      | .error e => pure (.error e)
      | .ok exact =>
        if prepared.discarded ≠ [] then
          pure (.error (refused ("a clause was dropped, and a dropped clause can widen what a delete removes — " ++
            String.intercalate "; " prepared.discarded)))
        else do
          Prog.touch .tantivy
          let ids := (index.docs.filter fun doc =>
            prepared.ast.selects (q.leafHit index.fields doc)).map TantivyDocument.id
          if exact.isEmpty then pure (.ok ⟨ids, 0⟩)
          else do
            let t ← beginRead
            pure (.ok (keepExact t.data exact ids))
  -- A shard that holds no part of the index has nothing to delete.
  | _ => pure (.ok ⟨[], 0⟩)

end CameoDb
