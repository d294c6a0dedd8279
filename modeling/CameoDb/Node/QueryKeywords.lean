import CameoDb.Lib.Decimal
import CameoDb.Lib.Words
import CameoDb.Storage.SearchKeys

/-! # Inline modifiers

A query may carry modifiers after its text: `return`, `limit`, `offset`, `sort`, `array` and `matches`. A keyword
counts only where it opens a run of clauses that reaches the end of the query. -/

namespace CameoDb

/-- The letters and digits of Unicode; in ASCII they are known. -/
structure Alphanumeric where
  holds : Char → Bool
  ascii : ∀ c, c.toNat < 128 → holds c = c.isAlphanum

structure QueryModifiers where
  query : String := ""
  limit : Option Nat := none
  offset : Option Nat := none
  fields : Option (List String) := none
  sort : Option SortSpec := none
  array : Option Nat := none
  matches_ : Option Bool := none
  deriving DecidableEq

def modifierKeywords : List String := ["return", "limit", "offset", "sort", "array", "matches"]

def parseUsize (token : String) : Option Nat := Decimal.parse (2 ^ 64) token.toList

def parseSwitch (token : String) : Option Bool :=
  if token = "on" ∨ token = "true" then some true
  else if token = "off" ∨ token = "false" then some false
  else none

section Keywords
variable (alphanumeric : Alphanumeric)

def isFieldName (name : List Char) : Bool :=
  !name.isEmpty && name.all fun c => alphanumeric.holds c || c = '_' || c = '.' || c = '-'

def parseSortSpec (token : String) : Option SortSpec :=
  let field := token.toList.takeWhile (· ≠ ':')
  let order :=
    match token.toList.dropWhile (· ≠ ':') with
    | [] => some SortOrder.asc
    | _ :: suffix =>
      if suffix.map Char.toLower = "asc".toList then some .asc
      else if suffix.map Char.toLower = "desc".toList then some .desc
      else none
  match order with
  | none => none
  | some order => if isFieldName alphanumeric field then some ⟨String.ofList field, order⟩ else none

def commaBetween (token next : String) : Bool := token.toList.getLast? = some ',' || next.toList.head? = some ','

def commasBetween : List String → Bool
  | token :: next :: rest => commaBetween token next && commasBetween (next :: rest)
  | _ => true

def parseFieldList (tokens : List String) : Option (List String) :=
  if tokens.isEmpty || !commasBetween tokens then none
  else
    let names := ((tokens.flatMap fun token => token.toList.splitOn ',').map trimChars).filter fun name => !name.isEmpty
    if names.all (isFieldName alphanumeric) && !names.isEmpty then some (names.map String.ofList) else none

def argument {α : Type} (parse : String → Option α) (set : α → QueryModifiers) (rest : List String) :
    Option (QueryModifiers × List String) :=
  match rest with
  | [] => none
  | token :: rest => (parse token).map fun value => (set value, rest)

def modifierClause (run : QueryModifiers) : List String → Option (QueryModifiers × List String)
  | [] => none
  | keyword :: rest =>
    if keyword = "limit" ∧ run.limit = none then argument parseUsize (fun n => { run with limit := some n }) rest
    else if keyword = "offset" ∧ run.offset = none then
      argument parseUsize (fun n => { run with offset := some n }) rest
    else if keyword = "array" ∧ run.array = none then argument parseUsize (fun n => { run with array := some n }) rest
    else if keyword = "matches" ∧ run.matches_ = none then
      argument parseSwitch (fun b => { run with matches_ := some b }) rest
    else if keyword = "sort" ∧ run.sort = none then
      argument (parseSortSpec alphanumeric) (fun spec => { run with sort := some spec }) rest
    else if keyword = "return" ∧ run.fields = none then
      -- The list runs to the next keyword, since only a keyword can end it.
      (parseFieldList alphanumeric (rest.takeWhile (· ∉ modifierKeywords))).map fun names =>
        ({ run with fields := some names }, rest.dropWhile (· ∉ modifierKeywords))
    else none

/-- Clauses until the tokens are used up, in so many steps. -/
def modifierLoop : Nat → QueryModifiers → List String → Option QueryModifiers
  | _, run, [] => some run
  | 0, _, _ :: _ => none
  | steps + 1, run, token :: others =>
    match modifierClause alphanumeric run (token :: others) with
    | none => none
    | some (run, rest) => modifierLoop steps run rest

/-- Tokens as an unbroken run of clauses, in any order and at most one of each. Each clause takes at least its
    keyword. -/
def parseModifierRun (tokens : List String) : Option QueryModifiers := modifierLoop alphanumeric tokens.length {} tokens

/-- The first of the given places that opens a run. -/
def firstRun (tokens : List String) : List Nat → Option (Nat × QueryModifiers)
  | [] => none
  | start :: others =>
    match tokens[start]? with
    | none => none
    | some token =>
      if token ∈ modifierKeywords then
        match parseModifierRun alphanumeric (tokens.drop start) with
        | some run => some (start, run)
        | none => firstRun tokens others
      else firstRun tokens others

def tokensOf (chars : List Char) : List String := (splitWhitespace chars).map String.ofList

/-- A query split from the modifiers at its end. -/
def parseQueryKeywords (query : String) : QueryModifiers :=
  let tokens := tokensOf query.toList
  match firstRun alphanumeric tokens (List.range' 1 (tokens.length - 1)) with
  | some (start, run) => { run with query := String.ofList (joinSpaces ((tokens.take start).map String.toList)) }
  | none => { query := query }

end Keywords

end CameoDb
