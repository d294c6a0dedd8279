import CameoDb.Lib.Words
import CameoDb.Storage.NotClauses

/-! # How deep a query nests

Each group is a level until it is closed, and each `NOT` one until the leaf it negates ends. A query past the limit
is refused before anything parses it. -/

namespace CameoDb

def maxQueryDepth : Nat := 64

/-- Where the scan is: for each open group the levels it added, and the `NOT`s that wait for their leaf. -/
structure DepthScan where
  groups : List Nat := []
  depth : Nat := 0
  pending : Nat := 0
  inTerm : Bool := false
  inQuote : Bool := false
  valueDepth : Nat := 0
  deepest : Nat := 0

/-- One byte of the scan with the bytes after it, and how many of those are passed over. -/
def depthByte (s : DepthScan) (c : Char) (rest : List Char) : DepthScan × Nat :=
  if c = '\\' then ({ s with inTerm := true }, 1)
  else if s.inQuote then ({ s with inQuote := c ≠ '"' }, 0)
  else if c = '"' then ({ s with inQuote := true, inTerm := true }, 0)
  else if c = '[' ∨ c = '{' then ({ s with valueDepth := s.valueDepth + 1, inTerm := true }, 0)
  else if c = ']' ∨ c = '}' then ({ s with valueDepth := s.valueDepth - 1 }, 0)
  else if s.valueDepth > 0 then (s, 0)
  else if c = '(' then
    let added := 1 + s.pending
    ({ s with
        groups := added :: s.groups, depth := s.depth + added, deepest := max s.deepest (s.depth + added), pending := 0,
        inTerm := false }, 0)
  else if c = ')' then
    ({ s with groups := s.groups.tail, depth := s.depth - s.groups.headD 0, pending := 0, inTerm := false }, 0)
  else if isAsciiWhitespace c then (if s.inTerm then { s with pending := 0, inTerm := false } else s, 0)
  -- A sign belongs to the leaf after it, which may be a `NOT`.
  else if isSign c ∧ s.inTerm = false then (s, 0)
  else if s.inTerm = false ∧ opensNot (c :: rest) then
    ({ s with pending := s.pending + 1, deepest := max s.deepest (s.depth + (s.pending + 1)) }, 2)
  else ({ s with inTerm := true }, 0)

def depthLoop : Nat → DepthScan → List Char → Nat
  | 0, s, _ => s.deepest
  | _ + 1, s, [] => s.deepest
  | steps + 1, s, c :: rest => depthLoop steps (depthByte s c rest).1 (rest.drop (depthByte s c rest).2)

def queryDepth (query : List Char) : Nat := depthLoop (bytesOf query).length {} (bytesOf query)

/-- White space the grammar cannot skip becomes a blank. -/
def foldUntokenizableWhitespace (query : List Char) : List Char :=
  query.map fun c => if isWhiteSpace c && !([' ', '\t', '\n', '\r'].contains c) then ' ' else c

/-- The first passes over a query: one that nests too deep is refused, and the `NOT`s of any other are rewritten. -/
def guardQuery (query : List Char) : Except String (Option (List Char)) :=
  let query := foldUntokenizableWhitespace query
  let depth := queryDepth query
  if depth > maxQueryDepth then
    .error s!"query nests {depth} levels deep, past the limit of {maxQueryDepth}; each parenthesised group and each NOT is a level"
  else .ok (normalizeNotClauses query)

end CameoDb
