import CameoDb.Lib.Bytes

/-! # `NOT` clauses

A `NOT` becomes `-leaf` beside something positive, and `(* -leaf)` where there is nothing. The query is scanned by
bytes. -/

namespace CameoDb

def isAsciiWhitespace (c : Char) : Bool := c ∈ [' ', '\t', '\n', '\x0c', '\r']

inductive NotContext where
  | bare
  | and
  | or
  | afterLeaf
  deriving DecidableEq

def isSign (c : Char) : Bool := c = '+' || c = '-'

/-- Whether a sign begins a leaf, by the bytes in front of it with the nearest first. -/
def signIsOccur (front : List Char) : Bool := front.head?.all fun c => isAsciiWhitespace c || c = '(' || c = ')'

/-- The context of a `NOT` from what stands in front of the white space before it. -/
def contextBefore : List Char → NotContext
  | [] => .bare
  | c :: rest =>
    if c = '(' then .bare
    else if isSign c then if signIsOccur rest then .bare else .afterLeaf
    else if c = ')' then .afterLeaf
    else
      let word := ((c :: rest).takeWhile fun c => !isAsciiWhitespace c && c ≠ '(' && c ≠ ')').reverse
      if word = "AND".toList then .and else if word = "OR".toList then .or else .afterLeaf

/-- The context of the `NOT` at a byte; none where it is not an operator. -/
def notContext (bytes : List Char) (i : Nat) : Option NotContext :=
  match (bytes.take i).reverse with
  | [] => some .bare
  | c :: rest =>
    if isAsciiWhitespace c || c = '(' then some (contextBefore ((c :: rest).dropWhile isAsciiWhitespace))
    else if isSign c then if signIsOccur rest then some .bare else none
    else none

/-! ### The leaf a `NOT` negates -/

def opensBracket (c : Char) : Bool := c = '(' || c = '[' || c = '{'

def closesBracket (c : Char) : Bool := c = ')' || c = ']' || c = '}'

structure BracketScan where
  i : Nat := 0
  escaped : Bool := false
  inQuote : Bool := false
  opened : List Nat := []
  pairs : List (Nat × Nat) := []

/-- One byte of the scan. A bracket not closed yet is paired with the query's length. -/
def bracketStep (n : Nat) (s : BracketScan) (c : Char) : BracketScan :=
  let s' := { s with i := s.i + 1 }
  if s.escaped then { s' with escaped := false }
  else if c = '\\' then { s' with escaped := true }
  else if s.inQuote then { s' with inQuote := c ≠ '"' }
  else if c = '"' then { s' with inQuote := true }
  else if opensBracket c then { s' with opened := s.pairs.length :: s.opened, pairs := s.pairs ++ [(s.i, n)] }
  else if closesBracket c then
    match s.opened with
    | [] => s'
    | k :: opened => { s' with opened := opened, pairs := s.pairs.modify k fun pair => (pair.1, s.i) }
  else s'

def bracketPairs (bytes : List Char) : List (Nat × Nat) := (bytes.foldl (bracketStep bytes.length) {}).pairs

/-- Bytes up to the end of a leaf, stepping over brackets, in so many steps; and whether a closing parenthesis ended
    it. -/
def leafLoop (bytes : List Char) (pairs : List (Nat × Nat)) : Nat → Nat → Bool → Nat × Bool
  | 0, i, _ => (i, false)
  | steps + 1, i, inQuote =>
    match bytes[i]? with
    | none => (i, false)
    | some c =>
      if c = '\\' then leafLoop bytes pairs steps (i + 2) inQuote
      else if inQuote then leafLoop bytes pairs steps (i + 1) (c ≠ '"')
      else if c = '"' then leafLoop bytes pairs steps (i + 1) true
      else if opensBracket c then
        let close := ((pairs.find? fun pair => pair.1 = i).map (·.2)).getD bytes.length
        leafLoop bytes pairs steps (close + 1) false
      else if c = ')' then (i, true)
      else if isAsciiWhitespace c then (i, false)
      else leafLoop bytes pairs steps (i + 1) false

/-- What follows the bracket that closes a set. -/
def setEnd (escaped quoted : Bool) : List Char → Option (List Char)
  | [] => none
  | c :: rest =>
    if escaped then setEnd false quoted rest
    else if c = '\\' then setEnd true quoted rest
    else if c = '"' then setEnd false (!quoted) rest
    else if c = ']' && !quoted then some rest
    else setEnd false quoted rest

def inSetEnd (bytes : List Char) (i : Nat) : Option Nat :=
  let rest := (bytes.drop i).dropWhile isAsciiWhitespace
  let set := (rest.drop 2).dropWhile isAsciiWhitespace
  if "IN".toList.isPrefixOf rest && set.head? = some '[' then
    match setEnd false false set with
    | some after => some (bytes.length - after.length)
    | none => some bytes.length
  else none

def notLeafEnd (bytes : List Char) (start : Nat) : Nat :=
  let (i, closed) := leafLoop bytes (bracketPairs bytes) (bytes.length + 1) start false
  if closed then i
  else
    -- A trailing backslash steps past the end.
    let i := min i bytes.length
    if i > start && bytes[i - 1]? = some ':' then (inSetEnd bytes i).getD i else i

/-! ### The rewrite -/

inductive NotForm where
  | group (leafEnd : Nat)
  | minus
  | and
  | nothing
  deriving DecidableEq

def NotForm.text : NotForm → List Char
  | group _ => "(* -".toList
  | minus => "-".toList
  | and => "AND ".toList
  | nothing => []

structure NotRun where
  start : Nat
  stop : Nat
  count : Nat
  form : NotForm
  deriving DecidableEq

def opensNot (bytes : List Char) : Bool := "NOT".toList.isPrefixOf bytes && (bytes.drop 3).head?.any isAsciiWhitespace

/-- The `NOT`s bytes begin with, counted, and what is left after them. -/
def skipNots : Nat → List Char → Nat × List Char
  | 0, rest => (0, rest)
  | steps + 1, rest =>
    let rest := rest.dropWhile isAsciiWhitespace
    if opensNot rest then
      let (count, left) := skipNots steps (rest.drop 3)
      (count + 1, left)
    else (0, rest)

def refusedLeaf (leaf : List Char) : Bool :=
  leaf.isEmpty || leaf ∈ ["AND".toList, "OR".toList, "NOT".toList, "IN".toList] || leaf.head?.any isSign

structure NotScan where
  i : Nat := 0
  inQuote : Bool := false
  valueDepth : Nat := 0
  groups : List Bool := []
  fieldGroups : Nat := 0

def notForm (context : NotContext) (count leafEnd : Nat) : NotForm :=
  if count % 2 = 0 then if context = .afterLeaf then .and else .nothing
  else if context = .and ∨ context = .afterLeaf then .minus
  else .group leafEnd

def readNot (query bytes : List Char) (s : NotScan) (context : NotContext) : Option (NotScan × Option NotRun) :=
  let (count, rest) := skipNots bytes.length (bytes.drop s.i)
  let stop := bytes.length - rest.length
  let leafEnd := notLeafEnd bytes stop
  (slice query stop leafEnd).map fun leaf =>
    let needsPositive := context = .bare ∨ context = .or
    if refusedLeaf leaf then ({ s with i := stop }, none)
    else if needsPositive ∧ s.fieldGroups > 0 ∧ count % 2 = 1 then ({ s with i := s.i + 1 }, none)
    else ({ s with i := stop }, some ⟨s.i, stop, count, notForm context count leafEnd⟩)

def scanByte (query bytes : List Char) (s : NotScan) (c : Char) : Option (NotScan × Option NotRun) :=
  let next := { s with i := s.i + 1 }
  if c = '\\' then some ({ s with i := s.i + 2 }, none)
  else if s.inQuote then some ({ next with inQuote := c ≠ '"' }, none)
  else if c = '"' then some ({ next with inQuote := true }, none)
  else if c = '[' ∨ c = '{' then some ({ next with valueDepth := s.valueDepth + 1 }, none)
  else if c = ']' ∨ c = '}' then some ({ next with valueDepth := s.valueDepth - 1 }, none)
  else if s.valueDepth ≠ 0 then some (next, none)
  else if c = '(' then
    let fieldGroup := s.i > 0 && bytes[s.i - 1]? = some ':'
    some ({ next with groups := fieldGroup :: s.groups, fieldGroups := s.fieldGroups + fieldGroup.toNat }, none)
  else if c = ')' then
    some ({ next with
      groups := s.groups.tail
      fieldGroups := if s.groups.head? = some true then s.fieldGroups - 1 else s.fieldGroups }, none)
  else if opensNot (bytes.drop s.i) then
    match notContext bytes s.i with
    | none => some (next, none)
    | some context => readNot query bytes s context
  else some (next, none)

/-- The text written so far, the byte copied up to, and the closing parentheses that are due, the nearest on top. -/
structure NotOutput where
  out : List Char := []
  copied : Nat := 0
  closes : List Nat := []

/-- The closing parentheses due up to a byte. -/
def closeUpTo (query : List Char) (i : Nat) (out : List Char) (copied : Nat) : List Nat → Option NotOutput
  | [] => some ⟨out, copied, []⟩
  | leafEnd :: closes =>
    if leafEnd ≤ i then (slice query copied leafEnd).bind fun part => closeUpTo query i
    (out ++ (part ++ [')'])) leafEnd closes else some ⟨out, copied, leafEnd :: closes⟩

def writeRun (query : List Char) (o : NotOutput) (run : NotRun) : Option NotOutput :=
  (slice query o.copied run.start).map fun part =>
    ⟨o.out ++ (part ++ run.form.text), run.stop,
      match run.form with
      | .group leafEnd => leafEnd :: o.closes
      | _ => o.closes⟩

def notLoop (query bytes : List Char) : Nat → NotScan → NotOutput → Option NotOutput
  | 0, _, _ => none
  | steps + 1, s, o =>
    match bytes[s.i]? with
    | none => some o
    | some c =>
      (closeUpTo query s.i o.out o.copied o.closes).bind fun o =>
        (scanByte query bytes s c).bind fun (s, run) =>
          match run with
          | none => notLoop query bytes steps s o
          | some run => (writeRun query o run).bind (notLoop query bytes steps s)

def normalizeNotClauses (query : List Char) : Option (List Char) :=
  if (findText "NOT".toList query).isNone then some query
  else
    let bytes := bytesOf query
    (notLoop query bytes (bytes.length + 1) {} {}).bind fun o =>
      (closeUpTo query bytes.length o.out o.copied o.closes).bind fun o =>
        if o.copied = 0 then some query else (splitBytes query o.copied).map fun parts => o.out ++ parts.2

end CameoDb
