import CameoDb.Lib.Text

/-! # Prefix clauses

A clause `field:pre*` is searched as the range of terms from the analyzed prefix to a bound above it. -/

namespace CameoDb

abbrev Analyzer := String → List String

def singleToken (analyzer : Analyzer) (text : String) : Option String :=
  match analyzer text with
  | [token] => some token
  | _ => none

def charFromU32 (code : Nat) : Option Char := if code.isValidChar then some (Char.ofNat code) else none

def maxCandidates : Nat := 64

/-- The first candidate above `code` that the analyzer leaves unchanged, in so many tries. Surrogates are no scalar
    values, so the successor of U+D7FF is U+E000. -/
def upperCandidate (analyzer : Analyzer) (head : List Char) : Nat → Nat → Option String
  | 0, _ => none
  | tries + 1, code =>
    let next := if code + 1 = 0xD800 then 0xE000 else code + 1
    match charFromU32 next with
    | none => none
    | some c =>
      let candidate := String.ofList (head ++ [c])
      if singleToken analyzer candidate = some candidate then some candidate
      else upperCandidate analyzer head tries next

def prefixUpperBound (analyzer : Analyzer) (term : String) : Option String :=
  match term.toList.getLast? with
  | none => none
  | some last => upperCandidate analyzer term.toList.dropLast maxCandidates last.toNat

inductive PrefixRewrite where
  | range (lower upper : String)
  | tooShort
  | unrewritable
  deriving DecidableEq, Repr

/-- A prefix clause as a range, counted after analysis and in characters against the least length. -/
def prefixRewrite (analyzer : Analyzer) (minPrefixLength : Nat) (term : String) : PrefixRewrite :=
  match singleToken analyzer term with
  | some lower =>
    if 0 < minPrefixLength && lower.length < minPrefixLength then .tooShort
    else
      match prefixUpperBound analyzer lower with
      | some upper => .range lower upper
      | none => .unrewritable
  | none => .unrewritable

end CameoDb
