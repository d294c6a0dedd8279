import CameoDb.Lib.Text

/-! # Which elements of an array a clause matched

A phrase clause is matched on one element by the tokens of its text, each with its position. -/

namespace CameoDb

/-- A token as the analyzer streams it: its position and its text. -/
abbrev Token := Nat × String

/-- Whether a token is the term at a place of a phrase; the last may be a prefix. -/
def isTerm (terms : List String) (lastPrefix : Bool) (place : Nat) (text : String) : Bool :=
  match terms[place]? with
  | some term => if lastPrefix && place = terms.length - 1 then startsWith text term else text = term
  | none => false

def firstFrom (test : Token → Bool) : List Token → Option (Token × List Token)
  | [] => none
  | token :: rest => if test token then some (token, rest) else firstFrom test rest

def followedBy (terms : List String) (slop : Nat) (lastPrefix : Bool) (previous : Nat) (rest : List Token) :
    List Nat → Bool
  | [] => true
  | place :: places =>
    let reach := previous + 1 + slop
    match firstFrom (fun token => previous < token.1 && token.1 ≤ reach &&
      isTerm terms lastPrefix place token.2) rest with
    | none => false
    | some (token, rest) => followedBy terms slop lastPrefix token.1 rest places

/-- Whether `found` holds `terms` as a phrase: in order, each within `slop` positions of the one before. There is no
    last term of no terms: the index is out of range. -/
def holdsPhrase (found : List Token) (terms : List String) (slop : Nat) (lastPrefix : Bool) : Option Bool :=
  if terms = [] then none
  else
    some (found.tails.any fun
      | [] => false
      | (position, text) :: rest =>
        isTerm terms lastPrefix 0 text &&
          followedBy terms slop lastPrefix position rest (List.range' 1 (terms.length - 1)))

/-- A term, a phrase or a phrase whose last word is a prefix, as a test on the tokens of one element. Most elements
    lack the first word, which is looked for before the phrase is. -/
def tokensMatch (found : List Token) (terms : List String) (slop : Nat) (lastPrefix : Bool) : Option Bool :=
  match terms with
  | [] => if found = [] then some false else none
  | [term] => some (found.any fun token => if lastPrefix then startsWith token.2 term else token.2 = term)
  | first :: _ => if found.any fun token => token.2 = first then holdsPhrase found terms slop lastPrefix else some false

end CameoDb
