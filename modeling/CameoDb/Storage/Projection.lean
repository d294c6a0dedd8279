import CameoDb.Lib.Text
import CameoDb.Storage.Json

/-! # Capping the arrays of a hit

Every array under a key of the document's own is cut to so many elements, and each that lost some is named with its
length. -/

namespace CameoDb

def truncatedArraysField : String := "_truncated_arrays"

def matchedElementsField : String := "_matched_elements"

def elementPath (path : String) (position : Nat) : String := path ++ "[" ++ toString position ++ "]"

def memberPath (path key : String) : String := path ++ "." ++ key

mutual

/-- A value with its arrays cut, and the paths and lengths of those that were: dotted through objects, `[i]` through
    elements. -/
def capValue (max : Nat) : String → JsonValue → JsonValue × List (String × Nat)
  | path, .array items =>
    let kept := capItems max path 0 items
    (.array kept.1, (if max < items.length then [(path, items.length)] else []) ++ kept.2)
  | path, .object members =>
    let kept := capMembers max path members
    (.object kept.1, kept.2)
  | _, value => (value, [])

/-- The elements below the cap, each capped in turn. -/
def capItems (max : Nat) (path : String) : Nat → List JsonValue → List JsonValue × List (String × Nat)
  | _, [] => ([], [])
  | position, item :: rest =>
    if position < max then
      let first := capValue max (elementPath path position) item
      let others := capItems max path (position + 1) rest
      (first.1 :: others.1, first.2 ++ others.2)
    else ([], [])

def capMembers (max : Nat) (path : String) : List (String × JsonValue) → List (String × JsonValue) × List (String × Nat)
  | [] => ([], [])
  | (key, item) :: rest =>
    let first := capValue max (memberPath path key) item
    let others := capMembers max path rest
    ((key, first.1) :: others.1, first.2 ++ others.2)

end

section Lead
variable {α : Type}

def leadFrom (max : Nat) : List Nat → List (Option α) → List α → List α
  | [], slots, kept => kept ++ (slots.filterMap id).take (max - kept.length)
  | position :: rest, slots, kept =>
    if kept.length = max then kept
    else
      match slots[position]? with
      | some (some item) => leadFrom max rest (slots.set position none) (kept ++ [item])
      | _ => leadFrom max rest slots kept

/-- Elements cut to so many: those at the positions first, in that order, then the rest in stored order. -/
def leadWith (items : List α) (positions : List Nat) (max : Nat) : List α := leadFrom max positions (items.map some) []

end Lead

/-- An entry of the account, kept where a first pass already made one. -/
def orInsert (account : List (String × JsonValue)) (entry : String × JsonValue) : List (String × JsonValue) :=
  if (account.lookup entry.1).isSome then account else account ++ [entry]

def replaceMember (members : List (String × JsonValue)) (key : String) (value : JsonValue) :
    List (String × JsonValue) :=
  members.map fun member => if member.1 = key then (key, value) else member

def record (members : List (String × JsonValue)) (key : String) (entries : List (String × JsonValue)) :
    List (String × JsonValue) :=
  if entries.isEmpty then members
  else
    match members.lookup key with
    | some (.object account) => replaceMember members key (.object (entries.foldl orInsert account))
    | some _ => members
    | none => members ++ [(key, .object (entries.foldl orInsert []))]

def jsonUsize (n : Nat) : JsonValue := .number (.posInt (UInt64.ofNat n))

/-- What becomes of one member of a document: its value, the arrays cut in it, and the positions that lead it. -/
structure CappedMember where
  value : JsonValue
  truncated : List (String × Nat)
  matched : List (String × List Nat)

def capMember (max : Nat) (leading : String → Option (List Nat)) (key : String) (value : JsonValue) : CappedMember :=
  if startsWith key "_" then ⟨value, [], []⟩
  else
    let plain := capValue max key value
    match value, leading key with
    | .array items, some positions =>
      if max < items.length ∧ positions ≠ [] then
        let led := capValue max key (.array (leadWith items positions max))
        -- All of the positions for an array cut to nothing, where they are the whole answer.
        let shown := if max = 0 then positions.length else min positions.length max
        ⟨led.1, (key, items.length) :: led.2, [(key, positions.take shown)]⟩
      else ⟨plain.1, plain.2, []⟩
    | _, _ => ⟨plain.1, plain.2, []⟩

def capDocumentArraysLeading (max : Nat) (leading : String → Option (List Nat)) : JsonValue → JsonValue
  | .object members =>
    let capped := members.map fun member => (member.1, capMember max leading member.1 member.2)
    let truncated := capped.flatMap fun member => member.2.truncated
    let matched := capped.flatMap fun member => member.2.matched
    let kept := capped.map fun member => (member.1, member.2.value)
    let kept := record kept truncatedArraysField (truncated.map fun entry => (entry.1, jsonUsize entry.2))
    .object (record kept matchedElementsField (matched.map fun entry => (entry.1, .array (entry.2.map jsonUsize))))
  | doc => doc

def capDocumentArrays (max : Nat) (doc : JsonValue) : JsonValue := capDocumentArraysLeading max (fun _ => none) doc

end CameoDb
