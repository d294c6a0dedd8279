import CameoDb.Node.Search

/-! # Searching several indexes at once

Each named index is searched on its own. The answers are merged as they come, then explained, then cut to the
largest message. -/

namespace CameoDb.Mcp

def namesAMissingField (error : String) : Bool :=
  ["does not exist", "FieldDoesNotExist", "unknown field", "not declared as indexed", "no column of that name"].any
    fun signal =>
    signal.toList <:+: error.toList

/-- Why an index was not searched: the error's text, what a caller is told of it, and the correction that the
    index's schema gives where it could be read and has fields. -/
structure IndexFailure where
  text : String
  response : String
  suggestion : Option String

def IndexFailure.message (failure : IndexFailure) : String :=
  if namesAMissingField failure.text then failure.suggestion.getD failure.response else failure.response

structure NamedSearch (K D : Type) where
  index : String
  result : Except IndexFailure (SearchAnswer K D)

structure FederatedQuery (K : Type) where
  /-- How hits are ordered: by the value of the sort field, or by relevance. -/
  cmp : K → K → Ordering
  /-- What `zero_results_advice` says of the query. -/
  advice : Option String
  window : SearchWindow

inductive FederatedError where
  | clausesDiscarded (index : String) (notes : List String)
  | noIndexRead (errors : List (String × String))

/-- What a response has to explain. -/
inductive Note where
  | pagedPastTheEnd (offset totalHits : Nat)
  | zeroResults (advice : String)
  | shortPage (hitsReturned expected totalHits : Nat)
  | approximateSort (field : String)
  | narrowedDefaultFields (index account : String)
  | leftOut (omitted maxBytes : Nat)
deriving DecidableEq

structure FederatedResponse (D : Type) where
  /-- Each with the index it came from. -/
  hits : List (String × D)
  hitsReturned : Nat
  totalHits : Nat
  limit : Nat
  offset : Nat
  errors : List (String × String)
  approximateSort : Option String
  narrowedDefaultFields : List (String × String)
  warning : List Note
  omittedHits : Nat
deriving DecidableEq

/-- How many bytes serde_json writes for a response without its hits, and for a hit. -/
structure JsonBytes (D : Type) where
  envelope : FederatedResponse D → Nat
  hit : String × D → Nat

section Gather
variable {K D : Type}

/-- Where the key is there it keeps its place. -/
def insertMember (members : List (String × String)) (key value : String) : List (String × String) :=
  if members.any fun m => m.1 = key then members.map fun m => if m.1 = key then (key, value) else m
  else members ++ [(key, value)]

structure Gathered (K D : Type) where
  blocks : List (Nat × List (Hit K (String × D)))
  totalHits : Nat
  errors : List (String × String)
  approximateSort : Option String
  narrowedDefaultFields : List (String × String)

def Gathered.empty : Gathered K D := ⟨[], 0, [], none, []⟩

def stamp (index : String) (hits : List (Hit K D)) : List (Hit K (String × D)) :=
  hits.map fun h => ⟨h.key, (index, h.body)⟩

/-- One index's search has come back. -/
def Gathered.add (g : Gathered K D) (arrival : NamedSearch K D × Nat) : Except FederatedError (Gathered K D) :=
  match arrival.1.result with
  | .error failure => .ok { g with errors := g.errors ++ [(arrival.1.index, failure.message)] }
  | .ok answer =>
    if answer.notes.discarded ≠ [] then .error (.clausesDiscarded arrival.1.index answer.notes.discarded)
    else .ok {
      blocks := g.blocks ++ [(arrival.2, stamp arrival.1.index answer.hits)]
      totalHits := g.totalHits + answer.totalHits
      errors := g.errors
      approximateSort := g.approximateSort.or answer.notes.approximateSort
      narrowedDefaultFields := match answer.notes.narrowedDefaultFields with
        | some narrowed => insertMember g.narrowedDefaultFields arrival.1.index narrowed
        | none => g.narrowedDefaultFields }

end Gather

/-! ### Notes -/

def pagedPastTheEnd (offset totalHits : Nat) : Option Note :=
  if offset = 0 ∨ totalHits = 0 ∨ offset < totalHits then none else some (.pagedPastTheEnd offset totalHits)

def shortPageNote (hitsReturned totalHits offset limit : Nat) : Option Note :=
  if limit = 0 then none
  else
    let expected := min limit (totalHits - offset)
    if expected ≤ hitsReturned then none else some (.shortPage hitsReturned expected totalHits)

def emptyPageNotes {K : Type} (query : FederatedQuery K) (totalHits : Nat) : List Note :=
  match pagedPastTheEnd query.window.offset totalHits with
  | some note => [note]
  | none => if 0 < query.window.limit then query.advice.toList.map .zeroResults else []

/-- An account is told from a map of accounts by its member `searched`; a map with an index of that name does not
    read as one. -/
def narrowedNotes (accounts : List (String × String)) : List Note :=
  if accounts.any fun a => a.1 = "searched" then [] else accounts.map fun a => .narrowedDefaultFields a.1 a.2

section Response
variable {K D : Type}

def searchNotes (query : FederatedQuery K) (response : FederatedResponse D) (totalHits : Nat) : List Note :=
  (if response.hitsReturned = 0 then emptyPageNotes query totalHits else []) ++
    (shortPageNote response.hitsReturned totalHits query.window.offset query.window.limit).toList ++
    (response.approximateSort.map .approximateSort).toList ++ narrowedNotes response.narrowedDefaultFields

def annotateSearchResponse (query : FederatedQuery K) (response : FederatedResponse D) (totalHits : Nat) :
    FederatedResponse D :=
  let notes := searchNotes query response totalHits
  if notes.isEmpty then response else { response with warning := notes }

def keptHits (hitBytes : String × D → Nat) (maxBytes : Nat) : Nat → Nat → List (String × D) → Nat
  | _, kept, [] => kept
  | used, kept, hit :: rest =>
    if 0 < kept ∧ maxBytes < used + hitBytes hit + 1 then kept
    else keptHits hitBytes maxBytes (used + hitBytes hit + 1) (kept + 1) rest

def capResponseBytes (bytes : JsonBytes D) (response : FederatedResponse D) (maxBytes : Nat) : FederatedResponse D :=
  let kept := keptHits bytes.hit maxBytes (bytes.envelope { response with hits := [] }) 0 response.hits
  let omitted := response.hits.length - kept
  let capped := { response with hits := response.hits.take kept, hitsReturned := kept }
  if 0 < omitted then { capped with omittedHits := omitted, warning := [.leftOut omitted maxBytes] } else capped

/-- The response once every index came back. -/
def Gathered.response (query : FederatedQuery K) (g : Gathered K D) : FederatedResponse D :=
  let merged := orderHitBlocks query.cmp ((g.blocks.insertionSort fun a b => a.1 ≤ b.1).map Prod.snd) query.window
  annotateSearchResponse query {
    hits := merged.map Hit.body
    hitsReturned := merged.length
    totalHits := g.totalHits
    limit := query.window.limit
    offset := query.window.offset
    errors := g.errors
    approximateSort := g.approximateSort
    narrowedDefaultFields := g.narrowedDefaultFields
    warning := []
    omittedHits := 0 } g.totalHits

/-- The searches come back in any order, each with the place it was named at. -/
def searchAcrossIndexes (bytes : JsonBytes D) (query : FederatedQuery K) (maxBytes : Nat)
    (arrivals : List (NamedSearch K D × Nat)) : Except FederatedError (FederatedResponse D) := do
  let g ← arrivals.foldlM Gathered.add .empty
  if g.errors ≠ [] ∧ g.errors.length = arrivals.length then .error (.noIndexRead g.errors)
  else .ok (capResponseBytes bytes (g.response query) maxBytes)

end Response

end CameoDb.Mcp
