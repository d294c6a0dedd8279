import CameoDb.Lib.Transition
import Mathlib.Data.List.AList

/-! # Requests in flight on an MCP session

A request is registered under its client's id, with a token and a guard that its task drops. The registry goes with
the last handle. -/

namespace CameoDb.Mcp

abbrev Token := Nat

/-- A spawned task that has not dropped its guard yet. -/
structure RequestTask (I : Type) where
  id : I
  token : Token
deriving DecidableEq

structure McpSession (I : Type) where
  maxInFlight : Nat
  /-- `None` once it was dropped, which the guards' weak references see. -/
  inFlight : Option (AList fun _ : I => Token)
  /-- Whether the table of sessions has it. -/
  listed : Bool
  /-- The clones that `claim_session` gave out and that were not dropped. -/
  clones : Nat
  tasks : List (RequestTask I)
  cancelled : List Token
  /-- The number of tokens minted so far. -/
  minted : Token
deriving DecidableEq

/-- `remove` stands for every way out of the table: `remove_session`, `forget_session`, the sweep, an eviction or
    the shutdown. -/
inductive SessionStep (I : Type) where
  | claimSession
  | startRequest (id : I)
  | cancelRequest (id : I)
  | dropClone
  | remove
  | dropGuard (token : Token)
deriving DecidableEq

namespace McpSession
variable {I : Type} [DecidableEq I]

def new (maxInFlight : Nat) : McpSession I := ⟨maxInFlight, some ∅, true, 0, [], [], 0⟩

def running (s : McpSession I) : List (RequestTask I) := s.tasks.filter fun t => t.token ∉ s.cancelled

def dropIfLast (s : McpSession I) : McpSession I :=
  if s.listed = false ∧ s.clones = 0 then
    match s.inFlight with
    | some inFlight => { s with inFlight := none, cancelled := inFlight.entries.map Sigma.snd ++ s.cancelled }
    | none => s
  else s

def startRequest (s : McpSession I) (inFlight : AList fun _ : I => Token) (id : I) : McpSession I :=
  if s.maxInFlight ≤ inFlight.entries.length then s
  else
    { s with
      inFlight := some (inFlight.insert id s.minted)
      tasks := s.tasks ++ [⟨id, s.minted⟩]
      minted := s.minted + 1 }

def cancelRequest (s : McpSession I) (inFlight : AList fun _ : I => Token) (id : I) : McpSession I :=
  match inFlight.lookup id with
  | some token => { s with inFlight := some (inFlight.erase id), cancelled := token :: s.cancelled }
  | none => s

def dropGuard (s : McpSession I) (task : RequestTask I) : McpSession I :=
  { s with inFlight := s.inFlight.map fun inFlight => inFlight.erase task.id, tasks := s.tasks.erase task }

/-- A handler that has a clone keeps the registry alive. -/
def step (s : McpSession I) : SessionStep I → Option (McpSession I)
  | .claimSession => if s.listed then some { s with clones := s.clones + 1 } else none
  | .startRequest id => if s.clones = 0 then none else s.inFlight.map fun inFlight => s.startRequest inFlight id
  | .cancelRequest id => if s.clones = 0 then none else s.inFlight.map fun inFlight => s.cancelRequest inFlight id
  | .dropClone => if s.clones = 0 then none else some ({ s with clones := s.clones - 1 } : McpSession I).dropIfLast
  | .remove => if s.listed then some ({ s with listed := false } : McpSession I).dropIfLast else none
  | .dropGuard token => (s.tasks.find? fun t => t.token = token).map s.dropGuard

end McpSession

end CameoDb.Mcp
