import CameoDb.Auth.Tenants
import CameoDb.Lib.Transition

/-! # Reloads beside the store

Any number of reloads read the files and later put what they read in place. A change holds the store's lock, and
reloads like the others. -/

namespace CameoDb

open Std

structure Reading where
  writes : Nat
  security : SecurityConfig
  ring : KeyRing

/-- How far a change is. -/
inductive Stage where
  | opened
  | written
  | read (reading : Reading)
  | swapped
  | refused
  | restored
  | reread (reading : Reading)

structure StoreChange where
  request : KeyRequest
  path : String
  /-- What is written; a tenant that is deleted leaves no file. -/
  file : Option KeyFile
  previous : Option KeyFile
  stage : Stage

/-- A node with the reloads that have read and not put in place what they read. `writes` counts the writes,
    `swapped` is what that count was for the last reading a change put in place, and `revoked` has the keys that a
    change removed and returned, and that no file was written with since. -/
structure KeyServer where
  node : KeyNode
  writes : Nat := 0
  swapped : Nat := 0
  reloads : List Reading := []
  change : Option StoreChange := none
  revoked : List KeyDigest := []

inductive KeyStep where
  /-- A reload reads the files, and one puts in place what it read. -/
  | read
  | swap (i : Nat)
  /-- A change takes the lock and opens its file; then it goes on to its return. -/
  | lock (request : KeyRequest) (ifMatch : Option Nat) (body : String)
  | advance

def digestOf (env : KeyEnv) (entry : ApiKeyConfig) : Option KeyDigest :=
  (resolveHash env "" entry).toOption.bind fun raw => (KeyDigest.parse raw).toOption

def KeyFile.keys : KeyFile → List ApiKeyConfig
  | .garbled _ => []
  | .parsed file => file.apiKeys

def writeFile (files : KeyFiles) (path : String) : Option KeyFile → KeyFiles
  | some file => files.insert path file
  | none => files.erase path

def written (world : KeyWorld) (file : ManagedFile) : KeyFile :=
  .parsed { file with provisioning := stamp world (file.provisioning.revision + 1) }.toIncluded

def prepareChange (world : KeyWorld) (node : KeyNode) (request : KeyRequest) (ifMatch : Option Nat) (body : String) :
    Option (Except TenantError (String × Option KeyFile)) :=
  let writes (prepared : Except TenantError (String × ManagedFile)) :=
    some (prepared.map fun change => (change.1, some (written world change.2)))
  match request with
  | .listKeys | .listTenants | .getTenant _ => none
  | .createKey spec => writes (prepareMint world node .keys spec ifMatch body)
  | .updateKey keyId patch => writes (prepareUpdate node keyId patch ifMatch)
  | .revokeKey keyId => writes (prepareRevokeKey node keyId ifMatch)
  | .putTenant tenant spec => writes (preparePut world node tenant spec ifMatch)
  | .deleteTenant tenant => some ((prepareDelete node tenant ifMatch).map fun change => (change.1, none))
  | .createTenantKey tenant spec => writes (prepareMint world node (.tenant tenant) spec ifMatch body)
  | .revokeTenantKey tenant keyId => writes (prepareRevokeTenantKey node tenant keyId ifMatch)

/-- Whether a change whose reload went through returns success: some answer with what they find then. -/
def returnsOk (node : KeyNode) (request : KeyRequest) : Bool :=
  match request with
  | .updateKey _ _ | .revokeKey _ => (listKeys node).isOk
  | .putTenant tenant _ | .revokeTenantKey tenant _ => (getTenant node tenant).isOk
  | _ => true

def StoreChange.removed (change : StoreChange) : List ApiKeyConfig :=
  let keys := (change.previous.map KeyFile.keys).getD []
  match change.request with
  | .revokeKey keyId | .revokeTenantKey _ keyId => keys.filter fun entry => hasKeyId entry keyId
  | .deleteTenant _ => keys
  | _ => []

namespace KeyServer

def install (s : KeyServer) (reading : Reading) : KeyServer :=
  { s with node := { s.node with security := reading.security, ring := reading.ring } }

/-- The next thing that the change with the lock does. -/
def advance (world : KeyWorld) (s : KeyServer) (change : StoreChange) : KeyServer :=
  let at_ (s : KeyServer) (stage : Stage) : KeyServer := { s with change := some { change with stage } }
  let store (s : KeyServer) (file : Option KeyFile) : KeyServer :=
    { s with node := { s.node with files := writeFile s.node.files change.path file }, writes := s.writes + 1 }
  match change.stage with
  | .opened =>
    let back := ((change.file.map KeyFile.keys).getD []).filterMap (digestOf world.env)
    at_ { store s change.file with revoked := s.revoked.filter fun digest => digest ∉ back } .written
  | .written =>
    match resolveFiles world s.node.files with
    | .ok (security, ring) => at_ s (.read ⟨s.writes, security, ring⟩)
    | .error _ => at_ s .refused
  | .read reading => at_ { s.install reading with swapped := reading.writes } .swapped
  | .swapped =>
    let gone := if returnsOk s.node change.request then change.removed.filterMap (digestOf world.env) else []
    { s with change := none, revoked := s.revoked ++ gone }
  -- What the loader refuses is put back, and the reload after that may be refused too.
  | .refused => at_ (store s change.previous) .restored
  | .restored =>
    match resolveFiles world s.node.files with
    | .ok (security, ring) => at_ s (.reread ⟨s.writes, security, ring⟩)
    | .error _ => { s with change := none }
  | .reread reading => { s.install reading with swapped := reading.writes, change := none }

/-- What a step makes of a node, if it can be taken. A reload that is refused changes nothing. -/
def step (world : KeyWorld) (s : KeyServer) : KeyStep → Option KeyServer
  | .read =>
    match resolveFiles world s.node.files with
    | .ok (security, ring) => some { s with reloads := s.reloads ++ [⟨s.writes, security, ring⟩] }
    | .error _ => some s
  | .swap i =>
    match s.reloads[i]? with
    | some reading => some { s.install reading with reloads := s.reloads.eraseIdx i }
    | none => none
  | .lock request ifMatch body =>
    match s.change, prepareChange world s.node request ifMatch body with
    | none, some (.ok (path, file)) =>
      some { s with change := some ⟨request, path, file, s.node.files[path]?, .opened⟩ }
    | none, some (.error _) => some s
    | _, _ => none
  | .advance =>
    match s.change with
    | some change => some (s.advance world change)
    | none => none

end KeyServer

end CameoDb
