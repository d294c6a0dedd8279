import CameoDb.Auth.Gate
import CameoDb.Auth.ManagedFiles
import CameoDb.Lib.Decimal
import Mathlib.Data.List.Sort

/-! # Keys and tenants managed through the node

The files behind `/_keys` and `/_tenants`, their loader and the handlers. The loader's checks of everything but the
keys are the world's. -/

namespace CameoDb

open Std

/-! ### Files and their loading -/

/-- Letters, digits, dots, underscores and dashes, from a letter or digit on. -/
def validTenantName (name : String) : Bool :=
  let chars := name.toList
  byteLength chars ≤ 64 && chars.head?.any Char.isAlphanum &&
    chars.tail.all (fun c => c.isAlphanum || c ∈ ['.', '_', '-']) &&
    !(chars.zip chars.tail).any fun pair => pair = ('.', '.')

theorem forall_of_validTenantName {name : String} {P : Char → Prop} (h : validTenantName name = true)
    (halphanum : ∀ c : Char, c.isAlphanum = true → P c) (hother : ∀ c ∈ ['.', '_', '-'], P c) :
    ∀ c ∈ name.toList, P c := by
  simp only [validTenantName, Bool.and_eq_true, List.all_eq_true, Bool.or_eq_true, decide_eq_true_eq] at h
  obtain ⟨⟨⟨-, hhead⟩, htail⟩, -⟩ := h
  cases hchars : name.toList with
  | nil => exact nofun
  | cons first rest =>
    rw [hchars] at hhead htail
    refine List.forall_mem_cons.mpr ⟨halphanum first (by simpa using hhead), fun c hc => ?_⟩
    exact (htail c hc).elim (halphanum c) (hother c)

/-- The names of the files that the store may write. -/
inductive ManagedFilesConfig.Names (files : ManagedFilesConfig) : String → Prop
  | keys {name : String} (h : files.keys = some name) : files.Names name
  | tenant {before after tenant : String} (h : files.tenant = some (before, after))
      (hvalid : validTenantName tenant = true) : files.Names (before ++ tenant ++ after)

structure IncludedFile where
  provisioning : Option ProvisioningStamp
  tenants : ExtTreeMap String TenantQuota
  apiKeys : List ApiKeyConfig

inductive KeyFile where
  | garbled (err : String)
  | parsed (file : IncludedFile)

/-- The files that `include` reads, by their paths. -/
abbrev KeyFiles := ExtTreeMap String KeyFile

/-- What does not change while the node runs: the main file with the command line, and the node. -/
structure KeyWorld where
  env : KeyEnv
  main : SecurityConfig
  configPath : String
  folders : FolderEnv
  patterns : List IncludePattern
  validate : SecurityConfig → Except String Unit
  nodeId : String
  /-- What the store may write is read back. The samples that `resolveManagedFiles` tries do not ensure it. -/
  readsBack : ∀ files ∈ main.managedFiles, ∀ file, files.Names file →
    readBack folders patterns files.dir file.toList = true

def tenantNamed (tenant : Option String) : String :=
  match tenant with
  | some tenant => s!"'{tenant}'"
  | none => "no tenant"

def checkStamped (path : String) (file : IncludedFile) : Except String Unit :=
  if file.provisioning.isNone then .ok ()
  else
    let count := file.tenants.size
    if count > 1 then
      .error s!"{path}: a file with [provisioning] holds one [security.tenants.<name>] table or none; this one holds {count}"
    else
      let tenant := (file.tenants.toList.map Prod.fst).head?
      match file.apiKeys.find? fun key => key.tenant ≠ tenant with
      | some stray =>
        let owner := match tenant with | some tenant => s!"its tenant '{tenant}'" | none => "no tenant"
        let label := stray.label.getD "(none)"
        let named := tenantNamed stray.tenant
        .error s!"{path}: a file with [provisioning] holds only keys of {owner}; the key labelled '{label}' names {named}"
      | none => .ok ()

def addTenant (path : String) (provisioning : Option ProvisioningStamp) (config : SecurityConfig)
    (tenant : String × TenantQuota) : Except String SecurityConfig :=
  let name := tenant.1
  match config.tenantSources[name]? with
  | some existing =>
    let file := existing.file
    .error s!"{path}: tenant '{name}' is already defined in {file}. A tenant is defined once"
  | none =>
    .ok { config with
      tenantSources := config.tenantSources.insert name ⟨path, provisioning⟩
      tenants := config.tenants.insert name tenant.2 }

def mergeIncluded (config : SecurityConfig) (file : String × KeyFile) : Except String SecurityConfig :=
  let path := file.1
  match file.2 with
  | .garbled err => .error s!"cannot parse included file {path}: {err}"
  | .parsed included => do
    checkStamped path included
    let config ← included.tenants.toList.foldlM (addTenant path included.provisioning) config
    return { config with apiKeys := config.apiKeys ++ included.apiKeys.map fun key => { key with source := some path } }

def applyIncludes (world : KeyWorld) (files : KeyFiles) : Except String SecurityConfig :=
  files.toList.foldlM mergeIncluded
    { world.main with tenantSources := world.main.tenants.map fun _ _ => ⟨world.configPath, none⟩ }

def reloadConfig (world : KeyWorld) (files : KeyFiles) : Except String SecurityConfig := do
  let config ← applyIncludes world files
  world.validate config
  return config

def reloadRefused : String := "key reload refused — the previous key ring is still in effect"

def checkAdmin (ring : KeyRing) : Except String Unit :=
  if ring.enabled && !ring.holds .nodeAdmin then
    .error "key reload refused: the new configuration grants node-admin to no key, which would leave /_admin/* unreachable until a restart. Add an admin key and reload again; the previous key ring is still in effect"
  else .ok ()

def resolveFiles (world : KeyWorld) (files : KeyFiles) : Except String (SecurityConfig × KeyRing) := do
  let security ← within reloadRefused (reloadConfig world files)
  let ring ← within reloadRefused (loadKeyring world.env security)
  checkAdmin ring
  return (security, ring)

structure KeyNode where
  files : KeyFiles
  security : SecurityConfig
  ring : KeyRing

def KeyNode.reloadWith (world : KeyWorld) (node : KeyNode) (files : KeyFiles) : Option String × KeyNode :=
  match resolveFiles world files with
  | .error e => (some e, { node with files := files })
  | .ok (security, ring) => (none, ⟨files, security, ring⟩)

/-! ### The store -/

inductive TenantError where
  | notConfigured (what : String)
  | invalidName (tenant : String)
  | notFound (tenant : String)
  | keyNotFound (place keyId : String)
  | notManaged (tenant file : String)
  | foreignFile (path : String)
  | revisionMismatch (place : String) (current expected : Nat)
  | forbidden (message : String)
  | refused (message : String)
deriving DecidableEq

def TenantError.message : TenantError → String
  | notConfigured what => s!"{what} management is not configured on this node: name its file in [security.managed_files], with an include that reads it"
  | invalidName tenant => s!"'{tenant}' is not a tenant name the node can create: letters, digits, '.', '_' and '-', starting with a letter or digit, at most 64 characters"
  | notFound tenant => s!"no tenant '{tenant}'"
  | keyNotFound place keyId => s!"no key '{keyId}' {place}"
  | notManaged tenant file => s!"tenant '{tenant}' is defined in {file}, which the node does not manage"
  | foreignFile path => s!"{path} exists and was not written by the node for this; it is never overwritten"
  | revisionMismatch place current expected => s!"{place} is at revision {current}, not {expected}"
  | forbidden message => message
  | refused message => s!"refused: {message}"

structure TenantSpec where
  maxIndexes : Option Nat := none
  maxBytes : Option Nat := none
  allowedIndexes : Option (List String) := none
deriving DecidableEq

structure KeyPatch where
  allowedIndexes : List String
deriving DecidableEq

structure KeySpec where
  role : Role
  label : Option String := none
  allowedIndexes : Option (List String) := none
  indexOverrides : Option (List (String × Role)) := none
deriving DecidableEq

structure KeyView where
  keyId : String
  label : String
  role : Role
  indexes : String
deriving DecidableEq

structure KeysView where
  revision : Nat
  keys : List KeyView
deriving DecidableEq

structure TenantView where
  tenant : String
  managed : Bool
  revision : Option Nat
  maxIndexes : Nat
  maxBytes : Nat
  allowedIndexes : Option (List String)
  keys : List KeyView
deriving DecidableEq

structure MintedKey where
  key : String
  keyId : String
  tenant : Option String
  revision : Nat
deriving DecidableEq

structure ManagedFile where
  provisioning : ProvisioningStamp
  tenants : ExtTreeMap String TenantQuota
  apiKeys : List ApiKeyConfig

def ManagedFile.toIncluded (file : ManagedFile) : IncludedFile := ⟨some file.provisioning, file.tenants, file.apiKeys⟩

/-- Which managed file a change is to. -/
inductive Slot where
  | keys
  | tenant (name : String)
deriving DecidableEq

def Slot.describe : Slot → String
  | keys => "the keys file"
  | tenant name => s!"tenant '{name}'"

def Slot.owner : Slot → Option String
  | keys => none
  | tenant name => some name

def slotPath (security : SecurityConfig) : Slot → Except TenantError String
  | .keys =>
    match security.managedFiles.bind ManagedFilesConfig.keysPath with
    | none => .error (.notConfigured "key")
    | some path => .ok path
  | .tenant tenant =>
    match security.managedFiles.bind fun files => files.tenantPath tenant with
    | none => .error (.notConfigured "tenant")
    | some path =>
      if !validTenantName tenant then .error (.invalidName tenant)
      else
        match security.tenantSources[tenant]?.filter fun source => source.provisioning.isNone with
        | some source => .error (.notManaged tenant source.file)
        | none =>
          -- `{tenant}.toml` beside `keys.toml` would make the tenant `keys` the keys file.
          if security.managedFiles.bind ManagedFilesConfig.keysPath = some path then .error (.foreignFile path)
          else .ok path

def ours (slot : Slot) (file : IncludedFile) : Bool :=
  match slot with
  | .keys => file.tenants.isEmpty && file.apiKeys.all fun key => key.tenant.isNone
  | .tenant tenant => file.tenants.size = 1 && file.tenants.contains tenant

def openSlot (node : KeyNode) (slot : Slot) : Except TenantError (String × Option ManagedFile) := do
  let path ← slotPath node.security slot
  match node.files[path]? with
  | none => return (path, none)
  | some (.garbled _) => .error (.foreignFile path)
  | some (.parsed file) =>
    match file.provisioning with
    | none => .error (.foreignFile path)
    | some stamp =>
      if ours slot file then return (path, some ⟨stamp, file.tenants, file.apiKeys⟩) else .error (.foreignFile path)

def stamp (world : KeyWorld) (revision : Nat) : ProvisioningStamp := ⟨revision, world.nodeId⟩

def commit (world : KeyWorld) (node : KeyNode) (path : String) (file : ManagedFile) :
    Except TenantError Nat × KeyNode :=
  let revision := file.provisioning.revision + 1
  let written := { file with provisioning := stamp world revision }
  match node.reloadWith world (node.files.insert path (.parsed written.toIncluded)) with
  | (none, after) => (.ok revision, after)
  | (some e, after) => (.error (.refused e), (after.reloadWith world node.files).2)

def committing {α : Type} (world : KeyWorld) (node : KeyNode) (prepared : Except TenantError (String × ManagedFile))
    (answer : Nat → KeyNode → Except TenantError α) : Except TenantError α × KeyNode :=
  match prepared with
  | .error e => (.error e, node)
  | .ok (path, file) =>
    match commit world node path file with
    | (.error e, after) => (.error e, after)
    | (.ok revision, after) => (answer revision after, after)

def checkRevision (slot : Slot) (file : Option ManagedFile) (ifMatch : Option Nat) : Except TenantError Unit :=
  let current := (file.map fun file => file.provisioning.revision).getD 0
  match ifMatch with
  | none => .ok ()
  | some expected => if current ≠ expected then .error (.revisionMismatch slot.describe current expected) else .ok ()

def hasKeyId (entry : ApiKeyConfig) (keyId : String) : Bool :=
  match entry.keyHash with
  | none => false
  | some hash =>
    match KeyDigest.parse hash with
    | .error _ => false
    | .ok digest => digest.keyId = keyId

def keyView (entry : KeyEntry) : KeyView := ⟨entry.keyId, entry.label, entry.role, entry.scopeSummary⟩

def keyViews (node : KeyNode) (file : Option ManagedFile) : List KeyView :=
  let hashes := ((file.map ManagedFile.apiKeys).getD []).filterMap ApiKeyConfig.keyHash
  let ids := hashes.filterMap fun hash => (KeyDigest.parse hash).toOption.map KeyDigest.keyId
  let views := (node.ring.entries.filter fun entry => ids.contains entry.keyId).map keyView
  views.insertionSort fun a b => ids.idxOf a.keyId ≤ ids.idxOf b.keyId

def keysView (node : KeyNode) (file : Option ManagedFile) : KeysView :=
  ⟨(file.map fun file => file.provisioning.revision).getD 0, keyViews node file⟩

def tenantView (node : KeyNode) (tenant : String) : TenantView :=
  let quota := (node.security.tenants[tenant]?).getD {}
  let revision := (node.security.tenantSources[tenant]?).bind fun source =>
    source.provisioning.map ProvisioningStamp.revision
  { tenant, managed := revision.isSome, revision, maxIndexes := quota.maxIndexes, maxBytes := quota.maxBytes
    allowedIndexes := quota.allowedIndexes
    keys := (node.ring.entries.filter fun entry => entry.tenant = some tenant).map keyView }

def getTenant (node : KeyNode) (tenant : String) : Except TenantError TenantView :=
  if node.security.tenants.contains tenant then .ok (tenantView node tenant) else .error (.notFound tenant)

def listKeys (node : KeyNode) : Except TenantError KeysView := do
  let (_, file) ← openSlot node .keys
  return keysView node file

def keysAt (revision : Nat) (node : KeyNode) : Except TenantError KeysView := do
  let view ← listKeys node
  return { view with revision }

def rescope (keyId : String) (list : List String) : List ApiKeyConfig → Option (List ApiKeyConfig)
  | [] => none
  | entry :: rest =>
    if hasKeyId entry keyId then some ({ entry with allowedIndexes := some list } :: rest)
    else (rescope keyId list rest).map fun rest => entry :: rest

def inKeysFile : String := "in the keys file"

def openExisting (node : KeyNode) (slot : Slot) (ifMatch : Option Nat) (missing : TenantError) :
    Except TenantError (String × ManagedFile) := do
  let (path, file) ← openSlot node slot
  match file with
  | none => .error missing
  | some file =>
    checkRevision slot (some file) ifMatch
    return (path, file)

/-- The pattern's own fault, before anything is written. -/
def checkParses (list : Option (List String)) : Except TenantError Unit :=
  match list with
  | none => .ok ()
  | some list =>
    match IndexScope.parse list with
    | .error e => .error (.refused e)
    | .ok _ => .ok ()

def prepareUpdate (node : KeyNode) (keyId : String) (patch : KeyPatch) (ifMatch : Option Nat) :
    Except TenantError (String × ManagedFile) := do
  checkParses (some patch.allowedIndexes)
  let (path, file) ← openExisting node .keys ifMatch (.keyNotFound inKeysFile keyId)
  match rescope keyId patch.allowedIndexes file.apiKeys with
  | none => .error (.keyNotFound inKeysFile keyId)
  | some keys => .ok (path, { file with apiKeys := keys })

def updateKey (world : KeyWorld) (node : KeyNode) (keyId : String) (patch : KeyPatch) (ifMatch : Option Nat) :
    Except TenantError KeysView × KeyNode :=
  committing world node (prepareUpdate node keyId patch ifMatch) keysAt

def removeKey (file : ManagedFile) (keyId place : String) : Except TenantError ManagedFile :=
  let kept := file.apiKeys.filter fun entry => !hasKeyId entry keyId
  if kept.length = file.apiKeys.length then .error (.keyNotFound place keyId) else .ok { file with apiKeys := kept }

def prepareRevoke (node : KeyNode) (slot : Slot) (keyId : String) (ifMatch : Option Nat)
    (missing : TenantError) (place : String) : Except TenantError (String × ManagedFile) := do
  let (path, file) ← openExisting node slot ifMatch missing
  let file ← removeKey file keyId place
  return (path, file)

def prepareRevokeKey (node : KeyNode) (keyId : String) (ifMatch : Option Nat) :
    Except TenantError (String × ManagedFile) :=
  prepareRevoke node .keys keyId ifMatch (.keyNotFound inKeysFile keyId) inKeysFile

def revokeKey (world : KeyWorld) (node : KeyNode) (keyId : String) (ifMatch : Option Nat) :
    Except TenantError KeysView × KeyNode :=
  committing world node (prepareRevokeKey node keyId ifMatch) keysAt

def ownNames (tenant : String) : List String := [tenant ++ "-*"]

def newTenantFile (world : KeyWorld) (tenant : String) : ManagedFile where
  provisioning := stamp world 0
  tenants := (∅ : ExtTreeMap String TenantQuota).insert tenant { allowedIndexes := some (ownNames tenant) }
  apiKeys := []

/-- A quota with what a caller writes in place of what it was. -/
def TenantSpec.applyTo (spec : TenantSpec) (quota : TenantQuota) : TenantQuota where
  maxIndexes := spec.maxIndexes.getD quota.maxIndexes
  maxBytes := spec.maxBytes.getD quota.maxBytes
  allowedIndexes := spec.allowedIndexes.or quota.allowedIndexes

def preparePut (world : KeyWorld) (node : KeyNode) (tenant : String) (spec : TenantSpec) (ifMatch : Option Nat) :
    Except TenantError (String × ManagedFile) := do
  let (path, existing) ← openSlot node (.tenant tenant)
  checkRevision (.tenant tenant) existing ifMatch
  let file := existing.getD (newTenantFile world tenant)
  -- An opened tenant file holds its tenant.
  return (path, { file with tenants := file.tenants.modify tenant spec.applyTo })

def putTenant (world : KeyWorld) (node : KeyNode) (tenant : String) (spec : TenantSpec) (ifMatch : Option Nat) :
    Except TenantError TenantView × KeyNode :=
  committing world node (preparePut world node tenant spec ifMatch) fun _ after => getTenant after tenant

def prepareDelete (node : KeyNode) (tenant : String) (ifMatch : Option Nat) :
    Except TenantError (String × ManagedFile) :=
  openExisting node (.tenant tenant) ifMatch (.notFound tenant)

def deleteTenant (world : KeyWorld) (node : KeyNode) (tenant : String) (ifMatch : Option Nat) :
    Except TenantError Unit × KeyNode :=
  match prepareDelete node tenant ifMatch with
  | .error e => (.error e, node)
  | .ok (path, _) =>
    match node.reloadWith world (node.files.erase path) with
    | (none, after) => (.ok (), after)
    | (some e, after) => (.error (.refused e), (after.reloadWith world node.files).2)

def prepareRevokeTenantKey (node : KeyNode) (tenant keyId : String) (ifMatch : Option Nat) :
    Except TenantError (String × ManagedFile) :=
  prepareRevoke node (.tenant tenant) keyId ifMatch (.notFound tenant) s!"in tenant '{tenant}'"

def revokeTenantKey (world : KeyWorld) (node : KeyNode) (tenant keyId : String) (ifMatch : Option Nat) :
    Except TenantError TenantView × KeyNode :=
  committing world node (prepareRevokeTenantKey node tenant keyId ifMatch) fun _ after => getTenant after tenant

def mintInto (world : KeyWorld) (slot : Slot) (existing : Option ManagedFile) : Except TenantError ManagedFile :=
  match existing, slot.owner with
  | some file, _ => .ok file
  | none, none => .ok ⟨stamp world 0, ∅, []⟩
  | none, some tenant => .error (.notFound tenant)

def checkMintable (spec : KeySpec) : Except TenantError Unit :=
  let role := spec.role.asStr
  if spec.role = .writer ∨ spec.role = .reader then .ok ()
  else .error (.forbidden s!"the API mints writer and reader keys only, not '{role}'")

def prepareMint (world : KeyWorld) (node : KeyNode) (slot : Slot) (spec : KeySpec)
    (ifMatch : Option Nat) (body : String) : Except TenantError (String × ManagedFile) := do
  checkMintable spec
  checkParses spec.allowedIndexes
  let (path, existing) ← openSlot node slot
  checkRevision slot existing ifMatch
  let file ← mintInto world slot existing
  let entry : ApiKeyConfig :=
    { keyHash := some (world.env.sha256 body).toConfigValue, role := some spec.role, label := spec.label
      allowedIndexes := spec.allowedIndexes, indexOverrides := spec.indexOverrides, tenant := slot.owner }
  return (path, { file with apiKeys := file.apiKeys ++ [entry] })

def mint (world : KeyWorld) (node : KeyNode) (slot : Slot) (spec : KeySpec) (ifMatch : Option Nat) (body : String) :
    Except TenantError MintedKey × KeyNode :=
  committing world node (prepareMint world node slot spec ifMatch body) fun revision _ =>
    .ok ⟨keyPrefixText ++ body, (world.env.sha256 body).keyId, slot.owner, revision⟩

/-! ### The routes -/

structure AppError where
  status : Nat
  code : Option String
  message : String
deriving DecidableEq

def TenantError.toAppError (err : TenantError) : AppError :=
  match err with
  | .notConfigured _ | .notManaged _ _ | .foreignFile _ => ⟨409, none, err.message⟩
  | .invalidName _ | .refused _ => ⟨400, none, err.message⟩
  | .notFound _ => ⟨404, some "tenant_not_found", err.message⟩
  | .keyNotFound _ _ => ⟨404, some "key_not_found", err.message⟩
  | .revisionMismatch _ _ _ => ⟨412, none, err.message⟩
  | .forbidden _ => ⟨403, none, err.message⟩

def parseIfMatch (header : Option String) : Except AppError (Option Nat) :=
  match header with
  | none => .ok none
  | some value =>
    let quoted := (trimChars value.toList).dropWhile (fun c => c = '"')
    match Decimal.parse (2 ^ 64) (quoted.rdropWhile fun c => c = '"') with
    | some revision => .ok (some revision)
    | none => .error ⟨400, none, "If-Match must be a tenant revision, e.g. If-Match: 3"⟩

def checkUnbounded (authz : Authz) : Except AppError Unit :=
  match authz with
  | .key entry =>
    if entry.isTenantScoped then
      .error ⟨403, none, "this key manages only its allowed_tenants; keys with no tenant are outside them"⟩
    else .ok ()
  | _ => .ok ()

def checkGrant (authz : Authz) (grant : Option (List String)) : Except AppError Unit :=
  match authz with
  | .key entry =>
    let summary := entry.scopeSummary
    match entry.grantOutside grant with
    | some outside => .error ⟨403, none, s!"this key grants only indexes within its own allowed_indexes ({summary}); {outside} is outside them"⟩
    | none => .ok ()
  | _ => .ok ()

def mayManage (authz : Authz) (tenant : String) : Bool :=
  match authz with
  | .key entry => entry.allowsTenant tenant
  | _ => true

def checkTenant (authz : Authz) (tenant : String) : Except AppError Unit :=
  if mayManage authz tenant then .ok ()
  else .error ⟨403, none, s!"this key is not permitted to manage tenant '{tenant}'"⟩

/-- A caller bounded to some tenants is bounded to their namespaces too. -/
def checkNamed (authz : Authz) (tenant : String) (list : Option (List String)) : Except AppError Unit :=
  match authz with
  | .key entry =>
    let start := tenant ++ "-"
    if entry.isTenantScoped then
      match (list.getD []).find? fun pattern => !start.toList.isPrefixOf (trimChars pattern.toList) with
      | some outside => .error ⟨403, none, s!"allowed_indexes '{outside}' is outside '{start}': a key bounded by allowed_tenants scopes a tenant to indexes named after it"⟩
      | none => .ok ()
    else .ok ()
  | _ => .ok ()

inductive KeyRequest where
  | listKeys
  | createKey (spec : KeySpec)
  | updateKey (keyId : String) (patch : KeyPatch)
  | revokeKey (keyId : String)
  | listTenants
  | getTenant (tenant : String)
  | putTenant (tenant : String) (spec : TenantSpec)
  | deleteTenant (tenant : String)
  | createTenantKey (tenant : String) (spec : KeySpec)
  | revokeTenantKey (tenant keyId : String)
deriving DecidableEq

/-- A request with its header, the body a key that it mints gets, and what asking for the indexes a tenant owns
    gives. -/
structure KeyCall where
  authz : Authz
  request : KeyRequest
  ifMatch : Option String := none
  body : String := ""
  owned : Except AppError (List String) := .ok []

inductive KeyAnswer where
  | keys (view : KeysView)
  | minted (key : MintedKey)
  | tenants (views : List TenantView)
  | tenant (view : TenantView) (indexes : List String)
  | noContent

/-- The list a tenant gets by a request: a new tenant without one is scoped to its own names, an update without one
    keeps its own. -/
def scopeSet (node : KeyNode) (tenant : String) (spec : TenantSpec) : Option (List String) :=
  spec.allowedIndexes.or (if node.security.tenants.contains tenant then none else some (ownNames tenant))

def checkScopeSet (authz : Authz) (scope : Option (List String)) : Except AppError Unit :=
  match scope with
  | none => .ok ()
  | some list => checkGrant authz (some list)

def tenantGrant (node : KeyNode) (tenant : String) (spec : KeySpec) : Except AppError (Option (List String)) :=
  match spec.allowedIndexes with
  | some list => .ok (some list)
  | none => ((getTenant node tenant).map TenantView.allowedIndexes).mapError TenantError.toAppError

def checkOwnsNothing (tenant : String) (indexes : List String) : Except AppError Unit :=
  let count := indexes.length
  let names := ", ".intercalate indexes
  if indexes = [] then .ok ()
  else .error ⟨409, none, s!"tenant '{tenant}' owns {count} index(es) ({names}); drop them with DELETE /api/\x7bindex\x7d?delete_schema=true first"⟩

/-- What a handler checks before the store is asked. -/
def checkCall (node : KeyNode) (call : KeyCall) : Except AppError Unit :=
  match call.request with
  | .listKeys | .revokeKey _ => checkUnbounded call.authz
  | .createKey spec => do
    checkUnbounded call.authz
    checkGrant call.authz spec.allowedIndexes
  | .updateKey _ patch => do
    checkUnbounded call.authz
    checkGrant call.authz (some patch.allowedIndexes)
  | .listTenants => .ok ()
  | .getTenant tenant | .revokeTenantKey tenant _ => checkTenant call.authz tenant
  | .putTenant tenant spec => do
    checkTenant call.authz tenant
    checkNamed call.authz tenant spec.allowedIndexes
    checkScopeSet call.authz (scopeSet node tenant spec)
  | .deleteTenant tenant => do
    checkTenant call.authz tenant
    let indexes ← call.owned
    checkOwnsNothing tenant indexes
  | .createTenantKey tenant spec => do
    checkTenant call.authz tenant
    let grant ← tenantGrant node tenant spec
    checkGrant call.authz grant

def KeyRequest.isChange : KeyRequest → Bool
  | .listKeys | .listTenants | .getTenant _ => false
  | _ => true

def storeAnswer {α : Type} (result : Except TenantError α × KeyNode) (answer : α → KeyAnswer) :
    Except AppError KeyAnswer × KeyNode :=
  ((result.1.map answer).mapError TenantError.toAppError, result.2)

def runStore (world : KeyWorld) (node : KeyNode) (call : KeyCall) (ifMatch : Option Nat) :
    Except AppError KeyAnswer × KeyNode :=
  match call.request with
  | .listKeys => storeAnswer (listKeys node, node) .keys
  | .createKey spec => storeAnswer (mint world node .keys spec ifMatch call.body) .minted
  | .updateKey keyId patch => storeAnswer (updateKey world node keyId patch ifMatch) .keys
  | .revokeKey keyId => storeAnswer (revokeKey world node keyId ifMatch) .keys
  | .listTenants =>
    let names := (node.security.tenants.toList.map Prod.fst).filter fun tenant => mayManage call.authz tenant
    (.ok (.tenants (names.map (tenantView node))), node)
  | .getTenant tenant =>
    match getTenant node tenant with
    | .error e => (.error e.toAppError, node)
    | .ok view => (call.owned.map fun indexes => .tenant view indexes, node)
  | .putTenant tenant spec => storeAnswer (putTenant world node tenant spec ifMatch) fun view => .tenant view []
  | .deleteTenant tenant => storeAnswer (deleteTenant world node tenant ifMatch) fun _ => .noContent
  | .createTenantKey tenant spec => storeAnswer (mint world node (.tenant tenant) spec ifMatch call.body) .minted
  | .revokeTenantKey tenant keyId =>
    storeAnswer (revokeTenantKey world node tenant keyId ifMatch) fun view => .tenant view []

/-- One request, and the node after it. The header is read only for a change. -/
def serve (world : KeyWorld) (node : KeyNode) (call : KeyCall) : Except AppError KeyAnswer × KeyNode :=
  match checkCall node call with
  | .error e => (.error e, node)
  | .ok () =>
    match if call.request.isChange then parseIfMatch call.ifMatch else .ok none with
    | .error e => (.error e, node)
    | .ok ifMatch => runStore world node call ifMatch

/-- A node after a number of requests, one at a time. -/
def serveAll (world : KeyWorld) (node : KeyNode) (calls : List KeyCall) : KeyNode :=
  calls.foldl (fun node call => (serve world node call).2) node

end CameoDb
