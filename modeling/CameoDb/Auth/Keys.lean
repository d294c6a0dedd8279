import CameoDb.Lib.Checked
import CameoDb.Lib.NamePattern
import CameoDb.Lib.Text
import Mathlib.Data.Vector.Basic
import Std.Data.ExtTreeMap.Lemmas

/-! # API keys

What the configuration's security section says, and the ring of keys it is resolved into. SHA-256 and key files are
the environment's. -/

namespace CameoDb

open Std

inductive Capability where
  | read
  | write
  | indexAdmin
  | nodeAdmin
  | keyManage
deriving DecidableEq

def Capability.asStr : Capability → String
  | .read => "read"
  | .write => "write"
  | .indexAdmin => "index-admin"
  | .nodeAdmin => "node-admin"
  | .keyManage => "key-manage"

inductive Role where
  | admin
  | writer
  | reader
  | provisioner
deriving DecidableEq

def Role.asStr : Role → String
  | .admin => "admin"
  | .writer => "writer"
  | .reader => "reader"
  | .provisioner => "provisioner"

def Role.capabilities : Role → List Capability
  | .admin => [.read, .write, .indexAdmin, .nodeAdmin, .keyManage]
  | .writer => [.read, .write]
  | .reader => [.read]
  | .provisioner => [.keyManage]

def Role.has (role : Role) (capability : Capability) : Bool := role.capabilities.contains capability

/-! ### Digests -/

abbrev KeyDigest := List.Vector UInt8 32

def keyPrefixText : String := "cameo_v1_"

def keyBodyLen : Nat := 43

def keyBody (token : List Char) : Option String :=
  match keyPrefixText.toList.isPrefixOf? token with
  | none => none
  | some body =>
    if byteLength body = keyBodyLen && body.all (fun c => c.isAlphanum || c = '-' || c = '_') then
      some (String.ofList body)
    else none

def digestPrefixText : String := "sha256:"

def hexDigit (c : Char) : Option Nat :=
  if '0' ≤ c ∧ c ≤ '9' then some (c.toNat - '0'.toNat)
  else if 'a' ≤ c ∧ c ≤ 'f' then some (c.toNat - 'a'.toNat + 10)
  else if 'A' ≤ c ∧ c ≤ 'F' then some (c.toNat - 'A'.toNat + 10)
  else none

def hexDecode : (n : Nat) → List Char → Option (List.Vector UInt8 n)
  | 0, [] => some .nil
  | n + 1, high :: low :: rest => do
    let h ← hexDigit high
    let l ← hexDigit low
    let bytes ← hexDecode n rest
    return .cons (UInt8.ofNat (16 * h + l)) bytes
  | _, _ => none

def hexChar (n : Nat) : Char := if n < 10 then Char.ofNat ('0'.toNat + n) else Char.ofNat ('a'.toNat + n - 10)

def hexEncode (bytes : List UInt8) : String :=
  String.ofList (bytes.flatMap fun b => [hexChar (b.toNat / 16), hexChar (b.toNat % 16)])

def KeyDigest.parse (raw : String) : Except String KeyDigest :=
  match digestPrefixText.toList.isPrefixOf? (trimChars raw.toList) with
  | none => .error s!"key hash must start with '{digestPrefixText}' — mint one with `cameodb keygen`, which prints the stanza to paste"
  | some hexPart =>
    let found := byteLength hexPart
    if found ≠ 64 then
      .error s!"key hash must be '{digestPrefixText}' followed by 64 hex characters; found {found} character(s) after the prefix"
    else
      match hexDecode 32 hexPart with
      | none => .error s!"key hash after '{digestPrefixText}' is not hexadecimal"
      | some digest => .ok digest

def KeyDigest.toConfigValue (digest : KeyDigest) : String := digestPrefixText ++ hexEncode digest.toList

def KeyDigest.keyId (digest : KeyDigest) : String := hexEncode (digest.toList.take 4)

/-! ### Index scopes -/

abbrev IndexPattern := NamePattern Char

namespace IndexPattern

/-- `field` names the setting in a refusal. -/
def parse (raw field : String) : Except String IndexPattern :=
  let letters := raw.toList
  if letters.getLast? = some '*' then
    if letters.dropLast = [] then .error s!"'*' alone is not a scope; omit {field} to allow every one"
    else if '*' ∈ letters.dropLast then .error s!"'{raw}': `*` is accepted only once, at the end, as a prefix"
    else .ok (.starting letters.dropLast)
  else if '*' ∈ letters then .error s!"'{raw}': `*` is accepted only at the end, as a prefix"
  else .ok (.exact letters)

def toText : IndexPattern → String
  | .exact name => String.ofList name
  | .starting letters => String.ofList (letters ++ ['*'])

end IndexPattern

structure IndexScope where
  patterns : List IndexPattern
  nonempty : patterns ≠ []
deriving DecidableEq

namespace IndexScope

def parseField (list : List String) (field : String) : Except String IndexScope := do
  let patterns ← ((list.map trim).filter fun entry => entry ≠ "").mapM fun entry => IndexPattern.parse entry field
  if h : patterns = [] then
    .error s!"{field} is empty, which would permit nothing at all. Remove the field to allow every one, or name them"
  else .ok ⟨patterns, h⟩

def parse (list : List String) : Except String IndexScope := parseField list "allowed_indexes"

def allows (scope : IndexScope) (index : String) : Bool := NamePattern.anyMatches scope.patterns index.toList

def firstOutside (scope inner : IndexScope) : Option String :=
  (NamePattern.firstOutside scope.patterns inner.patterns).map IndexPattern.toText

def overlapWith (scope other : IndexScope) : Option (String × String) :=
  (NamePattern.overlapWith scope.patterns other.patterns).map fun pair =>
    (IndexPattern.toText pair.1, IndexPattern.toText pair.2)

def toText (scope : IndexScope) : String := ", ".intercalate (scope.patterns.map IndexPattern.toText)

end IndexScope

/-! ### The configuration -/

structure TenantQuota where
  maxIndexes : Nat := 0
  maxBytes : Nat := 0
  allowedIndexes : Option (List String) := none
deriving DecidableEq

structure ProvisioningStamp where
  revision : Nat
  writtenBy : String
deriving DecidableEq

structure TenantSource where
  file : String
  provisioning : Option ProvisioningStamp
deriving DecidableEq

structure ApiKeyConfig where
  keyHash : Option String := none
  keyHashFile : Option String := none
  role : Option Role := none
  label : Option String := none
  allowedIndexes : Option (List String) := none
  /-- In the order the map is walked. -/
  indexOverrides : Option (List (String × Role)) := none
  tenant : Option String := none
  allowedTenants : Option (List String) := none
  /-- The included file the entry came from. -/
  source : Option String := none
deriving DecidableEq

structure ManagedFilesConfig where
  dir : String
  keys : Option String
  /-- What comes before the tenant's name in the name of its file, and after it. -/
  tenant : Option (String × String)
deriving DecidableEq

def ManagedFilesConfig.keysPath (files : ManagedFilesConfig) : Option String :=
  files.keys.map fun name => files.dir ++ "/" ++ name

def ManagedFilesConfig.tenantPath (files : ManagedFilesConfig) (tenant : String) : Option String :=
  files.tenant.map fun name => files.dir ++ "/" ++ name.1 ++ tenant ++ name.2

structure SecurityConfig where
  enabled : Bool
  apiKeys : List ApiKeyConfig
  tenants : ExtTreeMap String TenantQuota
  tenantSources : ExtTreeMap String TenantSource
  /-- The key of the command line. -/
  overrideKey : Option ApiKeyConfig
  managedFiles : Option ManagedFilesConfig

/-! ### Keys -/

/-- What a key holds on some indexes instead of its own role. It never adds to that. -/
structure Overrides (role : Role) where
  byIndex : List (String × Role)
  subtract : ∀ o ∈ byIndex, ∀ capability, o.2.has capability = true → role.has capability = true

def Overrides.empty {role : Role} : Overrides role := ⟨[], nofun⟩

def Overrides.get {role : Role} (overrides : Overrides role) (index : String) : Option Role :=
  overrides.byIndex.lookup index

def widened (role overrideRole : Role) : List Capability :=
  overrideRole.capabilities.filter fun capability => !role.has capability

theorem has_of_widened_eq_nil {role overrideRole : Role} (h : widened role overrideRole = []) (capability : Capability)
    (hhas : overrideRole.has capability = true) : role.has capability = true := by
  have hmem : capability ∈ overrideRole.capabilities := List.contains_iff_mem.mp hhas
  simpa using List.filter_eq_nil_iff.mp h capability hmem

def Overrides.insert {role : Role} (overrides : Overrides role) (index : String) (overrideRole : Role)
    (h : widened role overrideRole = []) : Overrides role where
  byIndex := overrides.byIndex ++ [(index, overrideRole)]
  subtract o ho := by
    rcases List.mem_append.mp ho with ho | ho
    · exact overrides.subtract o ho
    · obtain rfl := List.mem_singleton.mp ho
      exact has_of_widened_eq_nil h

structure KeyEntry where
  digest : KeyDigest
  role : Role
  label : String
  allowedIndexes : Option IndexScope
  indexOverrides : Overrides role
  tenant : Option String
  /-- The scope of that tenant, which bounds the key whatever its own list says. -/
  tenantScope : Option IndexScope
  allowedTenants : Option IndexScope

namespace KeyEntry

def keyId (entry : KeyEntry) : String := entry.digest.keyId

def has (entry : KeyEntry) (capability : Capability) : Bool := entry.role.has capability

def hasOn (entry : KeyEntry) (capability : Capability) (index : String) : Bool :=
  match entry.indexOverrides.get index with
  | some role => role.has capability
  | none => entry.role.has capability

def roleOn (entry : KeyEntry) (index : String) : Role := (entry.indexOverrides.get index).getD entry.role

def scopes (entry : KeyEntry) : List IndexScope := [entry.allowedIndexes, entry.tenantScope].filterMap id

def isIndexScoped (entry : KeyEntry) : Bool := entry.allowedIndexes.isSome || entry.tenantScope.isSome

def allowsIndex (entry : KeyEntry) (index : String) : Bool := entry.scopes.all fun scope => scope.allows index

def isTenantScoped (entry : KeyEntry) : Bool := entry.allowedTenants.isSome

def allowsTenant (entry : KeyEntry) (tenant : String) : Bool :=
  entry.allowedTenants.all fun scope => scope.allows tenant

def grantOutside (entry : KeyEntry) (grant : Option (List String)) : Option String :=
  if !entry.isIndexScoped then none
  else
    match grant with
    | none => some "every index"
    | some list =>
      match IndexScope.parse list with
      | .error _ => none
      | .ok grant => (entry.scopes.findSome? fun own => own.firstOutside grant).map fun pattern => s!"'{pattern}'"

def scopeSummary (entry : KeyEntry) : String :=
  match entry.allowedIndexes.map IndexScope.toText, entry.tenantScope.map IndexScope.toText with
  | none, none => "all indexes"
  | some own, none => own
  | none, some tenant => s!"{tenant} (tenant)"
  | some own, some tenant => s!"{own} (within tenant {tenant})"

end KeyEntry

structure KeyRing where
  enabled : Bool
  entries : List KeyEntry

def KeyRing.holds (ring : KeyRing) (capability : Capability) : Bool :=
  ring.entries.any fun entry => entry.has capability

/-! ### Resolving the configuration -/

inductive KeyHashFile where
  | absent
  | denied (err : String)
  | failed (err : String)
  | text (contents : String)

structure KeyEnv where
  sha256 : String → KeyDigest
  keyHashFile : String → KeyHashFile

def readKeyHashFile (env : KeyEnv) (path : String) : Except String String :=
  match env.keyHashFile path with
  | .absent => .error s!"file not found: {path}"
  | .denied err => .error s!"failed to read {path}: {err}. The user the node runs as has to be able to read it: `chgrp <service group> {path} && chmod 640 {path}`"
  | .failed err => .error s!"failed to read {path}: {err}"
  | .text contents =>
    let hash := trim contents
    let lines := (splitAt hash '\n').length
    if hash = "" then .error s!"file is empty: {path}"
    else if lines > 1 then
      .error s!"file holds {lines} lines: {path}. A key_hash_file contains one hash and nothing else — one file per key"
    else .ok hash

def within {α : Type} (place : String) (x : Except String α) : Except String α := x.mapError fun e => s!"{place}: {e}"

/-- The entries of the files with what an error calls them, numbered within the file each came from. -/
def fileEntries : List (Option String) → List ApiKeyConfig → List (String × ApiKeyConfig)
  | _, [] => []
  | seen, entry :: rest =>
    let n := seen.count entry.source + 1
    let origin := match entry.source with
      | some file => s!"{file}: [[security.api_keys]] entry {n}"
      | none => s!"[[security.api_keys]] entry {n}"
    (origin, entry) :: fileEntries (entry.source :: seen) rest

def overrideEntry (config : SecurityConfig) : List (String × ApiKeyConfig) :=
  config.overrideKey.toList.map fun entry => ("--api-key-hash / CAMEODB_API_KEY_HASH", entry)

def labelled (origin : String) (entry : ApiKeyConfig) : String :=
  match entry.label with
  | some label => if trim label ≠ "" then s!"{origin} (label '{label}')" else origin
  | none => origin

def tenantOrigin (config : SecurityConfig) (tenant : String) : String :=
  match config.tenantSources[tenant]? with
  | some source => let file := source.file; s!"{file}: [security.tenants.{tenant}]"
  | none => s!"[security.tenants.{tenant}]"

def addTenantScope (config : SecurityConfig) (scopes : List (String × IndexScope)) (tenant : String × TenantQuota) :
    Except String (List (String × IndexScope)) :=
  match tenant.2.allowedIndexes with
  | none => .ok scopes
  | some list => do
    let name := tenant.1
    let origin := tenantOrigin config name
    let scope ← within origin (IndexScope.parse list)
    match scopes.findSome? fun other => (scope.overlapWith other.2).map fun pair => (other.1, pair.1, pair.2) with
    | some (other, mine, theirs) =>
      let otherOrigin := tenantOrigin config other
      .error s!"{origin}: allowed_indexes '{mine}' overlaps tenant '{other}''s '{theirs}' ({otherOrigin}). Two tenants' keys would reach the same indexes; give each tenant a scope of its own"
    | none => .ok (scopes ++ [(name, scope)])

def tenantScopes (config : SecurityConfig) : Except String (List (String × IndexScope)) :=
  config.tenants.toList.foldlM (addTenantScope config) []

def resolveHash (env : KeyEnv) (origin : String) (entry : ApiKeyConfig) : Except String String :=
  match entry.keyHash, entry.keyHashFile with
  | some hash, _ => .ok hash
  | none, some path => within s!"{origin}: key_hash_file is unusable" (readKeyHashFile env path)
  | none, none =>
    .error s!"{origin}: needs key_hash or key_hash_file. `cameodb keygen --role <role>` mints a key and prints both forms"

def resolveOverrides (origin : String) (role : Role) (allowed : Option IndexScope) :
    Overrides role → List (String × Role) → Except String (Overrides role)
  | overrides, [] => .ok overrides
  | overrides, (name, overrideRole) :: rest =>
    let index := trim name
    if index = "" then .error s!"{origin}: index_overrides has an entry with an empty index name"
    else if h : widened role overrideRole = [] then
      if allowed.any fun scope => !scope.allows index then
        .error s!"{origin}: index_overrides names '{index}', which is not in allowed_indexes. The key cannot reach that index at all, so the override protects nothing — add it to allowed_indexes, or remove it"
      else if (overrides.get index).isSome then .error s!"{origin}: index_overrides names '{index}' twice"
      else resolveOverrides origin role allowed (overrides.insert index overrideRole h) rest
    else
      let grants := overrideRole.asStr
      let added := " and ".intercalate ((widened role overrideRole).map Capability.asStr)
      let own := role.asStr
      .error s!"{origin}: index_overrides for '{index}' grants '{grants}', which holds {added} that the key's own role '{own}' does not. An override may only subtract from a key's authority, never add to it"

def checkWithinTenant (origin : String) (tenant : Option String) (tenantScope allowed : Option IndexScope) {role : Role}
    (overrides : Overrides role) : Except String Unit :=
  match tenantScope, tenant with
  | some scope, some tenant =>
    let bound := scope.toText
    match allowed.bind scope.firstOutside with
    | some outside => .error s!"{origin}: allowed_indexes names '{outside}', outside tenant '{tenant}''s scope ({bound}). A key narrows within its tenant's indexes, never past them"
    | none =>
      match overrides.byIndex.find? fun o => !scope.allows o.1 with
      | some (index, _) => .error s!"{origin}: index_overrides names '{index}', outside tenant '{tenant}''s scope ({bound}). The key cannot reach that index at all, so the override protects nothing"
      | none => .ok ()
  | _, _ => .ok ()

def resolveTenant (origin : String) (entry : ApiKeyConfig) : Except String (Option String) :=
  match entry.tenant.map trim with
  | none => .ok none
  | some tenant =>
    if tenant = "" then
      .error s!"{origin}: tenant is empty. Name the tenant, or remove the field so this key spends against no budget"
    else .ok (some tenant)

def resolveScope (origin : String) (list : Option (List String)) (field : String) : Except String (Option IndexScope) :=
  match list with
  | none => .ok none
  | some list => (within origin (IndexScope.parseField list field)).map some

def resolveRole (origin : String) (entry : ApiKeyConfig) : Except String Role :=
  match entry.role with
  | some role => .ok role
  | none => .error s!"{origin}: needs a role (admin, writer, or reader)"

def checkManages (origin : String) (role : Role) (allowedTenants : Option IndexScope) : Except String Unit :=
  let roleName := role.asStr
  if allowedTenants.isSome && !role.has .keyManage then
    .error s!"{origin}: allowed_tenants bounds which tenants a key may manage, and role '{roleName}' manages none. Remove it, or give the key role 'provisioner'"
  else .ok ()

def checkTwice (origin : String) (resolved : List (String × KeyEntry)) (digest : KeyDigest) : Except String Unit :=
  match resolved.find? fun k => k.2.digest = digest with
  | some (known, existing) =>
    let label := existing.label
    let id := existing.keyId
    .error s!"{origin}: this key hash is already configured as '{label}' (key_id {id}) by {known}. One key cannot hold two roles"
  | none => .ok ()

def resolveEntry (env : KeyEnv) (scopes : List (String × IndexScope))
    (resolved : List (String × KeyEntry)) (origin : String) (entry : ApiKeyConfig) : Except String KeyEntry := do
  let rawHash ← resolveHash env origin entry
  let digest ← within origin (KeyDigest.parse rawHash)
  let role ← resolveRole origin entry
  let allowedIndexes ← resolveScope origin entry.allowedIndexes "allowed_indexes"
  let allowedTenants ← resolveScope origin entry.allowedTenants "allowed_tenants"
  checkManages origin role allowedTenants
  let indexOverrides ← resolveOverrides origin role allowedIndexes .empty (entry.indexOverrides.getD [])
  checkTwice origin resolved digest
  let label := ((entry.label.map trim).filter fun label => label ≠ "").getD ("key-" ++ digest.keyId)
  let tenant ← resolveTenant origin entry
  let tenantScope := tenant.bind fun tenant => scopes.lookup tenant
  checkWithinTenant origin tenant tenantScope allowedIndexes indexOverrides
  return ⟨digest, role, label, allowedIndexes, indexOverrides, tenant, tenantScope, allowedTenants⟩

def addEntry (env : KeyEnv) (scopes : List (String × IndexScope)) (resolved : List (String × KeyEntry))
    (entry : String × ApiKeyConfig) : Except String (List (String × KeyEntry)) := do
  let origin := labelled entry.1 entry.2
  let key ← resolveEntry env scopes resolved origin entry.2
  return resolved ++ [(origin, key)]

def loadKeyring (env : KeyEnv) (config : SecurityConfig) : Except String KeyRing := do
  let scopes ← tenantScopes config
  let resolved ← (fileEntries [] config.apiKeys ++ overrideEntry config).foldlM (addEntry env scopes) []
  return ⟨config.enabled, resolved.map Prod.snd⟩

def KeyRing.authenticate (env : KeyEnv) (ring : KeyRing) (presented : String) : Option KeyEntry := do
  let body ← keyBody (trimChars presented.toList)
  ring.entries.find? fun entry => entry.digest = env.sha256 body

end CameoDb
