import CameoDb.Auth.Keys

/-! # The gate

What each route requires of its caller, and the decision on one request. The node's OAuth server, where it has one,
is the environment's: it finds the key a token was issued under. Log lines are left out. -/

namespace CameoDb

inductive Access where
  | isPublic
  | needs (capability : Capability)
  | mcp
deriving DecidableEq

structure RouteRule where
  method : String
  pattern : String
  access : Access

/-- Every route, in the order they are tried. -/
def routes : List RouteRule := [
  ⟨"GET", "/_cluster/health", .isPublic⟩,
  ⟨"GET", "/__fault/panic", .isPublic⟩,
  ⟨"POST", "/api/{index}/search", .needs .read⟩,
  ⟨"POST", "/api/{index}/search/stream", .needs .read⟩,
  ⟨"GET", "/api/{index}/_config", .needs .read⟩,
  ⟨"GET", "/_indexes", .needs .read⟩,
  ⟨"GET", "/_cluster/_indexes", .needs .read⟩,
  ⟨"PUT", "/api/{index}/document", .needs .write⟩,
  ⟨"DELETE", "/api/{index}/document", .needs .write⟩,
  ⟨"POST", "/api/{index}/document/stream", .needs .write⟩,
  ⟨"POST", "/api/{index}/_bulk", .needs .write⟩,
  ⟨"POST", "/api/{index}/_bulk/delete", .needs .write⟩,
  ⟨"POST", "/api/{index}/delete", .needs .write⟩,
  ⟨"PUT", "/api/{index}/_config", .needs .indexAdmin⟩,
  ⟨"PATCH", "/api/{index}/_schema", .needs .indexAdmin⟩,
  ⟨"DELETE", "/api/{index}", .needs .indexAdmin⟩,
  ⟨"GET", "/_admin/memory", .needs .nodeAdmin⟩,
  ⟨"POST", "/_admin/memory/purge", .needs .nodeAdmin⟩,
  ⟨"GET", "/_admin/workers", .needs .nodeAdmin⟩,
  ⟨"GET", "/_admin/audit", .needs .nodeAdmin⟩,
  ⟨"POST", "/_admin/keys/reload", .needs .nodeAdmin⟩,
  ⟨"POST", "/_admin/index/{index}/commit", .needs .nodeAdmin⟩,
  ⟨"POST", "/_admin/index/{index}/merge", .needs .nodeAdmin⟩,
  ⟨"POST", "/_admin/index/{index}/evict-writer", .needs .nodeAdmin⟩,
  ⟨"GET", "/_keys", .needs .keyManage⟩,
  ⟨"POST", "/_keys", .needs .keyManage⟩,
  ⟨"PATCH", "/_keys/{key_id}", .needs .keyManage⟩,
  ⟨"DELETE", "/_keys/{key_id}", .needs .keyManage⟩,
  ⟨"GET", "/_tenants", .needs .keyManage⟩,
  ⟨"GET", "/_tenants/{tenant}", .needs .keyManage⟩,
  ⟨"PUT", "/_tenants/{tenant}", .needs .keyManage⟩,
  ⟨"DELETE", "/_tenants/{tenant}", .needs .keyManage⟩,
  ⟨"POST", "/_tenants/{tenant}/keys", .needs .keyManage⟩,
  ⟨"DELETE", "/_tenants/{tenant}/keys/{key_id}", .needs .keyManage⟩,
  ⟨"POST", "/mcp", .mcp⟩,
  ⟨"GET", "/mcp", .mcp⟩,
  ⟨"DELETE", "/mcp", .mcp⟩,
  ⟨"GET", "/mcp/sse", .mcp⟩,
  ⟨"POST", "/mcp/sse", .mcp⟩,
  ⟨"POST", "/mcp/messages", .mcp⟩,
  ⟨"GET", "/.well-known/oauth-protected-resource", .isPublic⟩,
  ⟨"GET", "/.well-known/oauth-protected-resource/mcp", .isPublic⟩,
  ⟨"GET", "/.well-known/oauth-authorization-server", .isPublic⟩,
  ⟨"POST", "/oauth/register", .isPublic⟩,
  ⟨"GET", "/oauth/authorize", .isPublic⟩,
  ⟨"POST", "/oauth/authorize", .isPublic⟩,
  ⟨"POST", "/oauth/token", .isPublic⟩]

structure Classified where
  access : Access
  index : Option String
deriving DecidableEq

/-- Without slashes at the end. -/
def normalize (path : String) : String :=
  let trimmed := path.toList.rdropWhile fun c => c = '/'
  if trimmed = [] then "/" else String.ofList trimmed

def matchSegments (index : Option String) : List String → List String → Option (Option String)
  | [], [] => some index
  | expected :: pattern, actual :: path =>
    if expected = "{index}" then if actual = "" then none else matchSegments (some actual) pattern path
    else if startsWith expected "\x7b" then if actual = "" then none else matchSegments index pattern path
    else if expected ≠ actual then none
    else matchSegments index pattern path
  | _, _ => none

def matchPattern (pattern path : String) : Option (Option String) :=
  matchSegments none (splitAt pattern '/') (splitAt path '/')

def classify (method path : String) : Option Classified :=
  let method := if method = "HEAD" then "GET" else method
  let path := normalize path
  routes.findSome? fun rule =>
    if rule.method ≠ method then none else (matchPattern rule.pattern path).map fun index => ⟨rule.access, index⟩

/-! ### The decision -/

inductive Authz where
  | disabled
  | anonymous
  | key (entry : KeyEntry)

structure Identity where
  keyId : String
  label : String
  role : String
deriving DecidableEq

def Identity.of (entry : KeyEntry) : Identity := ⟨entry.keyId, entry.label, entry.role.asStr⟩

structure Refusal where
  status : Nat
  error : String
  message : String
  identity : Option Identity
  invalidToken : Bool
deriving DecidableEq

namespace Refusal

def unauthorized (message : String) : Refusal := ⟨401, "Unauthorized", message, none, false⟩

def badToken (message : String) : Refusal := { unauthorized message with invalidToken := true }

def forbidden (message : String) : Refusal := ⟨403, "Forbidden", message, none, false⟩

def attributed (refusal : Refusal) (entry : KeyEntry) : Refusal := { refusal with identity := some (.of entry) }

end Refusal

structure Admitted where
  authz : Authz
  oauthClient : Option String

def bearerToken (authorization : Option String) : Option String := do
  let value ← authorization
  let scheme := value.toList.takeWhile fun c => c ≠ ' '
  let token ← (value.toList.drop scheme.length).tail?
  if scheme.map Char.toLower ≠ "bearer".toList then none
  else (some (trim (String.ofList token))).filter fun token => token ≠ ""

def accessPrefixText : String := "cameo_at1_"

/-- What an access token was issued under: the key, and the client; or why it is refused. -/
abbrev OAuth := KeyRing → String → Except String (KeyEntry × String)

/-- Who presents the token. An OAuth token is taken on `/mcp` only. -/
def identify (env : KeyEnv) (ring : KeyRing) (oauth : Option OAuth) (classified : Option Classified) (token : String) :
    Except Refusal (KeyEntry × Option String) :=
  match oauth.filter fun _ => startsWith token accessPrefixText with
  | some verifyAccess =>
    if classified.map Classified.access ≠ some .mcp then
      .error (.badToken "an OAuth token is accepted on /mcp only; this endpoint takes an API key")
    else
      match verifyAccess ring token with
      | .ok grant => .ok (grant.1, some grant.2)
      | .error message => .error (.badToken message)
  | none =>
    match ring.authenticate env token with
    | some entry => .ok (entry, none)
    | none => .error (.badToken "the API key presented is not recognised")

/-- What an authenticated key is held to on the index a request names: its scope first, then what an override takes
    away. -/
def checkIndex (entry : KeyEntry) (required : Capability) (index : String) : Except Refusal Unit :=
  if !entry.allowsIndex index then
    .error ((Refusal.forbidden s!"this key is not permitted on index '{index}'").attributed entry)
  else if !entry.hasOn required index then
    let effective := (entry.roleOn index).asStr
    let needed := required.asStr
    .error ((Refusal.forbidden s!"this key is restricted to role '{effective}' on index '{index}', which does not hold the '{needed}' capability").attributed entry)
  else .ok ()

/-- The capability a route asks of an authenticated caller. -/
def Access.required : Access → Option Capability
  | .isPublic => none
  | .needs capability => some capability
  | .mcp => some .read

def checkAccess (entry : KeyEntry) (classified : Classified) : Except Refusal Unit :=
  match classified.access.required with
  | none => .ok ()
  | some required =>
    if !entry.has required then
      let role := entry.role.asStr
      let needed := required.asStr
      .error ((Refusal.forbidden
        s!"role '{role}' does not hold the '{needed}' capability this endpoint requires").attributed entry)
    else
      match classified.index with
      | none => .ok ()
      | some index => checkIndex entry required index

def decideWith (env : KeyEnv) (ring : KeyRing) (oauth : Option OAuth) (method path : String)
    (authorization : Option String) : Except Refusal Admitted :=
  if !ring.enabled then .ok ⟨.disabled, none⟩
  else
    let classified := classify method path
    match bearerToken authorization with
    | none =>
      if classified.map Classified.access = some .isPublic then .ok ⟨.anonymous, none⟩
      else .error (.unauthorized "this endpoint requires an API key: Authorization: Bearer <key>")
    | some token => do
      let (entry, oauthClient) ← identify env ring oauth classified token
      -- A path no route claims is the router's to answer.
      match classified with
      | none => return ⟨.key entry, oauthClient⟩
      | some classified =>
        checkAccess entry classified
        return ⟨.key entry, oauthClient⟩

end CameoDb
