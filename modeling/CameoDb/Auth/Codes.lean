import CameoDb.Auth.Keys
import CameoDb.Lib.Transition

/-! # Authorization codes

A node checks a code, a signed grant, and redeems it in a table that each redemption prunes. The clock is read for
both. -/

namespace CameoDb

structure OAuthError where
  error : String
  description : String
deriving DecidableEq

namespace OAuthError

def invalidRequest (description : String) : OAuthError := ⟨"invalid_request", description⟩

def invalidGrant (description : String) : OAuthError := ⟨"invalid_grant", description⟩

def invalidClient (description : String) : OAuthError := ⟨"invalid_client", description⟩

end OAuthError

inductive ClientAuth where
  | none
  | clientSecretPost
  | clientSecretBasic
deriving DecidableEq

structure CodeGrant where
  client : String
  redirectUri : String
  codeChallenge : String
  key : String
  exp : Nat
  nonce : String
deriving DecidableEq

/-- Base64url, HMAC-SHA256 under the node's secret, SHA-256 and the JSON of the payloads. -/
structure SealEnv where
  encode : List UInt8 → List Char
  decode : List Char → Option (List UInt8)
  tag : List Char → List Char → List UInt8
  sha256 : List Char → List UInt8
  grantToVec : CodeGrant → List UInt8
  grantFromSlice : List UInt8 → Option CodeGrant
  clientFromSlice : List UInt8 → Option ClientAuth

def maxArtifactLen : Nat := 8 * 1024

def codePrefixText : List Char := "cameo_code1_".toList

def clientPrefixText : List Char := "cameo_client1_".toList

def clientSecretDomain : List Char := "cameo_secret1_".toList

def splitOnceDot (text : List Char) : Option (List Char × List Char) :=
  match text.dropWhile (· ≠ '.') with
  | [] => none
  | _ :: after => some (text.takeWhile (· ≠ '.'), after)

namespace SealEnv

/-- `Signer::seal`, of a payload that was serialized. -/
def sealed (env : SealEnv) (kind : List Char) (json : List UInt8) : List Char :=
  kind ++ env.encode json ++ '.' :: env.encode (env.tag kind (env.encode json))

/-- The body and the tag of an artifact this secret signed: `Signer::open` without reading the payload. -/
def verified (env : SealEnv) (kind artifact : List Char) : Option (List Char × List Char) := do
  if maxArtifactLen < byteLength artifact then none
  else
    let (body, tag) ← (kind.isPrefixOf? artifact).bind splitOnceDot
    let bytes ← env.decode tag
    if bytes = env.tag kind body then some (body, tag) else none

/-- `Signer::open`. -/
def opened {T : Type} (env : SealEnv) (fromSlice : List UInt8 → Option T) (kind artifact : List Char) : Option T := do
  let (body, _) ← env.verified kind artifact
  fromSlice (← env.decode body)

def openCode (env : SealEnv) (code : List Char) : Option CodeGrant := env.opened env.grantFromSlice codePrefixText code

def clientSecret (env : SealEnv) (clientId : List Char) : List Char := env.encode (env.tag clientSecretDomain clientId)

def clientHash (env : SealEnv) (clientId : List Char) : String :=
  String.ofList (env.encode ((env.sha256 clientId).take 16))

def pkceMatches (env : SealEnv) (verifier : List Char) (challenge : String) : Bool :=
  43 ≤ byteLength verifier && byteLength verifier ≤ 128 &&
    verifier.all (fun c => c.isAlphanum || c ∈ ['-', '.', '_', '~']) &&
    String.ofList (env.encode (env.sha256 verifier)) = challenge

end SealEnv

structure CodeCall where
  ring : KeyRing
  clientId : Option (List Char)
  clientSecret : Option (List Char)
  code : List Char
  redirectUri : Option String
  codeVerifier : Option (List Char)
  resource : Option String

structure OAuthServer where
  env : SealEnv
  issuer : String
  resource : String

namespace OAuthServer

def acceptsResource (server : OAuthServer) : Option String → Bool
  | none => true
  | some r =>
    let r := String.ofList (r.toList.rdropWhile (· = '/'))
    r = server.resource || r = server.issuer

def authenticateClient (server : OAuthServer) (call : CodeCall) : Except OAuthError (List Char) :=
  match call.clientId with
  | none => .error (.invalidClient "client_id is required")
  | some id =>
    match server.env.opened server.env.clientFromSlice clientPrefixText id with
    | none => .error (.invalidClient "unknown client_id")
    | some .none => .ok id
    | some _ =>
      match call.clientSecret with
      | none => .error (.invalidClient "client_secret is required")
      | some presented =>
        if presented = server.env.clientSecret id then .ok id
        else .error (.invalidClient "client authentication failed")

/-- `exchange_code` up to `redeem_once`. -/
def checkCode (server : OAuthServer) (call : CodeCall) (now : Nat) : Except OAuthError CodeGrant := do
  let client ← server.authenticateClient call
  match server.env.openCode call.code with
  | none => .error (.invalidGrant "the authorization code is not valid")
  | some grant =>
    if grant.exp < now then .error (.invalidGrant "the authorization code has expired")
    else if grant.client ≠ server.env.clientHash client then
      .error (.invalidGrant "the authorization code was issued to another client")
    else if call.redirectUri ≠ some grant.redirectUri then
      .error (.invalidGrant "redirect_uri does not match the authorization request")
    else
      match call.codeVerifier with
      | none => .error (.invalidRequest "code_verifier is required")
      | some verifier =>
        if server.env.pkceMatches verifier grant.codeChallenge = false then
          .error (.invalidGrant "the PKCE code_verifier does not match")
        else if server.acceptsResource call.resource = false then
          .error ⟨"invalid_target", s!"this server issues tokens for {server.resource} only"⟩
        else .ok grant

end OAuthServer

/-- The redeemed codes by their tags, and when each expires. -/
abbrev Redeemed := List Char → Option Nat

/-- `code.rsplit('.').next()`. -/
def codeId (code : List Char) : List Char := code.rtakeWhile (· ≠ '.')

/-- `redeem_once`, under the table's lock with the clock at `now`. -/
def redeemOnce (code : List Char) (exp now : Nat) (redeemed : Redeemed) : Except OAuthError Unit × Redeemed :=
  let kept : Redeemed := fun id => (redeemed id).filter (now ≤ ·)
  (if (kept (codeId code)).isSome then .error (.invalidGrant "the authorization code has already been used")
    else .ok (), Function.update kept (codeId code) (some exp))

def KeyRing.byDigest (ring : KeyRing) (digest : KeyDigest) : Option KeyEntry := ring.entries.find? (·.digest = digest)

/-- The key whose tokens a call is sent. -/
def liveKey (ring : KeyRing) (digest : String) : Except OAuthError KeyEntry :=
  match KeyDigest.parse digest with
  | .error _ => .error (.invalidGrant "the grant names no key")
  | .ok digest =>
    match (ring.byDigest digest).filter (·.has .read) with
    | none => .error (.invalidGrant "the key this grant was issued for has been revoked")
    | some entry => .ok entry

/-- A call has not been made, has passed its checks, was refused by them, or went through `redeem_once` and was
    answered. -/
inductive CallState where
  | unmade
  | checked (call : CodeCall) (grant : CodeGrant)
  | refused (call : CodeCall) (error : OAuthError)
  | settled (call : CodeCall) (answer : Except OAuthError KeyEntry)

structure CodeTable where
  redeemed : Redeemed
  clock : Nat
  calls : Nat → CallState

def CodeTable.start (clock : Nat) : CodeTable := ⟨fun _ => none, clock, fun _ => .unmade⟩

/-- What a call does between two waits, and what it reads from the clock there. -/
inductive CodeStep where
  | check (id : Nat) (call : CodeCall) (now : Nat)
  | redeem (id : Nat) (now : Nat)

def CodeStep.now : CodeStep → Nat
  | .check _ _ now => now
  | .redeem _ now => now

namespace OAuthServer

def exchangeStep (server : OAuthServer) (s : CodeTable) : CodeStep → Option (Redeemed × Nat × CallState)
  | .check id call now =>
    match s.calls id with
    | .unmade =>
      some (s.redeemed, id, match server.checkCode call now with
        | .ok grant => .checked call grant
        | .error e => .refused call e)
    | _ => none
  | .redeem id now =>
    match s.calls id with
    | .checked call grant =>
      let (redeemed, table) := redeemOnce call.code grant.exp now s.redeemed
      some (table, id, .settled call (do redeemed; liveKey call.ring grant.key))
    | _ => none

/-- One step of one of the calls. The clock never goes back. -/
def step (server : OAuthServer) (s : CodeTable) (e : CodeStep) : Option CodeTable :=
  if e.now < s.clock then none
  else (server.exchangeStep s e).map fun (redeemed, id, call) => ⟨redeemed, e.now, Function.update s.calls id call⟩

end OAuthServer

end CameoDb
