import CameoDb.Auth.Codes

/-! # Access and refresh tokens

A token is the claims it was signed with. Nothing else is kept of it, so the time of an approval goes from token to
token. -/

namespace CameoDb

structure TokenClaims where
  key : String
  client : String
  aud : String
  exp : Nat
  authTime : Option Nat
deriving DecidableEq

structure TokenPair where
  accessToken : TokenClaims
  refreshToken : TokenClaims
  expiresIn : Nat
deriving DecidableEq

inductive TokenRefusal where
  | invalid
  | expired
  | wrongAudience
  | keyRevoked

structure TokenServer extends OAuthServer where
  accessTtl : Nat
  refreshTtl : Nat
  approvalMaxAge : Nat

def codeTtlSecs : Nat := 60

/-- What `issue_code` signs when the key's holder approves a request. -/
def approvedGrant (client redirectUri codeChallenge nonce : String) (entry : KeyEntry) (now : Nat) : CodeGrant :=
  ⟨client, redirectUri, codeChallenge, entry.digest.toConfigValue, now + codeTtlSecs, nonce⟩

def saturatingAdd (a b : Nat) : Nat := min (a + b) (2 ^ 64 - 1)

namespace TokenServer

def issueTokens (server : TokenServer) (entry : KeyEntry) (client : String) (authTime now : Nat) : TokenPair :=
  let key := entry.digest.toConfigValue
  let stop := saturatingAdd authTime server.approvalMaxAge
  let accessExp := min ((now + server.accessTtl) % 2 ^ 64) stop
  { accessToken := ⟨key, client, server.resource, accessExp, some authTime⟩
    refreshToken := ⟨key, client, server.resource, min ((now + server.refreshTtl) % 2 ^ 64) stop, some authTime⟩
    expiresIn := accessExp - now }

def exchangeCode (server : TokenServer) (call : CodeCall) (redeemed : Redeemed) (now : Nat) :
    Except OAuthError TokenPair := do
  let grant ← server.checkCode call now
  (redeemOnce call.code grant.exp now redeemed).1
  let entry ← liveKey call.ring grant.key
  pure (server.issueTokens entry grant.client now now)

/-- `refresh`, of what the presented token opened to. -/
def refresh (server : TokenServer) (call : CodeCall) (opened : Option TokenClaims) (now : Nat) :
    Except OAuthError TokenPair := do
  let client ← server.authenticateClient call
  match opened with
  | none => .error (.invalidGrant "the refresh token is not valid")
  | some claims =>
    if claims.exp < now then .error (.invalidGrant "the refresh token has expired")
    else if claims.client ≠ server.env.clientHash client ∨ claims.aud ≠ server.resource then
      .error (.invalidGrant "the refresh token was issued to another client")
    else if server.acceptsResource call.resource = false then
      .error ⟨"invalid_target", s!"this server issues tokens for {server.resource} only"⟩
    else
      -- A token from before `auth_time` existed counts from its own issue.
      let authTime := claims.authTime.getD (claims.exp - server.refreshTtl)
      if saturatingAdd authTime server.approvalMaxAge ≤ now then
        .error (.invalidGrant "this approval has reached its maximum age; sign in again with your key")
      else do
        let entry ← liveKey call.ring claims.key
        pure (server.issueTokens entry claims.client authTime now)

def verifyAccess (server : TokenServer) (ring : KeyRing) (opened : Option TokenClaims) (now : Nat) :
    Except TokenRefusal (KeyEntry × String) :=
  match opened with
  | none => .error .invalid
  | some claims =>
    if claims.exp < now then .error .expired
    else if claims.aud ≠ server.resource then .error .wrongAudience
    else
      match KeyDigest.parse claims.key with
      | .error _ => .error .invalid
      | .ok digest =>
        match ring.byDigest digest with
        | none => .error .keyRevoked
        | some entry => .ok (entry, claims.client)

end TokenServer

/-- One exchange of a code, and refreshes that each bring any earlier refresh token, at times that do not go back. -/
inductive TokenChain (server : TokenServer) (grant : CodeGrant) (exchanged : Nat) : List TokenPair → Nat → Prop where
  | exchange (call : CodeCall) (redeemed : Redeemed) {pair : TokenPair}
      (code : server.env.openCode call.code = some grant)
      (ok : server.exchangeCode call redeemed exchanged = .ok pair) : TokenChain server grant exchanged [pair] exchanged
  | refresh {pairs : List TokenPair} {clock now : Nat} {earlier pair : TokenPair} (call : CodeCall)
      (chain : TokenChain server grant exchanged pairs clock) (bring : earlier ∈ pairs) (later : clock ≤ now)
      (ok : server.refresh call (some earlier.refreshToken) now = .ok pair) : TokenChain server grant
        exchanged (pair :: pairs) now

end CameoDb
