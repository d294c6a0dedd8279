import CameoDb.Auth.Tokens
import CameoDb.Theorems.Auth.Codes
import CameoDb.Theorems.Auth.Keyring

/-! # Tokens and the approval they come from

Every token of a chain carries the second of the exchange as its approval's, the chain's key, and an end that second
bounds. The code was approved up to a minute before. -/

namespace CameoDb
open List

/-- No token of a chain outlives the approval, or stands for another key than the one that approved. -/
structure WithinApproval (server : TokenServer) (approver : KeyEntry) (approved : Nat) (pairs : List TokenPair) :
    Prop where
  ends : ∀ pair ∈ pairs, ∀ token ∈ [pair.accessToken, pair.refreshToken],
    token.exp ≤ approved + server.approvalMaxAge ∧ token.key = approver.digest.toConfigValue
  past : ∀ pair ∈ pairs, ∀ call now answer, approved + server.approvalMaxAge ≤ now →
    server.refresh call (some pair.refreshToken) now ≠ .ok answer
  revoked : ∀ pair ∈ pairs, ∀ (call : CodeCall) now, call.ring.byDigest approver.digest = none →
    (∀ answer, server.refresh call (some pair.refreshToken) now ≠ .ok answer) ∧
      ∀ grant, server.verifyAccess call.ring (some pair.accessToken) now ≠ .ok grant

section Chain
variable {server : TokenServer} {approver entry : KeyEntry} {grant : CodeGrant} {exchanged clock now : Nat}
  {pairs : List TokenPair}
  {pair : TokenPair} {call : CodeCall} {claims : TokenClaims} {ring : KeyRing} {digest : KeyDigest}

theorem liveKey_ok (h : liveKey ring digest.toConfigValue = .ok entry) : ring.byDigest digest = some entry := by
  simp only [liveKey, KeyDigest.parse_toConfigValue] at h
  cases hfound : (ring.byDigest digest).filter (·.has .read) with
  | none =>
    rw [hfound] at h
    cases h
  | some found =>
    rw [hfound] at h
    cases h
    exact (Option.filter_eq_some_iff.mp hfound).1

theorem digest_of_byDigest (h : ring.byDigest digest = some entry) : entry.digest = digest := by
  simpa using find?_some h

theorem TokenServer.refresh_ok (h : server.refresh call (some claims) now = .ok pair) :
    ∃ entry, liveKey call.ring claims.key = .ok entry ∧
      now < saturatingAdd (claims.authTime.getD (claims.exp - server.refreshTtl)) server.approvalMaxAge ∧
      pair = server.issueTokens entry claims.client (claims.authTime.getD (claims.exp - server.refreshTtl)) now := by
  obtain ⟨client, -, h⟩ := Checked.bind_eq_ok.mp h
  dsimp only at h
  split_ifs at h with hexp hclient hresource hover
  obtain ⟨entry, hentry, h⟩ := Checked.bind_eq_ok.mp h
  cases h
  exact ⟨entry, hentry, not_le.mp hover, rfl⟩

/-- What every token of a chain carries. -/
structure CarriesExchange (server : TokenServer) (approver : KeyEntry) (exchanged : Nat) (token : TokenClaims) :
    Prop where
  key : token.key = approver.digest.toConfigValue
  authTime : token.authTime = some exchanged
  ends : token.exp ≤ saturatingAdd exchanged server.approvalMaxAge

theorem TokenServer.issueTokens_carry (client : String) (now : Nat) (h : entry.digest = approver.digest) :
    CarriesExchange server approver exchanged (server.issueTokens entry client exchanged now).accessToken ∧
      CarriesExchange server approver exchanged (server.issueTokens entry client exchanged now).refreshToken :=
  ⟨⟨congrArg KeyDigest.toConfigValue h, rfl, min_le_right _ _⟩,
    ⟨congrArg KeyDigest.toConfigValue h, rfl, min_le_right _ _⟩⟩

theorem TokenChain.carries (chain : TokenChain server grant exchanged pairs clock)
    (hkey : grant.key = approver.digest.toConfigValue) :
    ∀ pair ∈ pairs, CarriesExchange server approver exchanged pair.accessToken ∧
      CarriesExchange server approver exchanged pair.refreshToken := by
  induction chain with
  | exchange call redeemed code ok =>
    obtain ⟨opened, hcheck, ok⟩ := Checked.bind_eq_ok.mp ok
    obtain ⟨⟨⟩, -, ok⟩ := Checked.bind_eq_ok.mp ok
    obtain ⟨entry, hentry, ok⟩ := Checked.bind_eq_ok.mp ok
    cases ok
    obtain rfl : opened = grant := Option.some.inj ((OAuthServer.openCode_of_checkCode hcheck).symm.trans code)
    rw [hkey] at hentry
    rw [forall_mem_singleton]
    exact server.issueTokens_carry _ _ (digest_of_byDigest (liveKey_ok hentry))
  | refresh call chain bring later ok ih =>
    obtain ⟨entry, hentry, -, rfl⟩ := TokenServer.refresh_ok ok
    obtain ⟨-, hcarries⟩ := ih _ bring
    rw [hcarries.key] at hentry
    rw [hcarries.authTime, Option.getD_some]
    exact forall_mem_cons.mpr ⟨server.issueTokens_carry _ _ (digest_of_byDigest (liveKey_ok hentry)), ih⟩

end Chain

/-- A chain whose code was exchanged in the second it was approved stays within its approval. -/
theorem tokens_within_approval {server : TokenServer} (approver : KeyEntry)
    (client redirectUri codeChallenge nonce : String) {approved exchanged clock : Nat} {pairs : List TokenPair}
    (chain : TokenChain server (approvedGrant client redirectUri codeChallenge nonce approver approved)
    exchanged pairs clock) (h : exchanged = approved) : WithinApproval server approver approved pairs := by
  subst h
  have hcarries := chain.carries rfl
  have hstop : saturatingAdd exchanged server.approvalMaxAge ≤ exchanged + server.approvalMaxAge := min_le_left _ _
  refine ⟨fun pair hpair => ?_, fun pair hpair call now answer hover hok => ?_, fun pair hpair call now hgone =>
    ⟨fun answer hok => ?_, fun grant hok => ?_⟩⟩
  all_goals obtain ⟨haccess, hrefresh⟩ := hcarries pair hpair
  · rw [forall_mem_cons, forall_mem_singleton]
    exact ⟨⟨haccess.ends.trans hstop, haccess.key⟩, hrefresh.ends.trans hstop, hrefresh.key⟩
  · obtain ⟨entry, -, hbefore, -⟩ := TokenServer.refresh_ok hok
    rw [hrefresh.authTime, Option.getD_some] at hbefore
    omega
  · obtain ⟨entry, hentry, -⟩ := TokenServer.refresh_ok hok
    rw [hrefresh.key] at hentry
    rw [liveKey_ok hentry] at hgone
    cases hgone
  · simp only [TokenServer.verifyAccess, haccess.key, KeyDigest.parse_toConfigValue, hgone] at hok
    split_ifs at hok

namespace SlowExchange
open LateRedemption

def server : TokenServer := { LateRedemption.server with accessTtl := 3600, refreshTtl := 3600, approvalMaxAge := 3600 }

def approver : KeyEntry := ⟨digest, .reader, "agent", none, .empty, none, none, none⟩

/-- Approved at second 100: exchanged at once and refreshed later on, or exchanged half a minute after the approval. -/
theorem exchanges :
    (∃ early, server.exchangeCode call (fun _ => none) 100 = .ok early ∧
      ∃ later, server.refresh call (some early.refreshToken) 900 = .ok later ∧ True) ∧
    ∃ late, server.exchangeCode call (fun _ => none) 130 = .ok late ∧ late.accessToken.exp = 3730 := by
  decide +kernel

theorem code_approved :
    server.env.openCode call.code = some (approvedGrant "" "https://app" "" "n" approver 100) := by
  decide +kernel

end SlowExchange

open SlowExchange in
theorem tokens_within_approval_atOnce : ∃ early later, WithinApproval server approver 100 [later, early] := by
  obtain ⟨⟨early, hearly, later, hlater, -⟩, -⟩ := exchanges
  have chain := TokenChain.refresh _ (.exchange _ _ code_approved hearly) mem_cons_self
    (show 100 ≤ 900 by decide) hlater
  exact ⟨early, later, tokens_within_approval approver _ _ _ _ chain rfl⟩

open SlowExchange in
/-- Approved at second 100 for an hour, the token of an exchange at second 130 lasts until second 3730. -/
theorem tokens_outlive_approval : ∃ pairs clock,
    TokenChain server (approvedGrant "" "https://app" "" "n" approver 100) 130 pairs clock ∧
    ¬ WithinApproval server approver 100 pairs := by
  obtain ⟨-, late, hlate, hexp⟩ := exchanges
  refine ⟨_, _, .exchange _ _ code_approved hlate, fun h => ?_⟩
  have hends := (h.ends late mem_cons_self late.accessToken mem_cons_self).1
  rw [hexp] at hends
  exact absurd hends (by decide)

end CameoDb
