import CameoDb.Auth.Codes

/-! # A code is redeemed once

The entry of a code goes at the first redemption after it expires, and a call that redeems that late finds none. -/

namespace CameoDb
open List Function Option Transition

/-- A value has one spelling: what decodes is what the value encodes to. -/
def SealEnv.Canonical (env : SealEnv) : Prop := ∀ text bytes, env.decode text = some bytes → text = env.encode bytes

/-- Two codes a run's calls bring, both signed and of one tag, are one code. -/
def Unforged (server : OAuthServer) (steps : List CodeStep) : Prop :=
  ∀ i c now, CodeStep.check i c now ∈ steps → ∀ i' c' now', CodeStep.check i' c' now' ∈ steps →
    (server.env.openCode c.code).isSome → (server.env.openCode c'.code).isSome →
      codeId c.code = codeId c'.code → c.code = c'.code

/-- A call that redeems a code does so before the code has expired. -/
def redeemsInTime (s : CodeTable) : CodeStep → Bool
  | .check _ _ _ => true
  | .redeem id now =>
    match s.calls id with
    | .checked _ grant => now ≤ grant.exp
    | _ => true

/-- The signed body of a code, whatever the spelling of its tag. -/
def SealEnv.codeBody (env : SealEnv) (code : List Char) : Option (List Char) :=
  (env.verified codePrefixText code).map Prod.fst

/-- No two calls that brought one code were sent tokens. -/
def RedeemedOnce (server : OAuthServer) (s : CodeTable) : Prop :=
  ∀ i j c c' entry entry', s.calls i = .settled c (.ok entry) → s.calls j = .settled c' (.ok entry') →
    server.env.codeBody c.code = server.env.codeBody c'.code → i = j

/-- The call of the client a code was issued to, with what was agreed for it, while the key behind it is live. -/
structure Rightful (server : OAuthServer) (call : CodeCall) (grant : CodeGrant) (entry : KeyEntry) : Prop where
  client : ∃ client, server.authenticateClient call = .ok client ∧ grant.client = server.env.clientHash client
  code : server.env.openCode call.code = some grant
  redirect : call.redirectUri = some grant.redirectUri
  verifier : ∃ verifier, call.codeVerifier = some verifier ∧ server.env.pkceMatches verifier grant.codeChallenge = true
  resource : server.acceptsResource call.resource = true
  key : liveKey call.ring grant.key = .ok entry

/-- No call with this code has come as far as redeeming it; any number may have been refused. -/
def Unredeemed (s : CodeTable) (code : List Char) : Prop :=
  ∀ j c answer, s.calls j = .settled c answer → codeId c.code ≠ codeId code

/-- A code that was not redeemed is sent tokens for: to a rightful call that is still to be made, if it is checked
    before the code expires, and to one that passed its checks, whenever it redeems. -/
structure StaysRedeemable (server : OAuthServer) (s : CodeTable) : Prop where
  unmade : ∀ i call grant entry now now', s.calls i = .unmade → Rightful server call grant entry →
    s.clock ≤ now → now ≤ grant.exp → now ≤ now' → Unredeemed s call.code →
    ∃ s', run server.step s [.check i call now, .redeem i now'] = some s' ∧ s'.calls i = .settled call (.ok entry)
  checked : ∀ i call grant entry now, s.calls i = .checked call grant → liveKey call.ring grant.key =
    .ok entry → s.clock ≤ now →
    Unredeemed s call.code → ∃ s', server.step s (.redeem i now) = some s' ∧ s'.calls i = .settled call (.ok entry)

section
variable {server : OAuthServer} {s s' : CodeTable} {call : CodeCall} {grant : CodeGrant} {now : Nat}
  {steps : List CodeStep}

theorem splitOnceDot_eq {text body tag : List Char} (h : splitOnceDot text = some (body, tag)) :
    text = body ++ '.' :: tag := by
  unfold splitOnceDot at h
  split at h
  · cases h
  · next d after hdrop =>
    have hdot : d = '.' := by
      have hhead := head?_dropWhile_not (fun c : Char => decide (c ≠ '.')) text
      rw [hdrop] at hhead
      simpa using hhead
    obtain ⟨rfl, rfl⟩ := Prod.mk.inj (some.inj h)
    conv_lhs => rw [← takeWhile_append_dropWhile (p := fun c : Char => decide (c ≠ '.')) (l := text), hdrop, hdot]

theorem SealEnv.verified_eq {env : SealEnv} (hcanon : env.Canonical) {kind artifact body tag : List Char}
    (h : env.verified kind artifact = some (body, tag)) :
    artifact = kind ++ body ++ '.' :: env.encode (env.tag kind body) := by
  unfold SealEnv.verified at h
  split at h
  · cases h
  · simp only [Option.bind_eq_bind, bind_eq_some_iff] at h
    obtain ⟨⟨body', tag'⟩, ⟨rest, hrest, hsplit⟩, bytes, hbytes, hif⟩ := h
    dsimp only at hbytes hif
    split at hif
    · next hmac =>
      cases hif
      rw [← hmac, ← hcanon _ _ hbytes, append_assoc, ← splitOnceDot_eq hsplit]
      exact (isPrefixOf?_eq_some_iff_append_eq.mp hrest).symm
    · cases hif

theorem OAuthServer.openCode_of_checkCode (h : server.checkCode call now = .ok grant) :
    server.env.openCode call.code = some grant := by
  unfold OAuthServer.checkCode at h
  cases hclient : server.authenticateClient call with
  | error e => rw [hclient] at h; cases h
  | ok client =>
    rw [hclient] at h
    cases hopen : server.env.openCode call.code with
    | none => simp [hopen, bind, Except.bind] at h
    | some found =>
      simp only [bind, Except.bind, hopen] at h
      split_ifs at h <;> split at h <;> first | cases h | split_ifs at h
      rw [Except.ok.inj h]

variable {e : CodeStep} {code : List Char} {exp : Nat} {table : Redeemed}

theorem OAuthServer.step_cases (h : server.step s e = some s') :
    s.clock ≤ e.now ∧
      ((∃ id call after, e = .check id call e.now ∧ s.calls id = .unmade ∧
      s' = ⟨s.redeemed, e.now, update s.calls id after⟩ ∧
          ((∃ grant, after = .checked call grant ∧ server.env.openCode call.code = some grant) ∨ ∃ error, after =
          .refused call error)) ∨ ∃ id call grant, e = .redeem id e.now ∧ s.calls id = .checked call grant ∧
          s' = ⟨(redeemOnce call.code grant.exp e.now s.redeemed).2, e.now, update s.calls id (.settled call
            (do (redeemOnce call.code grant.exp e.now s.redeemed).1; liveKey call.ring grant.key))⟩) := by
  unfold OAuthServer.step at h
  split_ifs at h with hclock
  refine ⟨Nat.le_of_not_lt hclock, ?_⟩
  obtain ⟨⟨redeemed, id, after⟩, hstep, rfl⟩ := map_eq_some_iff.mp h
  cases e with
  | check id' call now =>
    simp only [OAuthServer.exchangeStep] at hstep
    split at hstep
    · next hunmade =>
      cases hstep
      refine .inl ⟨_, call, _, rfl, hunmade, rfl, ?_⟩
      cases hcheck : server.checkCode call now with
      | ok grant => exact .inl ⟨grant, rfl, openCode_of_checkCode hcheck⟩
      | error e => exact .inr ⟨e, rfl⟩
    · cases hstep
  | redeem id' now =>
    simp only [OAuthServer.exchangeStep] at hstep
    split at hstep
    · next call grant hchecked =>
      cases hstep
      exact .inr ⟨_, call, grant, rfl, hchecked, rfl⟩
    · cases hstep

/-- The calls so far, their codes among `codes`: a redeemed code is in the table until it has expired, and gives
    tokens once. -/
structure CodeTable.Sound (server : OAuthServer) (codes : Set (List Char)) (s : CodeTable) : Prop where
  checked : ∀ i call grant, s.calls i = .checked call grant → call.code ∈ codes ∧
    server.env.openCode call.code = some grant
  settled : ∀ i call answer, s.calls i = .settled call answer → call.code ∈ codes ∧
    ∃ grant, server.env.openCode call.code = some grant ∧
    (s.redeemed (codeId call.code) = some grant.exp ∨ grant.exp < s.clock)
  once : ∀ i j c c' entry entry', s.calls i = .settled c (.ok entry) → s.calls j = .settled c' (.ok entry') →
    c.code = c'.code → i = j

theorem redeemOnce_ok (h : (redeemOnce code exp now table).1 = .ok ()) (until_ : Nat)
    (hentry : table (codeId code) = some until_) : until_ < now := by
  by_contra hle
  simp [redeemOnce, hentry, Nat.not_lt.mp hle] at h

theorem redeemOnce_table (id : List Char) :
    (redeemOnce code exp now table).2 id = if id = codeId code then some exp else (table id).filter (now ≤ ·) := by
  simp [redeemOnce, update_apply]

theorem CodeTable.Sound.step {codes : Set (List Char)}
    (hcodes : ∀ c ∈ codes, ∀ c' ∈ codes, (server.env.openCode c).isSome →
      (server.env.openCode c').isSome → codeId c = codeId c' → c = c') (h : s.Sound server codes)
    (hcode : ∀ i c now, e = .check i c now → c.code ∈ codes) (htime : redeemsInTime s e = true)
    (hstep : server.step s e = some s') :
    s'.Sound server codes := by
  obtain ⟨hchecks, hsettled, honce⟩ := h
  obtain ⟨hclock, ⟨id, call, after, he, hunmade, rfl, hafter⟩ | ⟨id, call, grant, he, hchecked, rfl⟩⟩ :=
    server.step_cases hstep
  · constructor <;> grind [update_apply]
  · obtain ⟨hmem, hopen⟩ := hchecks id call grant hchecked
    -- A call that was sent tokens before has left its code in the table, where this one finds it.
    have hfirst (k : Nat) (c : CodeCall) (answer : Except OAuthError KeyEntry) (hk : s.calls k = .settled c answer)
        (hc : c.code = call.code) : (redeemOnce call.code grant.exp e.now s.redeemed).1 ≠ .ok () := by
      intro hok
      have hnow : e.now ≤ grant.exp := by
        rw [he] at htime
        simpa [redeemsInTime, hchecked] using htime
      have hpast := redeemOnce_ok hok
      grind
    constructor
    · grind [update_apply]
    · grind [update_apply, redeemOnce_table, Option.filter]
    · generalize hanswer : (do (redeemOnce call.code grant.exp e.now s.redeemed).1; liveKey call.ring grant.key) =
        answer
      have hok (entry : KeyEntry) (h : answer = .ok entry) : (redeemOnce call.code grant.exp e.now s.redeemed).1 =
          .ok () := by
        cases hredeem : (redeemOnce call.code grant.exp e.now s.redeemed).1 with
        | ok => rfl
        | error e => rw [hredeem, h] at hanswer; cases hanswer
      grind [update_apply]

/-- Every entry is of the code of a settled call. -/
def CodeTable.Entered (s : CodeTable) : Prop :=
  ∀ id, (s.redeemed id).isSome → ∃ i call answer, s.calls i = .settled call answer ∧ codeId call.code = id

theorem CodeTable.Entered.step (h : s.Entered) (hstep : server.step s e = some s') : s'.Entered := by
  obtain ⟨-, ⟨id, call, after, -, hunmade, rfl, -⟩ | ⟨id, call, grant, -, hchecked, rfl⟩⟩ := server.step_cases hstep
  · intro tag htag
    obtain ⟨i, c, answer, hi, hc⟩ := h tag htag
    exact ⟨i, c, answer, by grind [update_apply], hc⟩
  · intro tag htag
    dsimp only at htag
    rw [redeemOnce_table] at htag
    by_cases hthis : tag = codeId call.code
    · exact ⟨id, call, _, update_self .., hthis.symm⟩
    · rw [if_neg hthis] at htag
      obtain ⟨i, c, answer, hi, hc⟩ := h tag (isSome_of_isSome_filter _ _ htag)
      exact ⟨i, c, answer, by grind [update_apply], hc⟩

theorem CodeTable.Entered.redeem {i : Nat} {entry : KeyEntry} (h : s.Entered)
    (hchecked : s.calls i = .checked call grant)
    (hlive : liveKey call.ring grant.key = .ok entry) (hclock : s.clock ≤ now) (hnone : Unredeemed s call.code) :
    ∃ s', server.step s (.redeem i now) = some s' ∧ s'.calls i = .settled call (.ok entry) := by
  have habsent : s.redeemed (codeId call.code) = none := by
    by_contra hsome
    obtain ⟨j, c, answer, hj, hc⟩ := h _ (isSome_iff_ne_none.mpr hsome)
    exact hnone j c answer hj hc
  simp only [OAuthServer.step, CodeStep.now, Nat.not_lt.mpr hclock, if_false, OAuthServer.exchangeStep, hchecked]
  refine ⟨_, rfl, ?_⟩
  simp [redeemOnce, habsent, hlive, bind, Except.bind]

theorem Rightful.checkCode {entry : KeyEntry} (h : Rightful server call grant entry) (hnow : now ≤ grant.exp) :
    server.checkCode call now = .ok grant := by
  obtain ⟨⟨client, hclient, hhash⟩, hcode, hredirect, ⟨verifier, hverifier, hpkce⟩, hresource, -⟩ := h
  simp [OAuthServer.checkCode, hclient, hcode, hhash, hredirect, hverifier, hpkce, hresource,
    Nat.not_lt.mpr hnow, bind, Except.bind]

theorem CodeTable.Entered.staysRedeemable (h : s.Entered) : StaysRedeemable server s where
  checked i call grant entry now hchecked hlive hclock hnone := h.redeem hchecked hlive hclock hnone
  unmade i call grant entry now now' hunmade hright hclock hexp hlater hnone := by
    -- The check puts the call among those that may redeem and changes no other.
    have hcheck : server.step s (.check i call now) =
        some ⟨s.redeemed, now, update s.calls i (.checked call grant)⟩ := by
      simp [OAuthServer.step, CodeStep.now, Nat.not_lt.mpr hclock, OAuthServer.exchangeStep, hunmade,
        hright.checkCode hexp]
    have hnone' : Unredeemed ⟨s.redeemed, now, update s.calls i (.checked call grant)⟩ call.code := by
      intro j c answer hj
      exact hnone j c answer (by grind [update_apply])
    obtain ⟨s', hs', hcall⟩ : ∃ s', server.step _ (.redeem i now') = some s' ∧ s'.calls i = .settled call (.ok entry) :=
      (h.step hcheck).redeem (update_self ..) hright.key hlater hnone'
    exact ⟨s', by simp [run, hcheck, hs'], hcall⟩

end

/-- Where every call redeems before its code has expired, a code gives tokens once; and calls that are refused leave
    it redeemable. -/
theorem code_redeemed_once (server : OAuthServer) (hcanon : server.env.Canonical) (clock : Nat) (steps : List CodeStep)
    (hmac : Unforged server steps) (s : CodeTable) (hrun : run server.step (.start clock) steps = some s) :
    (Along server.step (fun s e => redeemsInTime s e = true) (.start clock) steps → RedeemedOnce server s) ∧
    StaysRedeemable server s := by
  constructor
  · intro htime
    let codes : Set (List Char) := fun code => ∃ i c now, CodeStep.check i c now ∈ steps ∧ c.code = code
    have hcodes : ∀ c ∈ codes, ∀ c' ∈ codes, (server.env.openCode c).isSome → (server.env.openCode c').isSome →
      codeId c = codeId c' → c = c' := by
      rintro _ ⟨i, c, now, hc, rfl⟩ _ ⟨i', c', now', hc', rfl⟩
      exact hmac i c now hc i' c' now' hc'
    have hbrought : Along server.step (fun _ e => ∀ i c now, e = .check i c now → c.code ∈ codes)
      (.start clock) steps :=
      Along.of_forall (fun e he _ i c now heq => ⟨i, c, now, heq ▸ he, rfl⟩) _
    have hsound : s.Sound server codes := by
      refine run_invariant (fun s e s' hs hok hstep => hs.step hcodes hok.1 hok.2 hstep) ?_ (hbrought.and htime) hrun
      constructor <;> simp [CodeTable.start]
    intro i j c c' entry entry' hi hj hbody
    -- Signed codes of one body are one text, as a tag is spelled in one way.
    have hverified (k : Nat) (c : CodeCall) (answer : Except OAuthError KeyEntry) (hk : s.calls k = .settled c answer) :
        ∃ body tag, server.env.verified codePrefixText c.code = some (body, tag) := by
      obtain ⟨-, grant, hopen, -⟩ := hsound.settled k c answer hk
      obtain ⟨⟨body, tag⟩, hverified, -⟩ := bind_eq_some_iff.mp hopen
      exact ⟨body, tag, hverified⟩
    obtain ⟨body, tag, hv⟩ := hverified i c _ hi
    obtain ⟨body', tag', hv'⟩ := hverified j c' _ hj
    have hsame : body = body' := by simpa [SealEnv.codeBody, hv, hv'] using hbody
    refine hsound.once i j c c' entry entry' hi hj ?_
    rw [SealEnv.verified_eq hcanon hv, SealEnv.verified_eq hcanon hv', hsame]
  · have hentered : s.Entered :=
      run_keeps (fun s e s' hs hstep => hs.step hstep) (by simp [CodeTable.Entered, CodeTable.start]) hrun
    exact hentered.staysRedeemable

/-! ### A call that waits for the lock until its code has expired -/

namespace LateRedemption

def digest : KeyDigest := List.Vector.replicate 32 0

def ring : KeyRing := ⟨true, [⟨digest, .reader, "agent", none, ⟨[], by simp⟩, none, none, none⟩]⟩

/-- The grant of a code that expires at second 160. -/
def grant : CodeGrant := ⟨"", "https://app", "", digest.toConfigValue, 160, "n"⟩

/-- One grant and one public client, their bodies one byte each. -/
def env : SealEnv where
  encode bytes := bytes.map fun b => Char.ofNat (97 + b.toNat)
  decode text := [[0], [1], [2], [3], []].find? fun bytes =>
    bytes.map (fun b : UInt8 => Char.ofNat (97 + b.toNat)) = text
  tag kind _ := if kind = codePrefixText then [2] else [3]
  sha256 _ := []
  grantToVec _ := [0]
  grantFromSlice bytes := if bytes = [0] then some grant else none
  clientFromSlice bytes := if bytes = [1] then some .none else none

def server : OAuthServer := ⟨env, "https://node", "https://node/mcp"⟩

def call : CodeCall where
  ring := ring
  clientId := some (env.sealed clientPrefixText [1])
  clientSecret := none
  code := env.sealed codePrefixText (env.grantToVec grant)
  redirectUri := some "https://app"
  codeVerifier := some (replicate 43 'v')
  resource := none

/-- Both calls are checked at 160. The first redeems at once, the second a second later. -/
def steps : List CodeStep := [.check 0 call 160, .check 1 call 160, .redeem 0 160, .redeem 1 161]

theorem canonical : server.env.Canonical := by
  intro text bytes h
  have hfound := find?_some h
  exact (of_decide_eq_true hfound).symm

theorem unforged : Unforged server steps := by
  have hcall (i c now) (h : CodeStep.check i c now ∈ steps) : c = call := by
    simp only [steps, mem_cons, CodeStep.check.injEq, reduceCtorEq, not_mem_nil, or_false] at h
    rcases h with ⟨-, h, -⟩ | ⟨-, h, -⟩ <;> exact h
  intro i c now hc i' c' now' hc' _ _ _
  rw [hcall i c now hc, hcall i' c' now' hc']

/-- The code of a call that was sent tokens. -/
def redeemedCode (s : CodeTable) (i : Nat) : Option (List Char) :=
  match s.calls i with
  | .settled c (.ok _) => some c.code
  | _ => none

theorem settled_of_redeemedCode {s : CodeTable} {i : Nat} {code : List Char} (h : redeemedCode s i = some code) :
    ∃ c entry, s.calls i = .settled c (.ok entry) ∧ c.code = code := by
  unfold redeemedCode at h
  split at h
  · next c entry hi => exact ⟨c, entry, hi, some.inj h⟩
  · cases h

end LateRedemption

open LateRedemption in
theorem code_redeemed_once_inTime : ∃ s, run server.step (.start 160) [.check 0 call 160, .redeem 0 160] = some s ∧
    RedeemedOnce server s ∧ StaysRedeemable server s := by
  obtain ⟨s, hs⟩ := isSome_iff_exists.mp
    (by decide +kernel : (run server.step (.start 160) [.check 0 call 160, .redeem 0 160]).isSome)
  obtain ⟨honce, hstays⟩ := code_redeemed_once server canonical 160 _
    (fun i c now hc i' c' now' hc' => unforged i c now (by simp_all [steps]) i' c' now' (by simp_all [steps])) s hs
  exact ⟨s, hs, honce (by decide +kernel), hstays⟩

open LateRedemption in
/-- A call checked in time that redeems once the other's entry was pruned is sent tokens as well. -/
theorem code_redeemed_twice : server.env.Canonical ∧ Unforged server steps ∧
    ∃ s, run server.step (.start 160) steps = some s ∧ ¬ RedeemedOnce server s := by
  refine ⟨canonical, unforged, ?_⟩
  have htokens : (run server.step (.start 160) steps).map (fun s => (redeemedCode s 0, redeemedCode s 1)) =
      some (some call.code, some call.code) := by decide +kernel
  obtain ⟨s, hs, hcodes⟩ := map_eq_some_iff.mp htokens
  obtain ⟨c, entry, hi, hc⟩ := settled_of_redeemedCode (congrArg Prod.fst hcodes)
  obtain ⟨c', entry', hj, hc'⟩ := settled_of_redeemedCode (congrArg Prod.snd hcodes)
  exact ⟨s, hs, fun honce => absurd (honce 0 1 c c' entry entry' hi hj (by rw [hc, hc'])) (by decide)⟩

end CameoDb
