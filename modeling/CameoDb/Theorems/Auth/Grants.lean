import CameoDb.Theorems.Auth.ManagedFiles
import CameoDb.Theorems.Auth.Requests

/-! # Key management does not escalate

What a request to `/_keys` or `/_tenants` gives to keys and tenants, against what the calling key reaches itself. -/

namespace CameoDb
open List Option IndexScope Checked Std

/-! ### What keys reach -/

def tenantList (config : SecurityConfig) (tenant : String) : Option (List String) :=
  config.tenants[tenant]?.bind TenantQuota.allowedIndexes

def reachList (config : SecurityConfig) (key : ApiKeyConfig) : Option (List String) :=
  key.allowedIndexes.or ((key.tenant.map trim).bind (tenantList config))

section Reach
variable {env : KeyEnv} {config config' : SecurityConfig} {scopes : List (String × IndexScope)} {ring : KeyRing}
  {key : ApiKeyConfig} {entry other : KeyEntry} {index tenant : String} {list : List String}

theorem tenantLists_iff : TenantLists config tenant list ↔ tenantList config tenant = some list :=
  bind_eq_some_iff.symm

theorem tenantList_congr (h : config.tenants[tenant]? = config'.tenants[tenant]?) :
    tenantList config tenant = tenantList config' tenant :=
  congrArg (fun quota => quota.bind TenantQuota.allowedIndexes) h

/-- What bounds a tenant's keys: no list and no scope, or a list and the scope it parses to. -/
theorem Loaded.lookup (h : Loaded env config scopes ring) (tenant : String) :
    (tenantList config tenant = none ∧ scopes.lookup tenant = none) ∨
      ∃ list scope, tenantList config tenant = some list ∧ scopes.lookup tenant = some scope ∧
      parse list = .ok scope := by
  cases hlookup : scopes.lookup tenant with
  | some scope =>
    obtain ⟨quota, list, hquota, hlist, hparse⟩ := (lookup_tenantScopes h.tenants).mp hlookup
    exact .inr ⟨list, scope, tenantLists_iff.mp ⟨quota, hquota, hlist⟩, rfl, hparse⟩
  | none =>
    refine .inl ⟨eq_none_iff_forall_ne_some.mpr fun list hlist => ?_, rfl⟩
    obtain ⟨quota, hquota, hlist⟩ := tenantLists_iff.mpr hlist
    obtain ⟨scope, -, hscope⟩ := HasScope.of_tenantScopes h.tenants hquota hlist
    rw [(lookup_tenantScopes h.tenants).mpr hscope] at hlookup
    cases hlookup

theorem Loaded.bound (h : Loaded env config scopes ring) (hentry : Resolves env scopes key entry) :
    (reachList config key = none ∧ entry.allowedIndexes.or entry.tenantScope = none) ∨
      ∃ list scope, reachList config key = some list ∧ entry.allowedIndexes.or entry.tenantScope = some scope ∧
        parse list = .ok scope := by
  have hown := hentry.own
  unfold reachList
  cases hlist : key.allowedIndexes with
  | some list =>
    obtain ⟨scope, hscope, hparse⟩ := hentry.own_some hlist
    exact .inr ⟨list, scope, rfl, by rw [hscope, some_or], hparse⟩
  | none =>
    rw [hlist] at hown
    cases hnone : entry.allowedIndexes with
    | some scope =>
      rw [hnone] at hown
      cases hown
    | none =>
      rw [none_or, none_or, hentry.scope, ← hentry.tenant]
      cases entry.tenant with
      | none => exact .inl ⟨rfl, rfl⟩
      | some tenant => exact h.lookup tenant

theorem Loaded.reach (h : Loaded env config scopes ring) (hentry : Resolves env scopes key entry) :
    entry.allowsIndex index = true ↔ ∀ list, reachList config key = some list → Lists list index := by
  have hscope : entry.allowsIndex index = true ↔
      ∀ scope, entry.allowedIndexes.or entry.tenantScope = some scope → scope.allows index = true := by
    rw [KeyEntry.allowsIndex_iff]
    cases hown : entry.allowedIndexes with
    | none => simp
    | some own =>
      simp only [some.injEq, forall_eq', some_or, and_iff_left_iff_imp]
      intro hindex scope htenant
      exact allows_of_firstOutside (hentry.inTenant scope own htenant hown) hindex
  rw [hscope]
  rcases h.bound hentry with ⟨hlist, hbound⟩ | ⟨list, scope, hlist, hbound, hparse⟩
  · simp [hlist, hbound]
  · simp only [hlist, hbound, some.injEq, forall_eq', allows_iff hparse]

theorem Loaded.parses (h : Loaded env config scopes ring) (hentry : Resolves env scopes key entry)
    (hlist : reachList config key = some list) : ∃ scope, parse list = .ok scope := by
  rcases h.bound hentry with ⟨hnone, -⟩ | ⟨own, scope, hown, -, hparse⟩
  · cases hlist.symm.trans hnone
  · cases hlist.symm.trans hown
    exact ⟨scope, hparse⟩

theorem Loaded.eq_of_digest (h : Loaded env config scopes ring) (hentry : entry ∈ ring.entries)
    (hother : other ∈ ring.entries) (hdigest : entry.digest = other.digest) : entry = other :=
  inj_on_of_nodup_map h.nodup hentry hother hdigest

theorem reachList_ne (h : reachList config key ≠ reachList config' key) :
    key.allowedIndexes = none ∧ ∃ tenant, key.tenant.map trim = some tenant ∧
    tenantList config tenant ≠ tenantList config' tenant := by
  unfold reachList at h
  cases hown : key.allowedIndexes with
  | some list => simp [hown] at h
  | none =>
    cases htenant : key.tenant.map trim with
    | none => simp [htenant, hown] at h
    | some tenant => exact ⟨rfl, tenant, rfl, by simpa [htenant, hown] using h⟩

theorem not_lists_empty {scope : IndexScope} (h : parse list = .ok scope) : ¬ Lists list "" := by
  rw [← allows_iff h]
  refine NamePattern.not_anyMatches_nil fun p hp => ?_
  obtain ⟨pattern, -, hne, hparse⟩ := (mem_patterns h).1 p hp
  exact IndexPattern.parse_text hparse hne

theorem Loaded.not_allows_empty (h : Loaded env config scopes ring) (hentry : entry ∈ ring.entries)
    (hscoped : entry.isIndexScoped = true) : ¬ entry.allowsIndex "" = true := by
  obtain ⟨key, -, hresolves⟩ := exists_left h.entries hentry
  rw [h.reach hresolves]
  rcases h.bound hresolves with ⟨-, hbound⟩ | ⟨list, scope, hlist, -, hparse⟩
  · rw [or_eq_none_iff] at hbound
    simp [KeyEntry.isIndexScoped, hbound] at hscoped
  · intro hnames
    exact not_lists_empty hparse (hnames list hlist)

end Reach

/-! ### What a caller may grant -/

section Grant
variable {entry : KeyEntry} {index : String}

theorem allowsIndex_of_unscoped (h : entry.isIndexScoped = false) : entry.allowsIndex index = true := by
  unfold KeyEntry.isIndexScoped at h
  rw [Bool.or_eq_false_iff, isSome_eq_false_iff, isSome_eq_false_iff] at h
  simp [KeyEntry.allowsIndex_iff, isNone_iff_eq_none.mp h.1, isNone_iff_eq_none.mp h.2]

theorem checkGrant_ok {grant : Option (List String)} (h : checkGrant (.key entry) grant = .ok ())
    (hparses : ∀ list, grant = some list → ∃ scope, parse list = .ok scope)
    (hnames : ∀ list, grant = some list → Lists list index) : entry.allowsIndex index = true := by
  cases hscoped : entry.isIndexScoped with
  | false => exact allowsIndex_of_unscoped hscoped
  | true =>
    cases hgrant : grant with
    | none => simp [checkGrant, KeyEntry.grantOutside, hscoped, hgrant] at h
    | some list =>
      obtain ⟨scope, hparse⟩ := hparses list hgrant
      simp only [checkGrant, KeyEntry.grantOutside, hgrant, hparse, hscoped, Bool.not_true,
        Bool.false_eq_true, if_false] at h
      split at h
      · cases h
      · rename_i hnone
        rw [map_eq_none_iff, findSome?_eq_none_iff] at hnone
        refine all_eq_true.mpr fun own hown => ?_
        exact allows_of_firstOutside (hnone own hown) ((allows_iff hparse).mpr (hnames list hgrant))

end Grant

/-! ### Names -/

/-- Every pattern of the list starts with the tenant's name. -/
def NamedAfter (tenant : String) (list : List String) : Prop :=
  ∀ pattern ∈ list, trim pattern ≠ "" → startsWith (trim pattern) (tenant ++ "-") = true

section Names
variable {tenant : String} {list : List String}

theorem not_isWhiteSpace_of_valid (h : validTenantName tenant = true) :
    ∀ c ∈ tenant.toList, isWhiteSpace c = false ∧ c ≠ '*' := by
  refine forall_of_validTenantName h (fun c hc => ⟨isWhiteSpace_of_isAlphanum hc, ?_⟩) (by simp [isWhiteSpace])
  rintro rfl
  exact absurd hc (by decide)

theorem trim_of_valid (h : validTenantName tenant = true) : trim tenant = tenant :=
  trim_eq fun c hc => (not_isWhiteSpace_of_valid h c hc).1

theorem not_startsWith_empty : ¬ startsWith "" (tenant ++ "-") = true := by
  rw [startsWith_iff, String.toList_append]
  intro hnil
  exact absurd (prefix_nil.mp hnil) (by simp)

theorem namedAfter_iff {scope : IndexScope} (hvalid : validTenantName tenant = true) (hparse : parse list = .ok scope) :
    (∀ index, Lists list index → startsWith index (tenant ++ "-") = true) ↔ NamedAfter tenant list := by
  have hstar : '*' ∉ (tenant ++ "-").toList := by
    rw [String.toList_append, mem_append]
    rintro (hmem | hmem)
    · exact (not_isWhiteSpace_of_valid hvalid _ hmem).2 rfl
    · exact absurd hmem (by decide)
  have hpatterns : (∀ index, Lists list index → startsWith index (tenant ++ "-") = true) ↔
      ∀ p ∈ scope.patterns, (tenant ++ "-").toList <+: p.text := by
    rw [← NamePattern.forall_anyMatches_iff]
    constructor
    · intro h name hname
      have hindex := h (String.ofList name) ((allows_iff hparse).mp (by rwa [allows, String.toList_ofList]))
      rwa [startsWith_iff, String.toList_ofList] at hindex
    · intro h index hindex
      exact startsWith_iff.mpr (h index.toList ((allows_iff hparse).mpr hindex))
  obtain ⟨hleft, hright⟩ := mem_patterns hparse
  rw [hpatterns]
  constructor
  · intro h pattern hpattern hne
    obtain ⟨p, hp, hparsed⟩ := hright pattern hpattern hne
    exact startsWith_iff.mpr ((IndexPattern.parse_startsWith hparsed hstar).mp (h p hp))
  · intro h p hp
    obtain ⟨pattern, hpattern, hne, hparsed⟩ := hleft p hp
    exact (IndexPattern.parse_startsWith hparsed hstar).mpr (startsWith_iff.mp (h pattern hpattern hne))

theorem namedAfter_ownNames (hvalid : validTenantName tenant = true) : NamedAfter tenant (ownNames tenant) := by
  intro pattern hpattern _
  obtain rfl := mem_singleton.mp hpattern
  have htrim : trim (tenant ++ "-*") = tenant ++ "-*" := by
    refine trim_eq fun c hc => ?_
    rw [String.toList_append, mem_append] at hc
    rcases hc with hc | hc
    · exact (not_isWhiteSpace_of_valid hvalid c hc).1
    · have hall : ("-*".toList.all fun c => !isWhiteSpace c) = true := by decide
      simpa using all_eq_true.mp hall c hc
  rw [htrim, startsWith_iff, String.toList_append, String.toList_append]
  exact (prefix_append_right_inj _).mpr (by decide)

end Names

/-! ### What the handlers check -/

def KeyRequest.changes : KeyRequest → Option Slot
  | .listKeys | .listTenants | .getTenant _ => none
  | .createKey _ | .updateKey _ _ | .revokeKey _ => some .keys
  | .putTenant tenant _ | .deleteTenant tenant | .createTenantKey tenant _ | .revokeTenantKey tenant _ =>
    some (.tenant tenant)

section Checks
variable {before after : KeyNode} {call : KeyCall} {caller : KeyEntry} {tenant : String}

theorem checkUnbounded_ok (h : checkUnbounded (.key caller) = .ok ()) : caller.isTenantScoped = false := by
  simp only [checkUnbounded] at h
  split at h
  · cases h
  · rename_i hnot
    exact Bool.eq_false_iff.mpr hnot

theorem checkTenant_ok (h : checkTenant (.key caller) tenant = .ok ()) : caller.allowsTenant tenant = true := by
  by_contra hnot
  rw [checkTenant, if_neg (show ¬ mayManage (.key caller) tenant = true from hnot)] at h
  cases h

variable {list : List String} {spec : KeySpec} {slot : Slot}

theorem checkNamed_ok (h : checkNamed (.key caller) tenant (some list) = .ok ())
    (hbounded : caller.isTenantScoped = true) : NamedAfter tenant list := by
  simp only [checkNamed, hbounded, if_true, getD_some] at h
  split at h
  · cases h
  · rename_i hnone
    intro pattern hpattern _
    have hstart := find?_eq_none.mp hnone pattern hpattern
    rw [startsWith, trim, String.toList_ofList]
    simpa using hstart

theorem tenantGrant_ok {grant : Option (List String)} (h : tenantGrant before tenant spec = .ok grant) :
    grant = spec.allowedIndexes.or (tenantList before.security tenant) := by
  unfold tenantGrant at h
  split at h
  · rename_i list hlist
    cases h
    rw [hlist, some_or]
  · rename_i hnone
    unfold getTenant at h
    split at h
    · rename_i hcontains
      cases h
      obtain ⟨quota, hquota⟩ := exists_of_contains hcontains
      simp [hnone, tenantList, tenantView, hquota]
    · cases h

theorem bounded_changes (h : checkCall before call = .ok ()) (hcaller : call.authz = .key caller)
    (hbounded : caller.isTenantScoped = true) (hslot : call.request.changes = some slot) :
    ∃ tenant, slot = .tenant tenant ∧ caller.allowsTenant tenant = true := by
  have hunbounded (hcheck : checkUnbounded call.authz = .ok ()) : False := by
    rw [hcaller] at hcheck
    rw [checkUnbounded_ok hcheck] at hbounded
    cases hbounded
  unfold checkCall at h
  cases hrequest : call.request with
  | listKeys | listTenants | getTenant =>
    rw [hrequest] at hslot
    cases hslot
  | revokeKey =>
    rw [hrequest] at h
    exact (hunbounded h).elim
  | createKey | updateKey =>
    rw [hrequest] at h
    obtain ⟨⟨⟩, hcheck, -⟩ := bind_eq_ok.mp h
    exact (hunbounded hcheck).elim
  | revokeTenantKey tenant =>
    rw [hrequest] at h hslot
    cases hslot
    rw [hcaller] at h
    exact ⟨tenant, rfl, checkTenant_ok h⟩
  | putTenant tenant | deleteTenant tenant | createTenantKey tenant =>
    rw [hrequest] at h hslot
    cases hslot
    obtain ⟨⟨⟩, hcheck, -⟩ := bind_eq_ok.mp h
    rw [hcaller] at hcheck
    exact ⟨tenant, rfl, checkTenant_ok hcheck⟩

theorem mint_checked (h : checkCall before call = .ok ()) (hrequest : call.request = slot.mintRequest spec) :
    checkGrant call.authz (spec.allowedIndexes.or (slot.owner.bind (tenantList before.security))) = .ok () := by
  unfold checkCall at h
  rw [hrequest] at h
  cases slot with
  | keys =>
    obtain ⟨⟨⟩, -, hgrant⟩ := bind_eq_ok.mp h
    rw [Slot.owner, bind_none, or_none]
    exact hgrant
  | tenant =>
    obtain ⟨⟨⟩, -, h⟩ := bind_eq_ok.mp h
    obtain ⟨grant, hgrant, h⟩ := bind_eq_ok.mp h
    rw [tenantGrant_ok hgrant] at h
    exact h

theorem put_checked {spec : TenantSpec} (h : checkCall before call = .ok ()) (hcaller : call.authz = .key caller)
    (hrequest : call.request = .putTenant tenant spec) (hvalid : validTenantName tenant = true)
    (hset : scopeSet before tenant spec = some list) :
    checkGrant (.key caller) (some list) = .ok () ∧ (caller.isTenantScoped = true → NamedAfter tenant list) := by
  unfold checkCall at h
  rw [hrequest, hcaller] at h
  obtain ⟨⟨⟩, -, h⟩ := bind_eq_ok.mp h
  obtain ⟨⟨⟩, hnamed, h⟩ := bind_eq_ok.mp h
  rw [hset] at h
  refine ⟨h, fun hbounded => ?_⟩
  unfold scopeSet at hset
  cases hspec : spec.allowedIndexes with
  | some own =>
    rw [hspec] at hset hnamed
    cases hset
    exact checkNamed_ok hnamed hbounded
  | none =>
    rw [hspec, none_or] at hset
    split at hset
    · cases hset
    · cases hset
      exact namedAfter_ownNames hvalid

end Checks

/-! ### Escalation -/

/-- The key of the secret a mint request answers with. -/
def Minted (world : KeyWorld) (call : KeyCall) (after : KeyNode) (key : KeyEntry) : Prop :=
  key ∈ after.ring.entries ∧ key.digest = world.env.sha256 call.body ∧ ∃ slot spec, call.request =
    Slot.mintRequest slot spec

/-- A key of before that now allows other indexes. -/
def Rescoped (before after : KeyNode) (key : KeyEntry) : Prop :=
  key ∈ after.ring.entries ∧ ∃ old ∈ before.ring.entries, old.digest = key.digest ∧
    ∃ index, old.allowsIndex index ≠ key.allowsIndex index

/-- The request lists the tenant's indexes, or creates the tenant. -/
def SetsScope (request : KeyRequest) (before : KeyNode) (tenant : String) : Prop :=
  ∃ spec, request = .putTenant tenant spec ∧ (spec.allowedIndexes.isSome = true ∨
    before.security.tenants[tenant]? = none)

/-- What a caller's request gave to whom lies within what the caller has. -/
structure NeverEscalates (world : KeyWorld) (caller : KeyEntry) (call : KeyCall) (before after : KeyNode) : Prop where
  minted : ∀ key, Minted world call after key → key.role = .writer ∨ key.role = .reader
  granted : ∀ key, Minted world call after key ∨ Rescoped before after key →
    ∀ index, key.allowsIndex index = true → caller.allowsIndex index = true
  scopes : ∀ tenant list, SetsScope call.request before tenant → TenantLists after.security tenant list →
    ∀ index, Lists list index → caller.allowsIndex index = true
  tenants : caller.isTenantScoped = true → ∀ tenant : String, caller.allowsTenant tenant = false →
    after.security.tenants[tenant]? = before.security.tenants[tenant]?
  keys : caller.isTenantScoped = true → ∀ key : ApiKeyConfig,
    (∀ tenant, key.tenant = some tenant → caller.allowsTenant tenant = false) →
      (key ∈ after.security.keys ↔ key ∈ before.security.keys)
  namedKeys : caller.isTenantScoped = true → ∀ key tenant, Minted world call after key ∨ Rescoped before after key →
    call.request.changes = some (.tenant tenant) →
      ∀ index, key.allowsIndex index = true → startsWith index (tenant ++ "-") = true
  namedScopes : caller.isTenantScoped = true → ∀ tenant list, SetsScope call.request before tenant →
    TenantLists after.security tenant list → ∀ index, Lists list index → startsWith index (tenant ++ "-") = true

/-- What the handlers do not check: that the keys of a tenant that goes have lists of their own, if the tenant was
    scoped; and that a key a bounded caller mints for a tenant is bounded to names of that tenant. -/
def Contained (world : KeyWorld) (caller : KeyEntry) (request : KeyRequest) (before : KeyNode) : Prop :=
  match request with
  | .deleteTenant tenant =>
    caller.isIndexScoped = true ∨ caller.isTenantScoped = true → tenantList before.security tenant ≠ none →
      ∀ path, slotPath before.security (.tenant tenant) = .ok path →
        ∀ key, HoldsKey world (before.files.erase path) key → key.tenant.map trim = some tenant →
          key.allowedIndexes ≠ none
  | .createTenantKey tenant spec =>
    caller.isTenantScoped = true →
      ∃ list, spec.allowedIndexes.or (tenantList before.security tenant) = some list ∧ NamedAfter tenant list
  | _ => True

section Escalation
variable {world : KeyWorld} {before after : KeyNode} {call : KeyCall} {caller key : KeyEntry}
  {scopes scopes' : List (String × IndexScope)}
  {spec : KeySpec} {slot : Slot} {tenant : String} {body : String} {request : KeyRequest}

theorem mintedEntry_digest {body path : String}
    (h : Resolves world.env scopes (mintedEntry world slot spec body path) key) :
    key.digest = world.env.sha256 body := by
  obtain ⟨origin, raw, hraw, hparse⟩ := h.digest
  cases hraw
  rw [KeyDigest.parse_toConfigValue] at hparse
  exact (Except.ok.inj hparse).symm

theorem reachList_mintedEntry {config : SecurityConfig} {body path : String}
    (hvalid : ∀ tenant, slot = .tenant tenant → validTenantName tenant = true) :
    reachList config (mintedEntry world slot spec body path) = spec.allowedIndexes.or
    (slot.owner.bind (tenantList config)) := by
  unfold reachList mintedEntry
  cases slot with
  | keys => rfl
  | tenant name => simp only [Slot.owner, map_some, trim_of_valid (hvalid name rfl)]

theorem reachList_minted {body path : String} (hvalid : ∀ tenant, slot = .tenant tenant → validTenantName tenant = true)
    (htenants : ∀ tenant : String, after.security.tenants[tenant]? = before.security.tenants[tenant]?) :
    reachList after.security (mintedEntry world slot spec body path) =
      spec.allowedIndexes.or (slot.owner.bind (tenantList before.security)) := by
  rw [reachList_mintedEntry hvalid, show tenantList after.security = tenantList before.security from
    funext fun tenant => tenantList_congr (htenants tenant)]

/-- A key that reaches other indexes stands in the configuration anew, or is bounded by another list. -/
theorem Rescoped.moved (h : Rescoped before after key) (hbefore : Loaded world.env before.security scopes before.ring)
    (hafter : Loaded world.env after.security scopes' after.ring) :
    ∃ k ∈ after.security.keys, Resolves world.env scopes' k key ∧
      (k ∈ before.security.keys → reachList after.security k ≠ reachList before.security k) := by
  obtain ⟨hkey, old, hold, hdigest, index, hdiffers⟩ := h
  obtain ⟨k, hk, hresolves⟩ := exists_left hafter.entries hkey
  refine ⟨k, hk, hresolves, fun hkept hsame => hdiffers ?_⟩
  obtain ⟨found, hfound, hold'⟩ := exists_right hbefore.entries hkept
  obtain rfl := hbefore.eq_of_digest hfound hold ((hold'.congr hresolves).1.symm.trans hdigest.symm)
  rw [Bool.eq_iff_iff, hbefore.reach hold', hafter.reach hresolves, hsame]

/-- What the keys that were minted or rescoped were configured by. -/
theorem Minted.entry {path : String} (h : Minted world call after key)
    (hafter : Loaded world.env after.security scopes' after.ring)
    (hentry : mintedEntry world slot spec call.body path ∈ after.security.keys) :
    Resolves world.env scopes' (mintedEntry world slot spec call.body path) key := by
  obtain ⟨found, hfound, hresolves⟩ := exists_right hafter.entries hentry
  obtain rfl := hafter.eq_of_digest hfound h.1 ((mintedEntry_digest hresolves).trans h.2.1.symm)
  exact hresolves

theorem put_tenantList {spec : TenantSpec} (hquota : after.security.tenants[tenant]? =
      some (spec.applyTo ((before.security.tenants[tenant]?).getD { allowedIndexes := some (ownNames tenant) }))) :
    tenantList after.security tenant = (scopeSet before tenant spec).or (tenantList before.security tenant) := by
  unfold tenantList scopeSet
  rw [hquota, bind_some, ExtTreeMap.contains_eq_isSome_getElem?]
  cases before.security.tenants[tenant]? <;> cases hspec : spec.allowedIndexes <;> simp [TenantSpec.applyTo, hspec]

/-- A request of a key that succeeded, and the configurations in force before and after it. -/
structure Served (world : KeyWorld) (caller : KeyEntry) (call : KeyCall) (before after : KeyNode)
    (scopes scopes' : List (String × IndexScope)) : Prop where
  authz : call.authz = .key caller
  checked : checkCall before call = .ok ()
  effect : Effect world before after call.body call.request
  loaded : Loaded world.env before.security scopes before.ring
  reloaded : Loaded world.env after.security scopes' after.ring

/-- Where the list that bounds `k` after a request comes from. -/
inductive Given (call : KeyCall) (before after : KeyNode) (k : ApiKeyConfig) : Prop where
  | minted (slot : Slot) (spec : KeySpec) (request : call.request = slot.mintRequest spec)
      (list : reachList after.security k = spec.allowedIndexes.or (slot.owner.bind (tenantList before.security)))
  | rescoped (keyId : String) (patch : KeyPatch) (request : call.request = .updateKey keyId patch)
      (list : reachList after.security k = some patch.allowedIndexes)
  | inTenant (tenant : String) (spec : TenantSpec) (request : call.request = .putTenant tenant spec)
      (given : List String)
      (set : scopeSet before tenant spec = some given) (list : reachList after.security k = some given)
  | released (tenant : String) (request : call.request = .deleteTenant tenant)
      (had : tenantList before.security tenant ≠ none)
      (owner : k.tenant.map trim = some tenant) (unlisted : k.allowedIndexes = none)

theorem SlotEdit.tenantList_ne {owner path : String} (edit : SlotEdit world (.tenant tenant) path before after)
    (h : tenantList after.security owner ≠ tenantList before.security owner) : tenant = owner := by
  by_contra hother
  exact h (tenantList_congr (edit.tenants_other fun heq => hother (Slot.tenant.inj heq)))

theorem Served.given_of_rescoped (h : Served world caller call before after scopes scopes')
    (hkey : Rescoped before after key) :
    ∃ k ∈ after.security.keys, Resolves world.env scopes' k key ∧ Given call before after k := by
  have heffect := h.effect
  obtain ⟨k, hk, hresolves, hmoved⟩ := hkey.moved h.loaded h.reloaded
  refine ⟨k, hk, hresolves, ?_⟩
  -- An entry that was there is bounded by another list only where the list of its tenant changed.
  have hlists (hkept : k ∈ before.security.keys)
      (htenants : ∀ tenant : String, after.security.tenants[tenant]? = before.security.tenants[tenant]?) : False := by
    obtain ⟨-, tenant, -, hne⟩ := reachList_ne (hmoved hkept)
    exact hne (tenantList_congr (htenants tenant))
  generalize hrequest : call.request = request at heffect
  cases heffect with
  | reads _ same =>
    subst same
    exact absurd rfl (hmoved hk)
  | mints role valid edit keys tenants =>
    rename_i slot spec path
    rcases (keys k).mp hk with hkept | rfl
    · exact (hlists hkept tenants).elim
    · exact .minted slot spec hrequest (reachList_minted valid tenants)
  | rescopes edit keys tenants =>
    rcases keys k hk with hkept | ⟨old, rfl⟩
    · exact (hlists hkept tenants).elim
    · exact .rescoped _ _ hrequest rfl
  | revokes edit keys tenants => exact (hlists (keys k hk) tenants).elim
  | puts valid edit keys quota =>
    rename_i tenant spec path
    obtain ⟨hunlisted, owner, howner, hne⟩ := reachList_ne (hmoved (keys k hk))
    obtain rfl := edit.tenantList_ne hne
    rw [put_tenantList quota] at hne
    cases hset : scopeSet before tenant spec with
    | none =>
      rw [hset] at hne
      exact absurd rfl hne
    | some given =>
      refine .inTenant tenant spec hrequest given hset ?_
      rw [reachList, hunlisted, howner, none_or, bind_some, put_tenantList quota, hset, some_or]
  | deletes place edit files gone =>
    rename_i tenant path
    obtain ⟨hunlisted, owner, howner, hne⟩ := reachList_ne (hmoved ((edit.keys_erased files).2 hk))
    obtain rfl := edit.tenantList_ne hne
    refine .released tenant hrequest ?_ howner hunlisted
    rw [tenantList, gone] at hne
    exact hne.symm

/-- What a request of each kind did, if it is known which was made. -/
def Effected (world : KeyWorld) (before after : KeyNode) (body : String) : KeyRequest → Prop
  | .createKey spec => Mints .keys spec
  | .createTenantKey tenant spec => Mints (.tenant tenant) spec
  | .putTenant tenant spec => validTenantName tenant = true ∧
      tenantList after.security tenant = (scopeSet before tenant spec).or (tenantList before.security tenant)
  | .deleteTenant tenant => tenantList after.security tenant = none ∧
      ∃ path, slotPath before.security (.tenant tenant) = .ok path ∧ ∀ key,
        (key ∈ after.security.keys ↔ HoldsKey world (before.files.erase path) key) ∧
          (key ∈ after.security.keys → key ∈ before.security.keys)
  | _ => True
where
  Mints (slot : Slot) (spec : KeySpec) : Prop :=
    (spec.role = .writer ∨ spec.role = .reader) ∧ (∀ tenant, slot = .tenant tenant → validTenantName tenant = true) ∧
      (∀ tenant : String, after.security.tenants[tenant]? = before.security.tenants[tenant]?) ∧
        ∃ path, mintedEntry world slot spec body path ∈ after.security.keys

theorem Effect.effected (heffect : Effect world before after body request) :
    Effected world before after body request := by
  cases heffect with
  | reads => cases request <;> trivial
  | mints role valid edit keys tenants =>
    rename_i slot spec path
    have hmints : Effected.Mints world before after body slot spec :=
      ⟨role, valid, tenants, path, (keys _).mpr (.inr rfl)⟩
    cases slot <;> exact hmints
  | revokes edit keys tenants =>
    rename_i slot _ _
    cases slot <;> trivial
  | rescopes => trivial
  | puts valid edit keys quota => exact ⟨valid, put_tenantList quota⟩
  | deletes place edit files gone =>
    exact ⟨by rw [tenantList, gone, bind_none], _, place, fun key => edit.keys_erased files⟩

theorem mints_of_request (slot : Slot) (heffect : Effect world before after body request)
    (hrequest : request = slot.mintRequest spec) : Effected.Mints world before after body slot spec := by
  subst hrequest
  cases slot <;> exact heffect.effected

theorem Effect.edit (heffect : Effect world before after body request) :
    after = before ∨ ∃ slot path, request.changes = some slot ∧ SlotEdit world slot path before after := by
  cases heffect with
  | reads _ same => exact .inl same
  | mints role valid edit keys tenants =>
    rename_i slot spec path
    exact .inr ⟨slot, path, by cases slot <;> rfl, edit⟩
  | revokes edit keys tenants =>
    rename_i slot keyId path
    exact .inr ⟨slot, path, by cases slot <;> rfl, edit⟩
  | rescopes edit | puts _ edit | deletes _ edit => exact .inr ⟨_, _, rfl, edit⟩

theorem Served.given_of_minted (h : Served world caller call before after scopes scopes')
    (hkey : Minted world call after key) :
    (∃ k ∈ after.security.keys, Resolves world.env scopes' k key ∧ Given call before after k) ∧
      (key.role = .writer ∨ key.role = .reader) := by
  obtain ⟨slot, spec, hrequest⟩ := hkey.2.2
  obtain ⟨hrole, hvalid, htenants, path, hentry⟩ := mints_of_request slot h.effect hrequest
  have hresolves := hkey.entry h.reloaded hentry
  refine ⟨⟨_, hentry, hresolves, .minted slot spec hrequest (reachList_minted hvalid htenants)⟩, ?_⟩
  rw [← some.inj hresolves.role]
  exact hrole

theorem Served.given (h : Served world caller call before after scopes scopes')
    (hkey : Minted world call after key ∨ Rescoped before after key) :
    ∃ k ∈ after.security.keys, Resolves world.env scopes' k key ∧ Given call before after k := by
  rcases hkey with hminted | hrescoped
  · exact (h.given_of_minted hminted).1
  · exact h.given_of_rescoped hrescoped

theorem Served.given_within (h : Served world caller call before after scopes scopes')
    (hcontained : Contained world caller call.request before)
    (hkey : Minted world call after key ∨ Rescoped before after key) :
    ∀ index, key.allowsIndex index = true → caller.allowsIndex index = true ∧
      (caller.isTenantScoped = true → ∀ tenant, call.request.changes = some (.tenant tenant) →
        startsWith index (tenant ++ "-") = true) := by
  intro index hindex
  obtain ⟨k, hk, hresolves, hgiven⟩ := h.given hkey
  have hnames := (h.reloaded.reach hresolves).mp hindex
  have hparses (list : List String) (hlist : reachList after.security k = some list) :
    ∃ scope, parse list = .ok scope := h.reloaded.parses hresolves hlist
  cases hgiven with
  | minted slot spec hrequest hlist =>
    rw [hlist] at hnames hparses
    obtain ⟨-, hvalid, -⟩ := mints_of_request slot h.effect hrequest
    have hgrant := mint_checked h.checked hrequest
    rw [h.authz] at hgrant
    refine ⟨checkGrant_ok hgrant hparses hnames, fun hbounded tenant hchanges => ?_⟩
    rw [hrequest] at hchanges hcontained
    cases slot with
    | keys => cases hchanges
    | tenant name =>
      cases hchanges
      obtain ⟨list, hsome, hnamed⟩ := hcontained hbounded
      obtain ⟨scope, hparse⟩ := hparses list hsome
      exact (namedAfter_iff (hvalid _ rfl) hparse).mpr hnamed index (hnames list hsome)
  | rescoped keyId patch hrequest hlist =>
    rw [hlist] at hnames hparses
    refine ⟨?_, fun hbounded tenant hchanges => ?_⟩
    · have hcheck := h.checked
      rw [checkCall, hrequest, h.authz] at hcheck
      obtain ⟨⟨⟩, -, hgrant⟩ := bind_eq_ok.mp hcheck
      exact checkGrant_ok hgrant hparses hnames
    · rw [hrequest] at hchanges
      cases hchanges
  | inTenant tenant spec hrequest given hset hlist =>
    have hvalid := (show Effected _ _ _ _ (.putTenant tenant spec) from hrequest ▸ h.effect.effected).1
    rw [hlist] at hnames hparses
    obtain ⟨hgrant, hnamed⟩ := put_checked h.checked h.authz hrequest hvalid hset
    refine ⟨checkGrant_ok hgrant hparses hnames, fun hbounded name hchanges => ?_⟩
    rw [hrequest] at hchanges
    cases hchanges
    obtain ⟨scope, hparse⟩ := hparses given rfl
    exact (namedAfter_iff hvalid hparse).mpr (hnamed hbounded) index (hnames given rfl)
  | released tenant hrequest had howner hunlisted =>
    obtain ⟨-, path, hplace, hkeys⟩ := (show Effected _ _ _ _ (.deleteTenant tenant) from hrequest ▸ h.effect.effected)
    rw [hrequest] at hcontained
    have hfree : ¬ (caller.isIndexScoped = true ∨ caller.isTenantScoped = true) := fun hscoped =>
      hcontained hscoped had path hplace k ((hkeys k).1.mp hk) howner hunlisted
    obtain ⟨hunscoped, hunbounded⟩ := not_or.mp hfree
    exact ⟨allowsIndex_of_unscoped (Bool.eq_false_iff.mpr hunscoped), fun hbounded => absurd hbounded hunbounded⟩

/-- A bounded caller leaves the tenants it does not manage, and the keys of none it manages, as they were. -/
theorem Served.bounded_frame (h : Served world caller call before after scopes scopes')
    (hbounded : caller.isTenantScoped = true) :
    (∀ tenant : String, caller.allowsTenant tenant = false → after.security.tenants[tenant]? =
    before.security.tenants[tenant]?) ∧
      ∀ key : ApiKeyConfig, (∀ tenant, key.tenant = some tenant → caller.allowsTenant tenant = false) →
        (key ∈ after.security.keys ↔ key ∈ before.security.keys) := by
  rcases h.effect.edit with rfl | ⟨slot, path, hslot, edit⟩
  · exact ⟨fun _ _ => rfl, fun _ _ => Iff.rfl⟩
  · obtain ⟨managed, rfl, hmanaged⟩ := bounded_changes h.checked h.authz hbounded hslot
    constructor
    · intro tenant hother
      refine edit.tenants_other fun heq => ?_
      rw [Slot.tenant.inj heq, hother] at hmanaged
      cases hmanaged
    · intro key hothers
      refine edit.keys_iff fun howner => ?_
      rw [hothers managed howner] at hmanaged
      cases hmanaged

theorem Served.scope_within {list : List String} (h : Served world caller call before after scopes scopes')
    (hset : SetsScope call.request before tenant) (hlist : TenantLists after.security tenant list) :
    ∀ index, Lists list index → caller.allowsIndex index = true ∧
      (caller.isTenantScoped = true → startsWith index (tenant ++ "-") = true) := by
  obtain ⟨spec, hrequest, hsets⟩ := hset
  obtain ⟨hvalid, hafterList⟩ := (show Effected _ _ _ _ (.putTenant tenant spec) from hrequest ▸ h.effect.effected)
  have hsome : ∃ given, scopeSet before tenant spec = some given := by
    unfold scopeSet
    rcases hsets with hsome | hnew
    · obtain ⟨own, hown⟩ := isSome_iff_exists.mp hsome
      exact ⟨own, by rw [hown, some_or]⟩
    · rw [ExtTreeMap.contains_eq_isSome_getElem?, hnew]
      cases spec.allowedIndexes with
      | none => exact ⟨_, rfl⟩
      | some own => exact ⟨own, rfl⟩
  obtain ⟨given, hgiven⟩ := hsome
  obtain ⟨hgrant, hnamed⟩ := put_checked h.checked h.authz hrequest hvalid hgiven
  rw [hgiven, some_or, tenantLists_iff.mp hlist] at hafterList
  obtain rfl := some.inj hafterList
  obtain ⟨quota, hquota, hlist⟩ := hlist
  obtain ⟨scope, hparse, -⟩ := HasScope.of_tenantScopes h.reloaded.tenants hquota hlist
  intro index hindex
  refine ⟨checkGrant_ok hgrant ?_ ?_, fun hbounded => (namedAfter_iff hvalid hparse).mpr (hnamed hbounded) index hindex⟩
  · rintro _ ⟨⟩
    exact ⟨scope, hparse⟩
  · rintro _ ⟨⟩
    exact hindex

/-- A request that never escalates is contained: a key without a list reaches the index that no list names. -/
theorem Served.contained (h : Served world caller call before after scopes scopes')
    (hmember : caller ∈ before.ring.entries)
    (hnever : NeverEscalates world caller call before after) : Contained world caller call.request before := by
  unfold Contained
  split
  · rename_i tenant hrequest
    intro hscoped hhad path hpath k hholds howner hunlisted
    obtain ⟨hgone, place, hplace, hkeys⟩ :=
      (show Effected _ _ _ _ (.deleteTenant tenant) from hrequest ▸ h.effect.effected)
    obtain rfl := Except.ok.inj (hplace.symm.trans hpath)
    have hk := (hkeys k).1.mpr hholds
    obtain ⟨list, hlist⟩ := ne_none_iff_exists'.mp hhad
    obtain ⟨key, hkey, hresolves⟩ := exists_right h.reloaded.entries hk
    obtain ⟨old, hold, hresolved⟩ := exists_right h.loaded.entries ((hkeys k).2 hk)
    have hreach : reachList before.security k = some list := by
      rw [reachList, hunlisted, howner, none_or, bind_some, hlist]
    have hfree (index : String) : key.allowsIndex index = true := by
      rw [h.reloaded.reach hresolves, reachList, hunlisted, howner, none_or, bind_some, hgone]
      rintro _ ⟨⟩
    have hbound : ¬ old.allowsIndex "" = true := by
      obtain ⟨scope, hparse⟩ := h.loaded.parses hresolved hreach
      intro hindex
      exact not_lists_empty hparse ((h.loaded.reach hresolved).mp hindex list hreach)
    have hrescoped : Rescoped before after key :=
      ⟨hkey, old, hold, (hresolved.congr hresolves).1.symm, "", fun heq => hbound (heq.trans (hfree ""))⟩
    rcases hscoped with hscoped | hbounded
    · exact h.loaded.not_allows_empty hmember hscoped (hnever.granted key (.inr hrescoped) "" (hfree ""))
    · exact not_startsWith_empty (hnever.namedKeys hbounded key tenant (.inr hrescoped)
        (by rw [hrequest]; rfl) "" (hfree ""))
  · rename_i tenant spec hrequest
    intro hbounded
    obtain ⟨-, hvalid, htenants, path, hentry⟩ := mints_of_request (.tenant tenant) h.effect hrequest
    obtain ⟨key, hkey, hresolves⟩ := exists_right h.reloaded.entries hentry
    have hnamed := hnever.namedKeys hbounded key tenant
      (.inl ⟨hkey, mintedEntry_digest hresolves, .tenant tenant, spec, hrequest⟩) (by rw [hrequest]; rfl)
    have hreach : reachList after.security (mintedEntry world (.tenant tenant) spec call.body path) =
        spec.allowedIndexes.or (tenantList before.security tenant) := reachList_minted hvalid htenants
    cases hlist : spec.allowedIndexes.or (tenantList before.security tenant) with
    | none =>
      refine absurd (hnamed "" ((h.reloaded.reach hresolves).mpr ?_)) not_startsWith_empty
      rw [hreach, hlist]
      rintro _ ⟨⟩
    | some list =>
      rw [hlist] at hreach
      obtain ⟨scope, hparse⟩ := h.reloaded.parses hresolves hreach
      refine ⟨list, rfl, (namedAfter_iff (hvalid tenant rfl) hparse).mp fun index hindex => hnamed index ?_⟩
      rw [h.reloaded.reach hresolves, hreach]
      rintro _ ⟨⟩
      exact hindex
  · trivial

theorem Served.neverEscalates (h : Served world caller call before after scopes scopes')
    (hcontained : Contained world caller call.request before) : NeverEscalates world caller call before after where
  minted _ hkey := (h.given_of_minted hkey).2
  granted _ hkey index hindex := (h.given_within hcontained hkey index hindex).1
  scopes _ _ hset hlist index hindex := (h.scope_within hset hlist index hindex).1
  tenants hbounded := (h.bounded_frame hbounded).1
  keys hbounded := (h.bounded_frame hbounded).2
  namedKeys hbounded _ tenant hkey hchanges index hindex :=
    (h.given_within hcontained hkey index hindex).2 hbounded tenant hchanges
  namedScopes hbounded _ _ hset hlist index hindex := (h.scope_within hset hlist index hindex).2 hbounded

/-- Whatever requests came before, one that succeeds never escalates exactly if it is contained. -/
theorem key_management_never_escalates_iff {boot : KeyNode} (calls : List KeyCall) {answer : KeyAnswer}
    (hboot : InForce world boot) (hmember : caller ∈ (serveAll world boot calls).ring.entries)
    (hcaller : call.authz = .key caller) (h : serve world (serveAll world boot calls) call = (.ok answer, after)) :
    NeverEscalates world caller call (serveAll world boot calls) after ↔
      Contained world caller call.request (serveAll world boot calls) := by
  have hinForce := (serveAll_stays calls hboot).1
  obtain ⟨hcheck, hafterInForce, heffect⟩ := serve_ok hinForce h
  obtain ⟨-, scopes, hbefore⟩ := resolveFiles_ok hinForce
  obtain ⟨-, scopes', hafter⟩ := resolveFiles_ok hafterInForce
  have hserved : Served world caller call _ after scopes scopes' := ⟨hcaller, hcheck, heffect, hbefore, hafter⟩
  exact ⟨hserved.contained hmember, hserved.neverEscalates⟩

/-- A key that was minted is taken at once: the token its caller is shown finds it, with the role and the tenant it
    was asked for, and it reaches what its own list names, or without one what its tenant's does. -/
theorem minted_key_works {ifMatch : Option Nat} {minted : MintedKey} (hbefore : InForce world before)
    (hmint : mint world before slot spec ifMatch body = (.ok minted, after))
    (hbody : keyBody (trimChars (keyPrefixText ++ body).toList) = some body) :
    ∃ entry, after.ring.authenticate world.env minted.key = some entry ∧ entry.keyId = minted.keyId ∧
    entry.role = spec.role ∧ entry.tenant = slot.owner ∧ ∀ index, entry.allowsIndex index = true ↔
        ∀ list, spec.allowedIndexes.or (slot.owner.bind (tenantList before.security)) = some list →
        Lists list index := by
  obtain ⟨hafter, heffect⟩ := mint_effect hbefore hmint
  obtain ⟨-, scopes, hloaded⟩ := resolveFiles_ok hafter
  obtain ⟨-, hvalid, htenants, path, hkey⟩ := mints_of_request slot heffect rfl
  obtain ⟨entry, hentry, hresolves⟩ := exists_right hloaded.entries hkey
  have hdigest := mintedEntry_digest hresolves
  obtain ⟨hshown, hid⟩ : minted.key = keyPrefixText ++ body ∧ minted.keyId = (world.env.sha256 body).keyId := by
    rcases committing_cases hbefore with ⟨e, hrefused⟩ | ⟨path, file, revision, found, -, hcommitted, -⟩
    · cases hrefused.symm.trans hmint
    · cases hcommitted.symm.trans hmint
      exact ⟨rfl, rfl⟩
  refine ⟨entry, ?_, (congrArg KeyDigest.keyId hdigest).trans hid.symm,
    (some.inj hresolves.role).symm, ?_, fun index => ?_⟩
  · -- No two entries have one digest, so the first that fits is this one.
    obtain ⟨found, hfound⟩ := isSome_iff_exists.mp
      ((find?_isSome (p := fun e : KeyEntry => e.digest = world.env.sha256 body)).mpr
        ⟨entry, hentry, decide_eq_true hdigest⟩)
    have hsame : found.digest = world.env.sha256 body := by simpa using find?_some hfound
    obtain rfl := hloaded.eq_of_digest (mem_of_find?_eq_some hfound) hentry (hsame.trans hdigest.symm)
    rw [hshown, KeyRing.authenticate, hbody]
    exact hfound
  · rw [hresolves.tenant]
    cases slot with
    | keys => rfl
    | tenant name => exact congrArg some (trim_of_valid (hvalid name rfl))
  · rw [hloaded.reach hresolves, reachList_minted hvalid htenants]

end Escalation

def provisioners : KeyWorld where
  env := { sha256 := fun _ => List.Vector.replicate 32 255, keyHashFile := fun _ => .absent }
  main :=
    { enabled := true
      apiKeys := [
        { keyHash := some ("sha256:" ++ String.ofList (replicate 64 '0')), role := some .admin },
        { keyHash := some ("sha256:" ++ String.ofList (replicate 64 '1')), role := some .provisioner },
        { keyHash := some ("sha256:" ++ String.ofList (replicate 64 '2')), role := some .provisioner,
          allowedTenants := some ["acme"] }]
      tenants := ∅
      tenantSources := ∅
      overrideKey := none
      managedFiles := some ⟨"k", some "keys", some ("t-", "")⟩ }
  configPath := "c"
  folders := WholeFolder.folders
  patterns := WholeFolder.patterns
  validate _ := .ok ()
  nodeId := "n"
  readsBack := by
    rintro _ ⟨⟩ file hfile
    exact WholeFolder.reads hfile

def putAcme (caller : KeyEntry) : KeyCall :=
  { authz := .key caller, request := .putTenant "acme" { allowedIndexes := some ["shared"] } }

def mintAcme (caller : KeyEntry) : KeyCall :=
  { authz := .key caller, request := .createTenantKey "acme" { role := .reader } }

theorem key_management_never_escalates_putAcme :
    ∃ boot caller answer after, InForce provisioners boot ∧ caller ∈ boot.ring.entries ∧
      serve provisioners boot (putAcme caller) = (.ok answer, after) ∧
      NeverEscalates provisioners caller (putAcme caller) boot after := by
  have hrun : ∃ boot, resolveFiles provisioners ∅ = .ok boot ∧ ∃ caller ∈ boot.2.entries[1]?,
      ∃ answer, (serve provisioners ⟨∅, boot.1, boot.2⟩ (putAcme caller)).1 = .ok answer ∧ True := by
    decide +kernel
  obtain ⟨⟨security, ring⟩, hboot, caller, hcaller, answer, hserve, -⟩ := hrun
  have hinForce : InForce provisioners ⟨∅, security, ring⟩ := hboot
  have hmember := mem_of_getElem? hcaller
  exact ⟨_, caller, answer, _, hinForce, hmember, Prod.ext hserve rfl,
    (key_management_never_escalates_iff [] hinForce hmember rfl (Prod.ext hserve rfl)).mpr trivial⟩

/-- One provisioner opens the index `shared` to `acme`. Another that is bounded to `acme` then mints a key without a
    list, and that key reads `shared`. -/
theorem minted_key_outside_tenant_names :
    ∃ boot owner caller answer after, InForce provisioners boot ∧ owner ∈ boot.ring.entries ∧
      caller ∈ (serveAll provisioners boot [putAcme owner]).ring.entries ∧
      serve provisioners (serveAll provisioners boot [putAcme owner]) (mintAcme caller) = (.ok answer, after) ∧
      ¬ NeverEscalates provisioners caller (mintAcme caller) (serveAll provisioners boot [putAcme owner]) after := by
  have hrun : ∃ boot, resolveFiles provisioners ∅ = .ok boot ∧ ∃ owner ∈ boot.2.entries[1]?,
      ∃ caller ∈ (serveAll provisioners ⟨∅, boot.1, boot.2⟩ [putAcme owner]).ring.entries[2]?,
        caller.isTenantScoped = true ∧
        ∃ answer, (serve provisioners (serveAll provisioners ⟨∅, boot.1, boot.2⟩ [putAcme owner])
          (mintAcme caller)).1 = .ok answer ∧
          ∃ key ∈ (serve provisioners (serveAll provisioners ⟨∅, boot.1, boot.2⟩ [putAcme owner])
            (mintAcme caller)).2.ring.entries, key.digest = provisioners.env.sha256 "" ∧
              key.allowsIndex "shared" = true := by
    decide +kernel
  obtain ⟨⟨security, ring⟩, hboot, owner, howner, caller, hcaller, hbounded, answer, hserve, key, hkey,
    hdigest, hreads⟩ := hrun
  refine ⟨⟨∅, security, ring⟩, owner, caller, answer, _, hboot, mem_of_getElem? howner, mem_of_getElem? hcaller,
    Prod.ext hserve rfl, fun hnever => ?_⟩
  have hnamed := hnever.namedKeys hbounded key "acme" (.inl ⟨hkey, hdigest, .tenant "acme", _, rfl⟩) rfl "shared" hreads
  exact absurd hnamed (by decide)

theorem minted_key_works_reader :
    ∃ before minted after entry, mint provisioners before .keys { role := .reader } none
    (String.ofList (replicate 43 'A')) =
        (.ok minted, after) ∧ after.ring.authenticate provisioners.env minted.key = some entry ∧
          entry.role = .reader := by
  have hrun : ∃ boot, resolveFiles provisioners ∅ = .ok boot ∧ ∃ minted, (mint provisioners ⟨∅, boot.1, boot.2⟩ .keys
      { role := .reader } none (String.ofList (replicate 43 'A'))).1 = .ok minted ∧ True := by
    decide +kernel
  obtain ⟨⟨security, ring⟩, hboot, minted, hmint, -⟩ := hrun
  have hinForce : InForce provisioners ⟨∅, security, ring⟩ := hboot
  obtain ⟨entry, hentry, -, hrole, -⟩ := minted_key_works hinForce (Prod.ext hmint rfl) (by decide +kernel)
  exact ⟨_, minted, _, entry, Prod.ext hmint rfl, hentry, hrole⟩

end CameoDb
