import CameoDb.Auth.Gate
import CameoDb.Theorems.Auth.Keyring

/-! # Tenants are isolated

A request on an index gets past the gate only under a key whose role there, own list and tenant allow it. -/

namespace CameoDb
open List KeyEntry Std

/-! ### Routes -/

theorem matchSegments_index {index found : Option String} {pattern path : List String}
    (h : matchSegments index pattern path = some found) : found = index ∨ "{index}" ∈ pattern := by
  induction pattern generalizing index path with
  | nil =>
    cases path with
    | nil =>
      cases h
      exact .inl rfl
    | cons => cases h
  | cons expected pattern ih =>
    cases path with
    | nil => cases h
    | cons actual path =>
      by_cases hexpected : expected = "{index}"
      · exact .inr (hexpected ▸ mem_cons_self)
      · have hrest : matchSegments index pattern path = some found := by
          simp only [matchSegments, hexpected, if_false] at h
          grind
        exact (ih hrest).imp_right fun hmem => mem_cons_of_mem _ hmem

theorem index_routes_need {rule : RouteRule} (hrule : rule ∈ routes) (hindex : "{index}" ∈ splitAt rule.pattern '/') :
    ∃ required, rule.access = .needs required := by
  have hall : ∀ rule ∈ routes, (match rule.access with | .needs _ => true | _ => false) = true ∨
      "{index}" ∉ splitAt rule.pattern '/' := by
    decide +kernel
  rcases hall rule hrule with hneeds | hnone
  · cases haccess : rule.access with
    | needs required => exact ⟨required, rfl⟩
    | isPublic | mcp => simp [haccess] at hneeds
  · exact absurd hindex hnone

theorem classify_index {method path index : String} {access : Access}
    (h : classify method path = some ⟨access, some index⟩) : ∃ required, access = .needs required := by
  obtain ⟨rule, hrule, h⟩ := exists_of_findSome?_eq_some h
  by_cases hmethod : rule.method ≠ if method = "HEAD" then "GET" else method
  · rw [if_pos hmethod] at h
    cases h
  · rw [if_neg hmethod] at h
    obtain ⟨found, hfound, heq⟩ := Option.map_eq_some_iff.mp h
    obtain ⟨rfl, rfl⟩ := Classified.mk.inj heq
    rcases matchSegments_index hfound with hnone | hmem
    · cases hnone
    · exact index_routes_need hrule hmem

/-! ### The decision -/

/-- Some request with this access to `index` passes as `entry`. -/
def AdmittedOn (env : KeyEnv) (ring : KeyRing) (oauth : Option OAuth) (entry : KeyEntry) (access : Access)
    (index : String) : Prop :=
  ∃ method path authorization client, decideWith env ring oauth method path authorization = .ok ⟨.key entry, client⟩ ∧
    classify method path = some ⟨access, some index⟩

section Decision
variable {env : KeyEnv} {ring : KeyRing} {oauth : Option OAuth} {entry : KeyEntry} {access : Access} {index : String}
  {token : String}

theorem mem_of_authenticate (h : ring.authenticate env token = some entry) : entry ∈ ring.entries := by
  obtain ⟨body, -, hfind⟩ := Option.bind_eq_some_iff.mp h
  exact mem_of_find?_eq_some hfind

theorem mem_of_identify {classified : Option Classified} {client : Option String}
    (h : identify env ring oauth classified token = .ok (entry, client))
    (hmcp : classified.map Classified.access ≠ some .mcp) : entry ∈ ring.entries := by
  unfold identify at h
  split at h
  · rw [if_pos hmcp] at h
    cases h
  · split at h
    · rename_i hfound
      cases h
      exact mem_of_authenticate hfound
    · cases h

theorem checkIndex_ok {required : Capability} (h : checkIndex entry required index = .ok ()) :
    entry.allowsIndex index = true ∧ entry.hasOn required index = true := by
  unfold checkIndex at h
  split at h
  · cases h
  · split at h
    · cases h
    · rename_i hallows hon
      exact ⟨by simpa using hallows, by simpa using hon⟩

theorem AdmittedOn.held (h : AdmittedOn env ring oauth entry access index) (henabled : ring.enabled = true) :
    entry ∈ ring.entries ∧ ∃ required, access = .needs required ∧ entry.allowsIndex index = true ∧
      entry.hasOn required index = true := by
  obtain ⟨method, path, authorization, client, hdecide, hclassify⟩ := h
  obtain ⟨required, rfl⟩ := classify_index hclassify
  simp only [decideWith, henabled, Bool.not_true, Bool.false_eq_true, if_false, hclassify] at hdecide
  split at hdecide
  · split at hdecide <;> cases hdecide
  · obtain ⟨⟨found, foundClient⟩, hidentify, hdecide⟩ := Checked.bind_eq_ok.mp hdecide
    obtain ⟨⟨⟩, hcheck, hdecide⟩ := Checked.bind_eq_ok.mp hdecide
    cases hdecide
    refine ⟨mem_of_identify hidentify (by simp), required, rfl, ?_⟩
    simp only [checkAccess, Access.required] at hcheck
    split at hcheck
    · cases hcheck
    · exact checkIndex_ok hcheck

end Decision

/-! ### Keys and their lists -/

variable {entry : KeyEntry} {index : String} {capability : Capability}

theorem KeyEntry.has_roleOn : (entry.roleOn index).has capability = entry.hasOn capability index := by
  unfold roleOn hasOn
  cases entry.indexOverrides.get index <;> rfl

theorem KeyEntry.has_of_roleOn (h : (entry.roleOn index).has capability = true) : entry.role.has capability = true := by
  unfold roleOn at h
  cases hget : entry.indexOverrides.get index with
  | none =>
    rw [hget] at h
    exact h
  | some role =>
    rw [hget] at h
    obtain ⟨before, after, heq, -⟩ := lookup_eq_some_iff.mp hget
    exact entry.indexOverrides.subtract (index, role) (heq ▸ mem_append_right _ mem_cons_self) capability h

theorem KeyEntry.allowsIndex_iff :
    entry.allowsIndex index = true ↔ (∀ scope, entry.allowedIndexes = some scope → scope.allows index = true) ∧
      ∀ scope, entry.tenantScope = some scope → scope.allows index = true := by
  unfold allowsIndex scopes
  cases entry.allowedIndexes <;> cases entry.tenantScope <;> simp

def TenantLists (config : SecurityConfig) (tenant : String) (list : List String) : Prop :=
  ∃ quota, config.tenants[tenant]? = some quota ∧ quota.allowedIndexes = some list

/-- The entry is the one this key of the configuration became, by its hash, and what it does on the index is what
    the key's role and override, its own list and the list of its tenant say. -/
structure KeepsTo (env : KeyEnv) (config : SecurityConfig) (key : ApiKeyConfig) (entry : KeyEntry) (access : Access)
    (index : String) : Prop where
  digest : ∃ origin raw, resolveHash env origin key = .ok raw ∧ KeyDigest.parse raw = .ok entry.digest
  needs : ∃ required, access = .needs required ∧ (entry.roleOn index).has required = true
  role : key.role = some entry.role
  effective : entry.roleOn index = (key.overrideOn index).getD entry.role
  subtract : ∀ capability, (entry.roleOn index).has capability = true → entry.role.has capability = true
  own : ∀ list, key.allowedIndexes = some list → Lists list index
  tenant : entry.tenant = key.tenant.map trim
  inTenant : ∀ tenant list, entry.tenant = some tenant → TenantLists config tenant list → Lists list index

section Isolation
variable {env : KeyEnv} {config : SecurityConfig} {ring : KeyRing}
  {scopes : List (String × IndexScope)} {entry : KeyEntry}
  {tenant : String} {list : List String}

theorem Loaded.tenantScope (hloaded : Loaded env config scopes ring) (hentry : entry ∈ ring.entries)
    (htenant : entry.tenant = some tenant) (hlist : TenantLists config tenant list) :
    ∃ scope, IndexScope.parse list = .ok scope ∧ (tenant, scope) ∈ scopes ∧ entry.tenantScope = some scope := by
  obtain ⟨key, -, hresolves⟩ := Checked.exists_left hloaded.entries hentry
  obtain ⟨quota, hquota, hlist⟩ := hlist
  obtain ⟨scope, hscope, hhas⟩ := HasScope.of_tenantScopes hloaded.tenants hquota hlist
  refine ⟨scope, hscope, (mem_tenantScopes hloaded.tenants).mpr hhas, ?_⟩
  rw [hresolves.scope, htenant, Option.bind_some]
  exact (lookup_tenantScopes hloaded.tenants).mpr hhas

/-- What the gate lets a key do on an index is what its entry and its tenant say; and an index that a key of one
    tenant with a list gets to is out of reach for the keys of every other one. -/
theorem tenants_isolated (oauth : Option OAuth) (hload : loadKeyring env config = .ok ring)
    (henabled : config.enabled = true) : (∀ entry access index, AdmittedOn env ring oauth entry access index →
      ∃ key ∈ config.keys, KeepsTo env config key entry access index) ∧
      ∀ entry entry' access access' index tenant tenant' list list',
        AdmittedOn env ring oauth entry access index → AdmittedOn env ring oauth entry' access' index →
        entry.tenant = some tenant → entry'.tenant = some tenant' →
        TenantLists config tenant list → TenantLists config tenant' list' → tenant = tenant' := by
  obtain ⟨scopes, hloaded⟩ := loadKeyring_ok hload
  have hring : ring.enabled = true := hloaded.enabled.trans henabled
  constructor
  · intro entry access index hadmitted
    obtain ⟨hentry, required, rfl, hallows, hon⟩ := hadmitted.held hring
    obtain ⟨hown, htenant⟩ := allowsIndex_iff.mp hallows
    obtain ⟨key, hkey, hresolves⟩ := Checked.exists_left hloaded.entries hentry
    refine ⟨key, hkey, hresolves.digest, ⟨required, rfl, has_roleOn ▸ hon⟩, hresolves.role, ?_,
      fun capability => has_of_roleOn, fun list hlist => ?_, hresolves.tenant, fun tenant list hname hlist => ?_⟩
    · rw [roleOn, hresolves.overrides]
    · obtain ⟨scope, hscope, hparse⟩ := hresolves.own_some hlist
      exact (IndexScope.allows_iff hparse).mp (hown scope hscope)
    · obtain ⟨scope, hparse, -, hscope⟩ := hloaded.tenantScope hentry hname hlist
      exact (IndexScope.allows_iff hparse).mp (htenant scope hscope)
  · intro entry entry' access access' index tenant tenant' list list' hadmitted hadmitted' hname hname' hlist hlist'
    obtain ⟨hentry, -, -, hallows, -⟩ := hadmitted.held hring
    obtain ⟨hentry', -, -, hallows', -⟩ := hadmitted'.held hring
    obtain ⟨scope, -, hmem, hscope⟩ := hloaded.tenantScope hentry hname hlist
    obtain ⟨scope', -, hmem', hscope'⟩ := hloaded.tenantScope hentry' hname' hlist'
    by_contra hne
    -- The two scopes are different members of the list, and such have no index in common.
    have hdisjoint := (disjoint_tenantScopes hloaded.tenants).forall hmem hmem'
      fun heq => hne (Prod.mk.inj heq).1
    exact hdisjoint index ((allowsIndex_iff.mp hallows).2 scope hscope)
      ((allowsIndex_iff.mp hallows').2 scope' hscope')

end Isolation

def twoTenants : SecurityConfig where
  enabled := true
  apiKeys := [
    { keyHash := some ("sha256:" ++ String.ofList (replicate 64 '0')), role := some .reader, tenant := some "acme" },
    { keyHash := some ("sha256:" ++ String.ofList (replicate 64 '1')), role := some .writer, tenant := some "globex",
      indexOverrides := some [("globex-audit", .reader)] }]
  tenants := .ofList [("acme", (⟨0, 0, some ["acme-*"]⟩ : TenantQuota)), ("globex", ⟨0, 0, some ["globex-*"]⟩)]
  tenantSources := ∅
  overrideKey := none
  managedFiles := none

def zeroDigests : KeyEnv where
  sha256 _ := List.Vector.replicate 32 0
  keyHashFile _ := .absent

theorem tenants_isolated_twoTenants :
    ∃ ring entry, loadKeyring zeroDigests twoTenants = .ok ring ∧
      AdmittedOn zeroDigests ring none entry (.needs .read) "acme-books" ∧
      ∃ key ∈ twoTenants.keys, KeepsTo zeroDigests twoTenants key entry (.needs .read) "acme-books" := by
  -- The caller is the third kind, a key.
  have hrun : ∃ ring, loadKeyring zeroDigests twoTenants = .ok ring ∧
      ∃ who, decideWith zeroDigests ring none "POST" "/api/acme-books/search"
        (some ("Bearer cameo_v1_" ++ String.ofList (replicate 43 'A'))) = .ok who ∧ who.authz.ctorIdx = 2 := by
    decide +kernel
  obtain ⟨ring, hload, ⟨authz, client⟩, hdecide, hkey⟩ := hrun
  cases authz with
  | disabled => cases hkey
  | anonymous => cases hkey
  | key entry =>
    have hadmitted : AdmittedOn zeroDigests ring none entry (.needs .read) "acme-books" :=
      ⟨_, _, _, _, hdecide, by decide +kernel⟩
    exact ⟨ring, entry, hload, hadmitted, (tenants_isolated none hload rfl).1 entry _ _ hadmitted⟩

end CameoDb
