import CameoDb.Auth.Keys
import Mathlib.Data.List.Pairwise

/-! # What a loaded key ring says

A configuration that the loader accepts, and the ring it became: each key is resolved from its own entry and the
scope of its tenant, and two tenants' scopes share no index. -/

namespace CameoDb
open List Checked IndexScope Std

/-! ### Digests -/

theorem hexChar_spec : ∀ n : Fin 16, hexDigit (hexChar n) = some n.val ∧ isWhiteSpace (hexChar n) = false ∧
    (hexChar n).utf8Size = 1 := by
  decide

theorem hexByte (b : UInt8) : UInt8.ofNat (16 * (b.toNat / 16) + b.toNat % 16) = b := by
  rw [Nat.div_add_mod, UInt8.ofNat_toNat]

section Hex
variable (bytes : List UInt8)

def hexDigits : List Char := bytes.flatMap fun b => [hexChar (b.toNat / 16), hexChar (b.toNat % 16)]

theorem hexDigits_spec : ∀ c ∈ hexDigits bytes, isWhiteSpace c = false ∧ c.utf8Size = 1 := by
  intro c hc
  obtain ⟨b, -, hb⟩ := mem_flatMap.mp hc
  have hhigh := (hexChar_spec ⟨b.toNat / 16, by have := b.toNat_lt; omega⟩).2
  have hlow := (hexChar_spec ⟨b.toNat % 16, Nat.mod_lt _ (by decide)⟩).2
  simp only [mem_cons, not_mem_nil, or_false] at hb
  rcases hb with rfl | rfl
  · exact hhigh
  · exact hlow

theorem byteLength_hexDigits : byteLength (hexDigits bytes) = 2 * bytes.length := by
  have hones : (hexDigits bytes).map Char.utf8Size = replicate (hexDigits bytes).length 1 :=
    eq_replicate_iff.mpr ⟨length_map _, fun n hn => by
      obtain ⟨c, hc, rfl⟩ := mem_map.mp hn
      exact (hexDigits_spec bytes c hc).2⟩
  have hlength : (hexDigits bytes).length = 2 * bytes.length := by
    simp [hexDigits, length_flatMap, Nat.mul_comm]
  rw [byteLength, hones, hlength]
  simp

end Hex

theorem hexDecode_hexDigits {n : Nat} (v : List.Vector UInt8 n) : hexDecode n (hexDigits v.toList) = some v := by
  induction v using List.Vector.inductionOn with
  | nil => rfl
  | @cons n b v ih =>
    have hhigh := (hexChar_spec ⟨b.toNat / 16, by have := b.toNat_lt; omega⟩).1
    have hlow := (hexChar_spec ⟨b.toNat % 16, Nat.mod_lt _ (by decide)⟩).1
    have hdigits : hexDigits (b ::ᵥ v).toList = hexChar (b.toNat / 16) :: hexChar (b.toNat % 16) ::
        hexDigits v.toList := by
      rw [List.Vector.toList_cons]
      rfl
    simp only at hhigh hlow
    rw [hdigits, hexDecode, hhigh, hlow, ih]
    simp only [Option.bind_eq_bind, Option.bind_some, hexByte]
    rfl

theorem KeyDigest.parse_toConfigValue (digest : KeyDigest) : KeyDigest.parse digest.toConfigValue = .ok digest := by
  have hchars : digest.toConfigValue.toList = digestPrefixText.toList ++ hexDigits digest.toList := by
    rw [KeyDigest.toConfigValue, String.toList_append, hexEncode, String.toList_ofList]
    rfl
  have htrim : trimChars digest.toConfigValue.toList = digest.toConfigValue.toList := by
    apply trimChars_eq
    rw [hchars]
    intro c hc
    rcases mem_append.mp hc with hc | hc
    · have hall : (digestPrefixText.toList.all fun c => !isWhiteSpace c) = true := by decide
      simpa using all_eq_true.mp hall c hc
    · exact (hexDigits_spec _ c hc).1
  have hlength : byteLength (hexDigits digest.toList) = 64 := by
    rw [byteLength_hexDigits, List.Vector.toList_length]
  unfold KeyDigest.parse
  rw [htrim, isPrefixOf?_eq_some_iff_append_eq.mpr hchars.symm]
  simp only [hlength, ne_eq, not_true_eq_false, if_false, hexDecode_hexDigits]

/-! ### Scopes -/

/-- A list of the configuration names an index: outright, or by a beginning written with a star after it. -/
def Lists (list : List String) (index : String) : Prop :=
  ∃ entry ∈ list, trim entry ≠ "" ∧
    (trim entry = index ∨ ∃ stem, (trim entry).toList = stem ++ ['*'] ∧ stem <+: index.toList)

namespace IndexPattern
variable {raw field : String} {p : IndexPattern}

theorem parse_cases (h : parse raw field = .ok p) :
    (∃ stem, raw.toList = stem ++ ['*'] ∧ stem ≠ [] ∧ p = .starting stem) ∨ '*' ∉ raw.toList ∧
    p = .exact raw.toList := by
  unfold parse at h
  by_cases hstar : raw.toList.getLast? = some '*'
  · simp only [hstar, if_true] at h
    split at h
    · cases h
    · split at h
      · cases h
      · cases h
        exact .inl ⟨_, (dropLast_append_getLast? '*' hstar).symm, ‹_›, rfl⟩
  · simp only [hstar, if_false] at h
    split at h
    · cases h
    · cases h
      exact .inr ⟨‹_›, rfl⟩

theorem parse_matches {name : List Char} (h : parse raw field = .ok p) :
    p.matchesName name = true ↔ raw.toList = name ∨ ∃ stem, raw.toList = stem ++ ['*'] ∧ stem <+: name := by
  rcases parse_cases h with ⟨stem, hraw, -, rfl⟩ | ⟨hstar, rfl⟩
  · rw [NamePattern.matches_starting]
    constructor
    · intro hstem
      exact .inr ⟨stem, hraw, hstem⟩
    · rintro (rfl | ⟨other, hother, hname⟩)
      · rw [hraw]
        exact prefix_append _ _
      · rw [append_cancel_right (hraw.symm.trans hother)]
        exact hname
  · rw [NamePattern.matches_exact]
    constructor
    · intro hname
      exact .inl hname
    · rintro (hname | ⟨stem, hstem, -⟩)
      · exact hname
      · rw [hstem] at hstar
        exact absurd (mem_append_right _ (mem_singleton.mpr rfl)) hstar

theorem parse_text (h : parse raw field = .ok p) (hraw : raw ≠ "") : p.text ≠ [] := by
  rcases parse_cases h with ⟨stem, -, hstem, rfl⟩ | ⟨-, rfl⟩
  · exact hstem
  · intro hnil
    exact hraw (String.toList_eq_nil_iff.mp hnil)

theorem parse_startsWith {start : List Char} (h : parse raw field = .ok p) (hstar : '*' ∉ start) :
    start <+: p.text ↔ start <+: raw.toList := by
  rcases parse_cases h with ⟨stem, hraw, -, rfl⟩ | ⟨-, rfl⟩
  · rw [hraw]
    constructor
    · intro hstart
      exact hstart.trans (prefix_append _ _)
    · intro hstart
      rcases prefix_concat_iff.mp hstart with heq | hstart
      · rw [heq] at hstar
        exact absurd (mem_append_right _ (mem_singleton.mpr rfl)) hstar
      · exact hstart
  · rfl

end IndexPattern

namespace IndexScope
variable {list : List String} {field index : String} {scope other : IndexScope}

theorem parseField_patterns (h : parseField list field = .ok scope) :
    List.Forall₂ (fun entry p => IndexPattern.parse entry field = .ok p)
    ((list.map trim).filter fun entry => entry ≠ "") scope.patterns := by
  unfold parseField at h
  obtain ⟨patterns, hpatterns, h⟩ := bind_eq_ok.mp h
  split at h
  · cases h
  · cases h
    exact mapM_eq_ok hpatterns

theorem mem_patterns (h : parseField list field = .ok scope) :
    (∀ p ∈ scope.patterns, ∃ entry ∈ list, trim entry ≠ "" ∧ IndexPattern.parse (trim entry) field = .ok p) ∧
      ∀ entry ∈ list, trim entry ≠ "" → ∃ p ∈ scope.patterns, IndexPattern.parse (trim entry) field = .ok p := by
  have hall := parseField_patterns h
  constructor
  · intro p hp
    obtain ⟨raw, hraw, hparse⟩ := exists_left hall hp
    obtain ⟨hraw, hne⟩ := mem_filter.mp hraw
    obtain ⟨entry, hentry, rfl⟩ := mem_map.mp hraw
    exact ⟨entry, hentry, of_decide_eq_true hne, hparse⟩
  · intro entry hentry hne
    have hmem : trim entry ∈ (list.map trim).filter fun entry => entry ≠ "" :=
      mem_filter.mpr ⟨mem_map_of_mem hentry, decide_eq_true hne⟩
    exact exists_right hall hmem

theorem allows_iff (h : parseField list field = .ok scope) : scope.allows index = true ↔ Lists list index := by
  obtain ⟨hleft, hright⟩ := mem_patterns h
  unfold allows
  rw [NamePattern.anyMatches_iff]
  constructor
  · rintro ⟨p, hp, hmatch⟩
    obtain ⟨entry, hentry, hne, hparse⟩ := hleft p hp
    refine ⟨entry, hentry, hne, ?_⟩
    rw [← String.toList_inj]
    exact (IndexPattern.parse_matches hparse).mp hmatch
  · rintro ⟨entry, hentry, hne, hnames⟩
    obtain ⟨p, hp, hparse⟩ := hright entry hentry hne
    rw [← String.toList_inj] at hnames
    exact ⟨p, hp, (IndexPattern.parse_matches hparse).mpr hnames⟩

theorem allows_of_firstOutside (h : scope.firstOutside other = none) (hindex : other.allows index = true) :
    scope.allows index = true :=
  NamePattern.anyMatches_of_firstOutside (Option.map_eq_none_iff.mp h) hindex

theorem not_allows_of_overlapWith (h : scope.overlapWith other = none) (hindex : scope.allows index = true) :
    ¬ other.allows index = true :=
  NamePattern.not_anyMatches_of_overlapWith (Option.map_eq_none_iff.mp h) hindex

end IndexScope

/-! ### The scopes of the tenants -/

section TenantScopes
variable {config : SecurityConfig} {scopes : List (String × IndexScope)} {tenant : String} {scope : IndexScope}

/-- The scope of the list configured for the tenant. -/
def HasScope (config : SecurityConfig) (tenant : String) (scope : IndexScope) : Prop :=
  ∃ quota list, config.tenants[tenant]? = some quota ∧ quota.allowedIndexes = some list ∧ parse list = .ok scope

/-- No index is in both scopes. -/
def ShareNoIndex (a b : String × IndexScope) : Prop := ∀ index, a.2.allows index = true → ¬ b.2.allows index = true

instance : Std.Symm ShareNoIndex := ⟨fun _ _ h index hb ha => h index ha hb⟩

variable {quota : TenantQuota} {result : List (String × IndexScope)}

theorem addTenantScope_ok (h : addTenantScope config scopes (tenant, quota) = .ok result) :
    quota.allowedIndexes = none ∧ result = scopes ∨
      ∃ list scope, quota.allowedIndexes = some list ∧ parse list = .ok scope ∧
        (∀ other ∈ scopes, ShareNoIndex (tenant, scope) other) ∧ result = scopes ++ [(tenant, scope)] := by
  unfold addTenantScope at h
  split at h
  · cases h
    exact .inl ⟨‹_›, rfl⟩
  · rename_i list hlist
    obtain ⟨scope, hscope, h⟩ := bind_eq_ok.mp h
    split at h
    · cases h
    · rename_i hnone
      cases h
      refine .inr ⟨list, scope, hlist, mapError_eq_ok.mp hscope, fun other hother index hindex => ?_, rfl⟩
      have hpair := Option.map_eq_none_iff.mp (findSome?_eq_none_iff.mp hnone other hother)
      exact not_allows_of_overlapWith hpair hindex

theorem foldlM_addTenantScope {tenants : List (String × TenantQuota)}
    (h : tenants.foldlM (addTenantScope config) scopes = .ok result) :
    ∀ tenant scope, (tenant, scope) ∈ result ↔ (tenant, scope) ∈ scopes ∨
      ∃ quota list, (tenant, quota) ∈ tenants ∧ quota.allowedIndexes = some list ∧ parse list = .ok scope := by
  induction tenants generalizing scopes with
  | nil =>
    cases h
    simp
  | cons first rest ih =>
    obtain ⟨name, quota⟩ := first
    rw [foldlM_cons] at h
    obtain ⟨next, hnext, h⟩ := bind_eq_ok.mp h
    intro tenant scope
    rw [ih h tenant scope]
    rcases addTenantScope_ok hnext with ⟨hnone, rfl⟩ | ⟨list, own, hlist, hown, -, rfl⟩
    · simp only [mem_cons, Prod.mk.injEq]
      grind
    · simp only [mem_append, mem_cons, Prod.mk.injEq, not_mem_nil, or_false]
      grind

theorem mem_tenantScopes (h : tenantScopes config = .ok scopes) :
    (tenant, scope) ∈ scopes ↔ HasScope config tenant scope := by
  rw [foldlM_addTenantScope h]
  simp only [not_mem_nil, false_or, HasScope, ExtTreeMap.mem_toList_iff_getElem?_eq_some]

theorem HasScope.of_tenantScopes {list : List String} (h : tenantScopes config = .ok scopes)
    (hquota : config.tenants[tenant]? = some quota) (hlist : quota.allowedIndexes = some list) :
    ∃ scope, parse list = .ok scope ∧ HasScope config tenant scope := by
  have hmem : (tenant, quota) ∈ config.tenants.toList := ExtTreeMap.mem_toList_iff_getElem?_eq_some.mpr hquota
  obtain ⟨before, after, hstep⟩ := foldlM_step h hmem
  rcases addTenantScope_ok hstep with ⟨hnone, -⟩ | ⟨list', scope, hlist', hscope, -, -⟩
  · rw [hnone] at hlist
    cases hlist
  · obtain rfl : list = list' := Option.some.inj (hlist.symm.trans hlist')
    exact ⟨scope, hscope, quota, list, hquota, hlist, hscope⟩

theorem HasScope.unique {other : IndexScope} (h : HasScope config tenant scope)
    (hother : HasScope config tenant other) : scope = other := by
  obtain ⟨quota, list, hquota, hlist, hparse⟩ := h
  obtain ⟨quota', list', hquota', hlist', hparse'⟩ := hother
  obtain rfl : quota = quota' := Option.some.inj (hquota.symm.trans hquota')
  obtain rfl : list = list' := Option.some.inj (hlist.symm.trans hlist')
  exact Except.ok.inj (hparse.symm.trans hparse')

theorem lookup_tenantScopes (h : tenantScopes config = .ok scopes) :
    scopes.lookup tenant = some scope ↔ HasScope config tenant scope := by
  have hmem {found : IndexScope} (hlookup : scopes.lookup tenant = some found) : HasScope config tenant found := by
    obtain ⟨before, after, heq, -⟩ := lookup_eq_some_iff.mp hlookup
    exact (mem_tenantScopes h).mp (heq ▸ mem_append_right _ mem_cons_self)
  constructor
  · exact hmem
  · intro hscope
    cases hlookup : scopes.lookup tenant with
    | none =>
      have hnone := lookup_eq_none_iff.mp hlookup _ ((mem_tenantScopes h).mpr hscope)
      exact absurd hnone (by simp)
    | some found => rw [(hmem hlookup).unique hscope]

theorem disjoint_tenantScopes (h : tenantScopes config = .ok scopes) : scopes.Pairwise ShareNoIndex := by
  refine foldlM_invariant (P := fun acc => acc.Pairwise ShareNoIndex) ?_ List.Pairwise.nil h
  rintro acc ⟨tenant, quota⟩ next hacc hnext
  rcases addTenantScope_ok hnext with ⟨-, rfl⟩ | ⟨list, scope, -, -, hdisjoint, rfl⟩
  · exact hacc
  · refine pairwise_append.mpr ⟨hacc, pairwise_singleton _ _, fun other hother new hnew index hindex hnewIndex => ?_⟩
    obtain rfl := mem_singleton.mp hnew
    exact hdisjoint other hother index hnewIndex hindex

end TenantScopes

/-! ### The keys -/

def ApiKeyConfig.overrideOn (entry : ApiKeyConfig) (index : String) : Option Role :=
  (entry.indexOverrides.getD []).findSome? fun o => if trim o.1 = index then some o.2 else none

/-- The key that an entry of the configuration becomes. -/
structure Resolves (env : KeyEnv) (scopes : List (String × IndexScope)) (entry : ApiKeyConfig) (key : KeyEntry) :
    Prop where
  digest : ∃ origin raw, resolveHash env origin entry = .ok raw ∧ KeyDigest.parse raw = .ok key.digest
  role : entry.role = some key.role
  own : Option.Rel (fun list scope => parseField list "allowed_indexes" = .ok scope) entry.allowedIndexes
    key.allowedIndexes
  managed : Option.Rel (fun list scope => parseField list "allowed_tenants" = .ok scope) entry.allowedTenants
    key.allowedTenants
  overrides : ∀ index, key.indexOverrides.get index = entry.overrideOn index
  tenant : key.tenant = entry.tenant.map trim
  scope : key.tenantScope = key.tenant.bind fun tenant => scopes.lookup tenant
  inTenant : ∀ scope own, key.tenantScope = some scope → key.allowedIndexes = some own → scope.firstOutside own = none

section Resolve
variable {env : KeyEnv} {scopes : List (String × IndexScope)} {origin : String} {entry : ApiKeyConfig} {key : KeyEntry}
  {field : String} {list : Option (List String)} {resolved : List (String × KeyEntry)}

theorem resolveScope_ok {scope : Option IndexScope} (h : resolveScope origin list field = .ok scope) :
    Option.Rel (fun list scope => parseField list field = .ok scope) list scope := by
  cases list with
  | none =>
    cases h
    exact .none
  | some list =>
    simp only [resolveScope, within] at h
    cases hparse : parseField list field with
    | error e =>
      rw [hparse] at h
      cases h
    | ok parsed =>
      rw [hparse] at h
      cases h
      exact .some hparse

theorem Overrides.get_insert {role overrideRole : Role} {overrides : Overrides role} {index name : String}
    (h : widened role overrideRole = []) :
    (overrides.insert name overrideRole h).get index =
      (overrides.get index).or (if name = index then some overrideRole else none) := by
  simp only [Overrides.insert, Overrides.get, lookup_append, lookup_cons, lookup_nil]
  grind

theorem resolveOverrides_get {role : Role} {allowed : Option IndexScope} {list : List (String × Role)}
    {overrides result : Overrides role} (h : resolveOverrides origin role allowed overrides list = .ok result)
    (index : String) :
    result.get index = (overrides.get index).or
    (list.findSome? fun o => if trim o.1 = index then some o.2 else none) := by
  induction list generalizing overrides with
  | nil =>
    cases h
    simp
  | cons first rest ih =>
    obtain ⟨name, overrideRole⟩ := first
    simp only [resolveOverrides] at h
    split at h
    · cases h
    · split at h
      · split at h
        · cases h
        · split at h
          · cases h
          · rw [ih h, Overrides.get_insert, Option.or_assoc, findSome?_cons]
            split <;> rfl
      · cases h

theorem resolveTenant_ok {tenant : Option String} (h : resolveTenant origin entry = .ok tenant) :
    tenant = entry.tenant.map trim := by
  unfold resolveTenant at h
  split at h
  · rename_i hnone
    cases h
    exact hnone.symm
  · rename_i hsome
    split at h
    · cases h
    · cases h
      exact hsome.symm

theorem resolveRole_ok {role : Role} (h : resolveRole origin entry = .ok role) : entry.role = some role := by
  unfold resolveRole at h
  split at h
  · cases h
    assumption
  · cases h

theorem checkTwice_ok {digest : KeyDigest} (h : checkTwice origin resolved digest = .ok ()) :
    ∀ other ∈ resolved, other.2.digest ≠ digest := by
  unfold checkTwice at h
  split at h
  · cases h
  · rename_i hnone
    intro other hother heq
    exact find?_eq_none.mp hnone other hother (decide_eq_true heq)

theorem checkWithinTenant_ok {tenant : String} {scope own : IndexScope} {role : Role} {overrides : Overrides role}
    (h : checkWithinTenant origin (some tenant) (some scope) (some own) overrides = .ok ()) :
    scope.firstOutside own = none := by
  simp only [checkWithinTenant, Option.bind_some] at h
  split at h
  · cases h
  · assumption

theorem resolveEntry_ok (h : resolveEntry env scopes resolved origin entry = .ok key) :
    Resolves env scopes entry key ∧ ∀ other ∈ resolved, other.2.digest ≠ key.digest := by
  unfold resolveEntry at h
  obtain ⟨raw, hraw, h⟩ := bind_eq_ok.mp h
  obtain ⟨digest, hdigest, h⟩ := bind_eq_ok.mp h
  obtain ⟨role, hrole, h⟩ := bind_eq_ok.mp h
  obtain ⟨own, hown, h⟩ := bind_eq_ok.mp h
  obtain ⟨managed, hmanaged, h⟩ := bind_eq_ok.mp h
  obtain ⟨-, -, h⟩ := bind_eq_ok.mp h
  obtain ⟨overrides, hoverrides, h⟩ := bind_eq_ok.mp h
  obtain ⟨⟨⟩, htwice, h⟩ := bind_eq_ok.mp h
  obtain ⟨tenant, htenant, h⟩ := bind_eq_ok.mp h
  obtain ⟨⟨⟩, hwithin, h⟩ := bind_eq_ok.mp h
  cases h
  refine ⟨⟨⟨origin, raw, hraw, mapError_eq_ok.mp hdigest⟩, resolveRole_ok hrole, resolveScope_ok hown,
    resolveScope_ok hmanaged, fun index => ?_, resolveTenant_ok htenant, rfl, fun scope list hscope hlist => ?_⟩,
    checkTwice_ok htwice⟩
  · simpa [ApiKeyConfig.overrideOn, Overrides.empty, Overrides.get] using resolveOverrides_get hoverrides index
  · obtain ⟨name, hname, hlookup⟩ := Option.bind_eq_some_iff.mp hscope
    obtain rfl : own = some list := hlist
    obtain rfl : tenant = some name := hname
    rw [Option.bind_some, hlookup] at hwithin
    exact checkWithinTenant_ok hwithin

theorem Resolves.own_some {list : List String} (h : Resolves env scopes entry key)
    (hlist : entry.allowedIndexes = some list) :
    ∃ scope, key.allowedIndexes = some scope ∧ parseField list "allowed_indexes" = .ok scope := by
  have hown := h.own
  rw [hlist] at hown
  cases hscope : key.allowedIndexes with
  | none =>
    rw [hscope] at hown
    cases hown
  | some scope =>
    rw [hscope] at hown
    cases hown with
    | some hparse => exact ⟨scope, rfl, hparse⟩

theorem resolveHash_unique {origin' raw raw' : String} (h : resolveHash env origin entry = .ok raw)
    (h' : resolveHash env origin' entry = .ok raw') : raw = raw' := by
  unfold resolveHash within at h h'
  cases hhash : entry.keyHash with
  | some hash =>
    simp only [hhash] at h h'
    exact Except.ok.inj (h.symm.trans h')
  | none =>
    cases hfile : entry.keyHashFile with
    | none => simp only [hhash, hfile, reduceCtorEq] at h
    | some path =>
      simp only [hhash, hfile, mapError_eq_ok] at h h'
      exact Except.ok.inj (h.symm.trans h')

theorem parses_unique {scope scope' : Option IndexScope}
    (h : Option.Rel (fun list scope => parseField list field = .ok scope) list scope)
    (h' : Option.Rel (fun list scope => parseField list field = .ok scope) list scope') : scope = scope' := by
  cases h with
  | none =>
    cases h'
    rfl
  | some h =>
    cases h' with
    | some h' => rw [Except.ok.inj (h.symm.trans h')]

theorem Resolves.congr {scopes' : List (String × IndexScope)} {key' : KeyEntry} (h : Resolves env scopes entry key)
    (h' : Resolves env scopes' entry key') :
    key'.digest = key.digest ∧ key'.role = key.role ∧ key'.allowedIndexes = key.allowedIndexes ∧
      key'.allowedTenants = key.allowedTenants ∧
      (∀ index, key'.indexOverrides.get index = key.indexOverrides.get index) ∧ key'.tenant = key.tenant := by
  obtain ⟨origin, raw, hraw, hdigest⟩ := h.digest
  obtain ⟨origin', raw', hraw', hdigest'⟩ := h'.digest
  obtain rfl := resolveHash_unique hraw hraw'
  refine ⟨?_, ?_, ?_, ?_, fun index => ?_, ?_⟩
  · exact Except.ok.inj (hdigest'.symm.trans hdigest)
  · exact Option.some.inj (h'.role.symm.trans h.role)
  · exact parses_unique h'.own h.own
  · exact parses_unique h'.managed h.managed
  · rw [h'.overrides, h.overrides]
  · rw [h'.tenant, h.tenant]

end Resolve

/-! ### The ring -/

/-- The entries of a configuration: those of its files, and that of the command line. -/
def SecurityConfig.keys (config : SecurityConfig) : List ApiKeyConfig := config.apiKeys ++ config.overrideKey.toList

section Load
variable {env : KeyEnv} {config : SecurityConfig} {scopes : List (String × IndexScope)} {ring : KeyRing}

theorem fileEntries_map (seen : List (Option String)) (keys : List ApiKeyConfig) :
    (fileEntries seen keys).map Prod.snd = keys := by
  induction keys generalizing seen with
  | nil => rfl
  | cons key rest ih => simp only [fileEntries, map_cons, ih]

theorem entries_map : (fileEntries [] config.apiKeys ++ overrideEntry config).map Prod.snd = config.keys := by
  simp only [map_append, fileEntries_map, overrideEntry, map_map, SecurityConfig.keys]
  congr 1
  exact map_id _

variable {entries : List (String × ApiKeyConfig)}

theorem foldlM_addEntry {resolved result : List (String × KeyEntry)}
    (h : entries.foldlM (addEntry env scopes) resolved = .ok result) :
    ∃ new, result = resolved ++ new ∧ List.Forall₂
    (fun entry key => Resolves env scopes entry.2 key.2) entries new := by
  induction entries generalizing resolved with
  | nil =>
    cases h
    exact ⟨[], (append_nil _).symm, .nil⟩
  | cons entry rest ih =>
    rw [foldlM_cons] at h
    obtain ⟨next, hnext, h⟩ := bind_eq_ok.mp h
    obtain ⟨key, hkey, hnext⟩ := bind_eq_ok.mp hnext
    cases hnext
    obtain ⟨new, rfl, hnew⟩ := ih h
    exact ⟨_ :: new, append_assoc _ _ _, .cons (resolveEntry_ok hkey).1 hnew⟩

theorem nodup_addEntry {result : List (String × KeyEntry)} (h : entries.foldlM (addEntry env scopes) [] = .ok result) :
    (result.map fun key => key.2.digest).Nodup := by
  refine foldlM_invariant (P := fun acc => (acc.map fun key => key.2.digest).Nodup) ?_ nodup_nil h
  intro resolved entry next hnodup hnext
  obtain ⟨key, hkey, hnext⟩ := bind_eq_ok.mp hnext
  cases hnext
  rw [map_append, map_singleton]
  refine hnodup.append (nodup_singleton _) ?_
  intro digest hdigest hnew
  obtain rfl := mem_singleton.mp hnew
  obtain ⟨other, hother, heq⟩ := mem_map.mp hdigest
  exact (resolveEntry_ok hkey).2 other hother heq

/-- A configuration that the loader accepts, and its ring. -/
structure Loaded (env : KeyEnv) (config : SecurityConfig) (scopes : List (String × IndexScope)) (ring : KeyRing) :
    Prop where
  tenants : tenantScopes config = .ok scopes
  enabled : ring.enabled = config.enabled
  entries : List.Forall₂ (Resolves env scopes) config.keys ring.entries
  nodup : (ring.entries.map KeyEntry.digest).Nodup

theorem loadKeyring_ok (h : loadKeyring env config = .ok ring) : ∃ scopes, Loaded env config scopes ring := by
  unfold loadKeyring at h
  obtain ⟨scopes, hscopes, h⟩ := bind_eq_ok.mp h
  obtain ⟨resolved, hresolved, h⟩ := bind_eq_ok.mp h
  cases h
  refine ⟨scopes, hscopes, rfl, ?_, ?_⟩
  · obtain ⟨new, rfl, hnew⟩ := foldlM_addEntry hresolved
    rw [← entries_map, forall₂_map_left_iff, forall₂_map_right_iff]
    exact hnew
  · rw [map_map]
    exact nodup_addEntry hresolved

end Load

end CameoDb
