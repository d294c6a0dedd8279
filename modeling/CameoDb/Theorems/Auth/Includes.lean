import CameoDb.Auth.Reload
import CameoDb.Theorems.Auth.Isolation

/-! # The files behind the keys

A node whose ring is that of its files stays so, and a change of one managed file leaves everything of the others. -/

namespace CameoDb
open List Checked Std

/-! ### Merging -/

/-- What merging files leaves alone. -/
structure SameRest (config result : SecurityConfig) : Prop where
  enabled : result.enabled = config.enabled
  overrideKey : result.overrideKey = config.overrideKey
  managedFiles : result.managedFiles = config.managedFiles

variable {a b c : SecurityConfig} {tenants tenants' : String → TenantQuota → Prop}

theorem SameRest.trans (hab : SameRest a b) (hbc : SameRest b c) : SameRest a c where
  enabled := hbc.enabled.trans hab.enabled
  overrideKey := hbc.overrideKey.trans hab.overrideKey
  managedFiles := hbc.managedFiles.trans hab.managedFiles

/-- The tenants are those with a source. -/
def Sourced (config : SecurityConfig) : Prop :=
  ∀ tenant : String, config.tenants[tenant]? = none ↔ config.tenantSources[tenant]? = none

/-- `result` is `config` with these keys and tenants added. -/
structure Adds (config result : SecurityConfig) (keys : List ApiKeyConfig) (tenants : String → TenantQuota → Prop) :
    Prop where
  rest : SameRest config result
  sourced : Sourced result
  keys : result.apiKeys = config.apiKeys ++ keys
  tenants : ∀ tenant quota, result.tenants[tenant]? = some quota ↔ config.tenants[tenant]? =
    some quota ∨ tenants tenant quota

theorem Adds.nothing {config : SecurityConfig} (h : Sourced config) : Adds config config [] fun _ _ => False where
  rest := ⟨rfl, rfl, rfl⟩
  sourced := h
  keys := (append_nil _).symm
  tenants _ _ := (iff_of_eq (or_false _)).symm

variable {added added' : List ApiKeyConfig}

theorem Adds.trans (hab : Adds a b added tenants) (hbc : Adds b c added' tenants') :
    Adds a c (added ++ added') fun tenant quota => tenants tenant quota ∨ tenants' tenant quota where
  rest := hab.rest.trans hbc.rest
  sourced := hbc.sourced
  keys := by rw [hbc.keys, hab.keys, append_assoc]
  tenants tenant quota := by rw [hbc.tenants, hab.tenants, or_assoc]

theorem Adds.congr (h : Adds a b added tenants)
    (htenants : ∀ tenant quota, tenants tenant quota ↔ tenants' tenant quota) : Adds a b added tenants' where
  rest := h.rest
  sourced := h.sourced
  keys := h.keys
  tenants tenant quota := by rw [h.tenants, htenants]

theorem Adds.absent {tenant : String} (h : Adds a b added tenants) (hb : b.tenants[tenant]? = none) :
    a.tenants[tenant]? = none := by
  cases ha : a.tenants[tenant]? with
  | none => rfl
  | some quota =>
    rw [(h.tenants tenant quota).mpr (.inl ha)] at hb
    cases hb

section Merge
variable {config result : SecurityConfig} {path : String} {provisioning : Option ProvisioningStamp}

theorem Adds.addTenant {name : String} {quota : TenantQuota} (hs : Sourced config)
    (h : addTenant path provisioning config (name, quota) = .ok result) :
    config.tenants[name]? = none ∧ Adds config result [] fun t q => t = name ∧ q = quota := by
  simp only [CameoDb.addTenant] at h
  split at h
  · cases h
  · rename_i hnone
    cases h
    have hfresh : config.tenants[name]? = none := (hs name).mpr hnone
    refine ⟨hfresh, ⟨rfl, rfl, rfl⟩, fun tenant => ?_, (append_nil _).symm, fun tenant q => ?_⟩
    · simp only [ExtTreeMap.getElem?_insert]
      have := hs tenant
      grind
    · simp only [ExtTreeMap.getElem?_insert]
      grind

theorem Adds.addTenants {tenants : List (String × TenantQuota)} (hs : Sourced config)
    (h : tenants.foldlM (CameoDb.addTenant path provisioning) config = .ok result) :
    (∀ t q, (t, q) ∈ tenants → config.tenants[t]? = none) ∧
      Adds config result [] fun t q => (t, q) ∈ tenants := by
  induction tenants generalizing config with
  | nil =>
    cases h
    exact ⟨nofun, (Adds.nothing hs).congr fun _ _ => by simp⟩
  | cons first rest ih =>
    obtain ⟨name, quota⟩ := first
    rw [foldlM_cons] at h
    obtain ⟨next, hnext, h⟩ := bind_eq_ok.mp h
    obtain ⟨hfresh, hfirst⟩ := Adds.addTenant hs hnext
    obtain ⟨hothers, hrest⟩ := ih hfirst.sourced h
    constructor
    · intro t q hmem
      rcases mem_cons.mp hmem with heq | hmem
      · rw [(Prod.mk.inj heq).1]
        exact hfresh
      · exact hfirst.absent (hothers t q hmem)
    · refine (hfirst.trans hrest).congr fun t q => ?_
      rw [mem_cons, Prod.mk.injEq]

/-- A key of an included file, with the file as its source. -/
def FileKeys (path : String) (included : IncludedFile) (key : ApiKeyConfig) : Prop :=
  ∃ own ∈ included.apiKeys, key = { own with source := some path }

def sourcedKeys (file : String × KeyFile) : List ApiKeyConfig :=
  file.2.keys.map fun key => { key with source := some file.1 }

theorem Adds.mergeIncluded {file : KeyFile} (hs : Sourced config) (h : mergeIncluded config (path, file) = .ok result) :
    ∃ included, file = .parsed included ∧ checkStamped path included = .ok () ∧
      (∀ (t : String) (q : TenantQuota), included.tenants[t]? = some q → config.tenants[t]? = none) ∧
      Adds config result (sourcedKeys (path, file)) fun t q => included.tenants[t]? = some q := by
  unfold CameoDb.mergeIncluded at h
  split at h
  · cases h
  · rename_i included heq
    obtain ⟨⟨⟩, hstamped, h⟩ := bind_eq_ok.mp h
    obtain ⟨next, hnext, h⟩ := bind_eq_ok.mp h
    cases h
    obtain ⟨hfresh, htenants⟩ := Adds.addTenants hs hnext
    simp only [ExtTreeMap.mem_toList_iff_getElem?_eq_some] at hfresh
    refine ⟨included, heq, hstamped, hfresh, ⟨htenants.rest.1, htenants.rest.2, htenants.rest.3⟩,
      htenants.sourced, ?_, fun t q => ?_⟩
    · rw [htenants.keys, append_nil, sourcedKeys, heq]
      rfl
    · rw [htenants.tenants, ExtTreeMap.mem_toList_iff_getElem?_eq_some]

/-- No tenant is defined in both of two files. -/
def Apart (a b : String × KeyFile) : Prop :=
  ∀ (own other : IncludedFile) (tenant : String) (quota : TenantQuota), a.2 = .parsed own → b.2 = .parsed other →
    own.tenants[tenant]? = some quota → other.tenants[tenant]? = none

instance : Std.Symm Apart where
  symm a b h own other tenant quota hown hother hquota := by
    cases habsent : other.tenants[tenant]? with
    | none => rfl
    | some found =>
      rw [h other own tenant found hother hown habsent] at hquota
      cases hquota

theorem Adds.mergeAll {files : List (String × KeyFile)} (hs : Sourced config)
    (h : files.foldlM CameoDb.mergeIncluded config = .ok result) :
    (∀ path file, (path, file) ∈ files → ∃ included, file = .parsed included ∧ checkStamped path included = .ok () ∧
        ∀ (t : String) (q : TenantQuota), included.tenants[t]? = some q → config.tenants[t]? = none) ∧
      files.Pairwise Apart ∧
      Adds config result (files.flatMap sourcedKeys)
        fun t q => ∃ path included, (path, KeyFile.parsed included) ∈ files ∧ included.tenants[t]? = some q := by
  induction files generalizing config with
  | nil =>
    cases h
    exact ⟨nofun, .nil, (Adds.nothing hs).congr fun _ _ => by simp⟩
  | cons first rest ih =>
    obtain ⟨path, file⟩ := first
    rw [foldlM_cons] at h
    obtain ⟨next, hnext, hfold⟩ := bind_eq_ok.mp h
    obtain ⟨included, rfl, hstamped, hfresh, hfirst⟩ := Adds.mergeIncluded hs hnext
    obtain ⟨hrest, hapart, hadds⟩ := ih hfirst.sourced hfold
    refine ⟨fun path' file' hmem => ?_, pairwise_cons.mpr ⟨fun file hfile => ?_, hapart⟩, ?_⟩
    · rcases mem_cons.mp hmem with heq | hmem
      · obtain ⟨rfl, rfl⟩ := Prod.mk.inj heq
        exact ⟨included, rfl, hstamped, hfresh⟩
      · obtain ⟨found, heq, hstamped, habsent⟩ := hrest path' file' hmem
        exact ⟨found, heq, hstamped, fun t q htenant => hfirst.absent (habsent t q htenant)⟩
    · intro own other tenant quota hown hother hquota
      cases hown
      obtain ⟨found, heq, -, habsent⟩ := hrest file.1 file.2 hfile
      cases hother.symm.trans heq
      cases hfound : other.tenants[tenant]? with
      | none => rfl
      | some theirs =>
        have hnext := habsent tenant theirs hfound
        rw [(hfirst.tenants tenant quota).mpr (.inr hquota)] at hnext
        cases hnext
    · refine (hfirst.trans hadds).congr fun t q => ?_
      simp only [mem_cons, Prod.mk.injEq, KeyFile.parsed.injEq]
      grind

end Merge

section Files
variable {world : KeyWorld} {files : KeyFiles} {config : SecurityConfig}

/-- The main file or one of `files` lists the key. -/
def HoldsKey (world : KeyWorld) (files : KeyFiles) (key : ApiKeyConfig) : Prop :=
  key ∈ world.main.keys ∨
    ∃ (path : String) (included : IncludedFile), files[path]? = some (KeyFile.parsed included) ∧
      FileKeys path included key

/-- The main file or one of `files` defines the tenant. -/
def DefinesTenant (world : KeyWorld) (files : KeyFiles) (tenant : String) (quota : TenantQuota) : Prop :=
  world.main.tenants[tenant]? = some quota ∨
    ∃ (path : String) (included : IncludedFile),
      files[path]? = some (KeyFile.parsed included) ∧ included.tenants[tenant]? = some quota

/-- A configuration put together from the main file and these files. -/
structure Assembled (world : KeyWorld) (files : KeyFiles) (config : SecurityConfig) : Prop where
  keys : ∀ key, key ∈ config.keys ↔ HoldsKey world files key
  tenants : ∀ tenant quota, config.tenants[tenant]? = some quota ↔ DefinesTenant world files tenant quota
  stamped : ∀ (path : String) (included : IncludedFile), files[path]? = some (.parsed included) →
    checkStamped path included = .ok ()
  /-- A tenant is defined once. -/
  once : ∀ (path : String) (included : IncludedFile) (tenant : String) (quota : TenantQuota),
    files[path]? = some (.parsed included) → included.tenants[tenant]? = some quota →
      world.main.tenants[tenant]? = none ∧
        ∀ (path' : String) (other : IncludedFile), files[path']? = some (.parsed other) → path' ≠ path →
          other.tenants[tenant]? = none

theorem mem_sourcedKeys {key : ApiKeyConfig} : key ∈ files.toList.flatMap sourcedKeys ↔
    ∃ (path : String) (included : IncludedFile), files[path]? = some (.parsed included) ∧
    FileKeys path included key := by
  simp only [mem_flatMap, ← ExtTreeMap.mem_toList_iff_getElem?_eq_some]
  constructor
  · rintro ⟨⟨path, file⟩, hfile, hkey⟩
    obtain ⟨own, hown, rfl⟩ := mem_map.mp hkey
    cases file with
    | garbled => cases hown
    | parsed included => exact ⟨path, included, hfile, own, hown, rfl⟩
  · rintro ⟨path, included, hfile, own, hown, rfl⟩
    exact ⟨_, hfile, mem_map.mpr ⟨own, hown, rfl⟩⟩

theorem sourced_main : Sourced { world.main with tenantSources := world.main.tenants.map fun _ _ =>
    ⟨world.configPath, none⟩ } := by
  intro tenant
  simp

theorem applyIncludes_keys (h : applyIncludes world files = .ok config) :
    config.keys = world.main.apiKeys ++ files.toList.flatMap sourcedKeys ++ world.main.overrideKey.toList := by
  obtain ⟨-, -, hadds⟩ := Adds.mergeAll sourced_main h
  rw [SecurityConfig.keys, hadds.keys, hadds.rest.overrideKey]

theorem applyIncludes_ok (h : applyIncludes world files = .ok config) : Assembled world files config := by
  obtain ⟨hfiles, hapart, hadds⟩ := Adds.mergeAll sourced_main h
  have hmem {path : String} {file : KeyFile} : (path, file) ∈ files.toList ↔ files[path]? = some file :=
    ExtTreeMap.mem_toList_iff_getElem?_eq_some
  simp only [hmem] at hfiles hadds
  refine ⟨fun key => ?_, hadds.tenants, fun path included hfile => ?_,
    fun path included tenant quota hfile htenant => ⟨?_, ?_⟩⟩
  · rw [applyIncludes_keys h, mem_append, mem_append, mem_sourcedKeys, or_right_comm]
    simp only [HoldsKey, SecurityConfig.keys, mem_append]
  · obtain ⟨found, heq, hstamped, -⟩ := hfiles path _ hfile
    cases heq
    exact hstamped
  · obtain ⟨found, heq, -, habsent⟩ := hfiles path _ hfile
    cases heq
    exact habsent tenant quota htenant
  · intro path' other hother hne
    have hdistinct : (path, KeyFile.parsed included) ≠ (path', KeyFile.parsed other) :=
      fun heq => hne (Prod.mk.inj heq).1.symm
    exact hapart.forall (hmem.mpr hfile) (hmem.mpr hother) hdistinct included other tenant quota rfl rfl htenant

/-! ### A node and its files -/

/-- A node serves what its files resolve to. -/
def InForce (world : KeyWorld) (node : KeyNode) : Prop := resolveFiles world node.files = .ok (node.security, node.ring)

theorem resolveFiles_applied {ring : KeyRing} (h : resolveFiles world files = .ok (config, ring)) :
    applyIncludes world files = .ok config ∧ ∃ scopes, Loaded world.env config scopes ring := by
  unfold resolveFiles at h
  obtain ⟨security, hsecurity, h⟩ := bind_eq_ok.mp h
  obtain ⟨loaded, hloaded, h⟩ := bind_eq_ok.mp h
  obtain ⟨⟨⟩, -, h⟩ := bind_eq_ok.mp h
  cases h
  obtain ⟨assembled, hassembled, hsecurity⟩ := bind_eq_ok.mp (mapError_eq_ok.mp hsecurity)
  obtain ⟨⟨⟩, -, hsecurity⟩ := bind_eq_ok.mp hsecurity
  cases hsecurity
  exact ⟨hassembled, loadKeyring_ok (mapError_eq_ok.mp hloaded)⟩

theorem managedFiles_inForce {node : KeyNode} (h : InForce world node) :
    node.security.managedFiles = world.main.managedFiles := by
  obtain ⟨-, -, hadds⟩ := Adds.mergeAll sourced_main (resolveFiles_applied h).1
  exact hadds.rest.managedFiles

theorem resolveFiles_ok {ring : KeyRing} (h : resolveFiles world files = .ok (config, ring)) :
    Assembled world files config ∧ ∃ scopes, Loaded world.env config scopes ring :=
  (resolveFiles_applied h).imp_left applyIncludes_ok

end Files

section Changes
variable {world : KeyWorld} {node after : KeyNode} {files : KeyFiles} {path : String} {file : ManagedFile}

theorem reloadWith_none (h : node.reloadWith world files = (none, after)) :
    after.files = files ∧ InForce world after := by
  unfold KeyNode.reloadWith at h
  split at h
  · cases h
  · rename_i security ring hresolve
    cases h
    exact ⟨rfl, hresolve⟩

theorem reloadWith_back (hnode : InForce world node) : (after.reloadWith world node.files).2 = node := by
  unfold KeyNode.reloadWith
  rw [show resolveFiles world node.files = .ok (node.security, node.ring) from hnode]

def nextRevision (world : KeyWorld) (file : ManagedFile) : ManagedFile :=
  { file with provisioning := stamp world (file.provisioning.revision + 1) }

theorem commit_cases (hnode : InForce world node) (path : String) (file : ManagedFile) :
    (∃ revision after, commit world node path file = (.ok revision, after) ∧ InForce world after ∧
      after.files = node.files.insert path (.parsed (nextRevision world file).toIncluded)) ∨
      ∃ e, commit world node path file = (.error e, node) := by
  unfold commit
  cases hreload : node.reloadWith world (node.files.insert path (.parsed (nextRevision world file).toIncluded)) with
  | mk refused after =>
    cases refused with
    | none =>
      obtain ⟨hfiles, hforce⟩ := reloadWith_none hreload
      unfold nextRevision at hreload
      exact .inl ⟨_, after, by simp only [hreload]; rfl, hforce, hfiles⟩
    | some e =>
      unfold nextRevision at hreload
      exact .inr ⟨.refused e, by simp only [hreload, reloadWith_back hnode]⟩

theorem committing_cases {α : Type} {prepared : Except TenantError (String × ManagedFile)}
    {answer : Nat → KeyNode → Except TenantError α} (hnode : InForce world node) :
    (∃ e, committing world node prepared answer = (.error e, node)) ∨
      ∃ path file revision after, prepared = .ok (path, file) ∧
        committing world node prepared answer = (answer revision after, after) ∧ InForce world after ∧
        after.files = node.files.insert path (.parsed (nextRevision world file).toIncluded) := by
  unfold committing
  cases prepared with
  | error e => exact .inl ⟨e, rfl⟩
  | ok prepared =>
    obtain ⟨path, file⟩ := prepared
    rcases commit_cases hnode path file with ⟨revision, after, hcommit, hforce, hfiles⟩ | ⟨e, hcommit⟩
    · exact .inr ⟨path, file, revision, after, rfl, by simp only [hcommit], hforce, hfiles⟩
    · exact .inl ⟨e, by simp only [hcommit]⟩

end Changes

/-! ### Slots -/

section Slots
variable {world : KeyWorld} {node : KeyNode} {files files' : KeyFiles} {slot : Slot} {path : String}
  {included : IncludedFile}

theorem openSlot_ok {existing : Option ManagedFile} (h : openSlot node slot = .ok (path, existing)) :
    slotPath node.security slot = .ok path ∧
      (existing = none ∧ node.files[path]? = none ∨
        ∃ included stamp, existing = some ⟨stamp, included.tenants, included.apiKeys⟩ ∧
          node.files[path]? = some (.parsed included) ∧ included.provisioning = some stamp ∧
          ours slot included = true) := by
  unfold openSlot at h
  obtain ⟨found, hpath, h⟩ := bind_eq_ok.mp h
  split at h
  · rename_i hnone
    cases h
    exact ⟨hpath, .inl ⟨rfl, hnone⟩⟩
  · cases h
  · rename_i included hfile
    split at h
    · cases h
    · rename_i stamp hstamp
      split at h
      · rename_i hours
        cases h
        exact ⟨hpath, .inr ⟨included, stamp, rfl, hfile, hstamp, hours⟩⟩
      · cases h

theorem openExisting_ok {ifMatch : Option Nat} {missing : TenantError} {file : ManagedFile}
    (h : openExisting node slot ifMatch missing = .ok (path, file)) :
    slotPath node.security slot = .ok path ∧
      ∃ included stamp, file = ⟨stamp, included.tenants, included.apiKeys⟩ ∧
        node.files[path]? = some (.parsed included) ∧ included.provisioning = some stamp ∧
        ours slot included = true := by
  unfold openExisting at h
  obtain ⟨⟨found, existing⟩, hopen, h⟩ := bind_eq_ok.mp h
  obtain ⟨hpath, hexisting⟩ := openSlot_ok hopen
  rcases hexisting with ⟨rfl, -⟩ | ⟨included, stamp, rfl, hfile⟩
  · cases h
  · obtain ⟨⟨⟩, -, h⟩ := bind_eq_ok.mp h
    cases h
    exact ⟨hpath, included, stamp, rfl, hfile⟩

variable {tenant : String} {quota : TenantQuota} {key : ApiKeyConfig}

theorem slotPath_tenant (h : slotPath node.security (.tenant tenant) = .ok path) :
    (node.security.managedFiles.bind fun files => files.tenantPath tenant) = some path ∧
    validTenantName tenant = true := by
  simp only [slotPath] at h
  split at h
  · cases h
  · rename_i found hfound
    split at h
    · cases h
    · rename_i hinvalid
      split at h
      · cases h
      · split at h
        · cases h
        · cases h
          exact ⟨hfound, by simpa using hinvalid⟩

/-- A file that a pattern of `include` reads. -/
def KeyWorld.Reads (world : KeyWorld) (path : String) : Prop :=
  ∃ dir file : String, path = dir ++ "/" ++ file ∧ readBack world.folders world.patterns dir file.toList = true

/-- The file of a slot is one of those that are read. -/
theorem slotPath_reads (hnode : InForce world node) (h : slotPath node.security slot = .ok path) :
    world.Reads path := by
  cases slot with
  | keys =>
    simp only [slotPath] at h
    split at h
    · cases h
    · rename_i hkeys
      cases h
      obtain ⟨files, hfiles, hkeys⟩ := Option.bind_eq_some_iff.mp hkeys
      obtain ⟨name, hname, rfl⟩ := Option.map_eq_some_iff.mp hkeys
      exact ⟨files.dir, name, rfl, world.readsBack files (managedFiles_inForce hnode ▸ hfiles) name (.keys hname)⟩
  | tenant tenant =>
    obtain ⟨hpath, hvalid⟩ := slotPath_tenant h
    obtain ⟨files, hfiles, htenant⟩ := Option.bind_eq_some_iff.mp hpath
    obtain ⟨⟨before, after⟩, htemplate, rfl⟩ := Option.map_eq_some_iff.mp htenant
    refine ⟨files.dir, before ++ tenant ++ after, by simp [String.append_assoc], ?_⟩
    exact world.readsBack files (managedFiles_inForce hnode ▸ hfiles) _ (.tenant htemplate hvalid)

theorem exists_of_contains {tenants : ExtTreeMap String TenantQuota} (h : tenants.contains tenant = true) :
    ∃ quota, tenants[tenant]? = some quota := by
  rw [ExtTreeMap.contains_eq_isSome_getElem?] at h
  exact Option.isSome_iff_exists.mp h

theorem toList_of_ours (hours : ours (.tenant tenant) included = true) :
    ∃ quota, included.tenants.toList = [(tenant, quota)] := by
  simp only [ours, Bool.and_eq_true, decide_eq_true_eq] at hours
  obtain ⟨own, hown⟩ := exists_of_contains hours.2
  rw [← ExtTreeMap.length_toList, length_eq_one_iff] at hours
  obtain ⟨⟨only, honly⟩, -⟩ := hours
  have hmem := ExtTreeMap.mem_toList_iff_getElem?_eq_some.mpr hown
  rw [honly, mem_singleton] at hmem
  exact ⟨own, by rw [honly, hmem]⟩

theorem tenant_of_ours (hours : ours slot included = true) (h : included.tenants[tenant]? = some quota) :
    slot = .tenant tenant := by
  have hmem := ExtTreeMap.mem_toList_iff_getElem?_eq_some.mpr h
  cases slot with
  | keys =>
    simp only [ours, Bool.and_eq_true, ExtTreeMap.isEmpty_iff] at hours
    rw [hours.1] at h
    simp at h
  | tenant name =>
    obtain ⟨own, hown⟩ := toList_of_ours hours
    rw [hown, mem_singleton] at hmem
    rw [(Prod.mk.inj hmem).1]

theorem owner_of_ours (hours : ours slot included = true) (hstamp : included.provisioning.isSome = true)
    (hstamped : checkStamped path included = .ok ()) (hkey : key ∈ included.apiKeys) : key.tenant = slot.owner := by
  cases slot with
  | keys =>
    simp only [ours, Bool.and_eq_true, all_eq_true, Option.isNone_iff_eq_none] at hours
    exact hours.2 key hkey
  | tenant name =>
    obtain ⟨own, hown⟩ := toList_of_ours hours
    unfold checkStamped at hstamped
    rw [if_neg (by simp [Option.isSome_iff_ne_none.mp hstamp]), hown] at hstamped
    dsimp only at hstamped
    split at hstamped
    · cases hstamped
    · split at hstamped
      · cases hstamped
      · rename_i hnone
        simpa [Slot.owner] using find?_eq_none.mp hnone key hkey

/-- What the main file or a file says is said as before, or by the one file that differs. -/
theorem said_elsewhere {main : Prop} {P : String → IncludedFile → Prop}
    (hagree : ∀ p, p ≠ path → files'[p]? = files[p]?)
    (h : main ∨ ∃ p included, files[p]? = some (.parsed included) ∧ P p included) :
    (main ∨ ∃ p included, files'[p]? = some (.parsed included) ∧ P p included) ∨
      ∃ included, files[path]? = some (.parsed included) ∧ P path included := by
  rcases h with hmain | ⟨p, included, hfile, hsays⟩
  · exact .inl (.inl hmain)
  · by_cases hp : p = path
    · subst hp
      exact .inr ⟨included, hfile, hsays⟩
    · exact .inl (.inr ⟨p, included, (hagree p hp).trans hfile, hsays⟩)

end Slots

/-- A slot's file holds the keys and the tenant of that slot only. -/
structure SlotFile (slot : Slot) (included : IncludedFile) : Prop where
  keys : ∀ key ∈ included.apiKeys, key.tenant = slot.owner
  tenants : ∀ tenant quota, included.tenants[tenant]? = some quota → slot = .tenant tenant

/-- Two nodes that differ in the file of one slot at most. -/
structure SlotEdit (world : KeyWorld) (slot : Slot) (path : String) (before after : KeyNode) : Prop where
  assembled : Assembled world before.files before.security
  reassembled : Assembled world after.files after.security
  elsewhere : ∀ p, p ≠ path → after.files[p]? = before.files[p]?
  old : ∀ included, before.files[path]? = some (.parsed included) → SlotFile slot included
  new : ∀ included, after.files[path]? = some (.parsed included) → SlotFile slot included

namespace SlotEdit
variable {world : KeyWorld} {slot : Slot} {path : String} {before after : KeyNode}
  {key : ApiKeyConfig} {included : IncludedFile} {tenant : String}

theorem keys (e : SlotEdit world slot path before after) (hkey : key ∈ after.security.keys) :
    key ∈ before.security.keys ∨ ∃ included, after.files[path]? = some (.parsed included) ∧
    FileKeys path included key := by
  rw [e.assembled.keys]
  exact said_elsewhere (fun p hp => (e.elsewhere p hp).symm) ((e.reassembled.keys key).mp hkey)

theorem kept (e : SlotEdit world slot path before after) (hkey : key ∈ before.security.keys) :
    key ∈ after.security.keys ∨ ∃ included, before.files[path]? = some (.parsed included) ∧
    FileKeys path included key := by
  rw [e.reassembled.keys]
  exact said_elsewhere e.elsewhere ((e.assembled.keys key).mp hkey)

theorem owner (h : SlotFile slot included) (hkey : FileKeys path included key) : key.tenant = slot.owner := by
  obtain ⟨own, hown, rfl⟩ := hkey
  exact h.keys own hown

theorem keys_iff (e : SlotEdit world slot path before after) (hother : key.tenant ≠ slot.owner) :
    key ∈ after.security.keys ↔ key ∈ before.security.keys := by
  constructor
  · intro hkey
    rcases e.keys hkey with hkey | ⟨included, hfile, hkey⟩
    · exact hkey
    · exact absurd (owner (e.new included hfile) hkey) hother
  · intro hkey
    rcases e.kept hkey with hkey | ⟨included, hfile, hkey⟩
    · exact hkey
    · exact absurd (owner (e.old included hfile) hkey) hother

/-- A tenant is as it was where the slot's file says of it what it said. -/
theorem tenants_eq (e : SlotEdit world slot path before after)
    (h : ∀ quota, (∃ included, after.files[path]? = some (.parsed included) ∧ included.tenants[tenant]? = some quota) ↔
      ∃ included, before.files[path]? = some (.parsed included) ∧ included.tenants[tenant]? = some quota) :
    after.security.tenants[tenant]? = before.security.tenants[tenant]? := by
  apply Option.ext
  intro quota
  rw [e.reassembled.tenants, e.assembled.tenants]
  constructor
  · intro hdefines
    rcases said_elsewhere (fun p hp => (e.elsewhere p hp).symm) hdefines with hdefines | hfile
    · exact hdefines
    · obtain ⟨included, hfile⟩ := (h quota).mp hfile
      exact .inr ⟨path, included, hfile⟩
  · intro hdefines
    rcases said_elsewhere e.elsewhere hdefines with hdefines | hfile
    · exact hdefines
    · obtain ⟨included, hfile⟩ := (h quota).mpr hfile
      exact .inr ⟨path, included, hfile⟩

theorem tenants_other (e : SlotEdit world slot path before after) (hother : slot ≠ .tenant tenant) :
    after.security.tenants[tenant]? = before.security.tenants[tenant]? := by
  refine e.tenants_eq fun quota => ⟨?_, ?_⟩
  · rintro ⟨included, hfile, htenant⟩
    exact absurd ((e.new included hfile).tenants tenant quota htenant) hother
  · rintro ⟨included, hfile, htenant⟩
    exact absurd ((e.old included hfile).tenants tenant quota htenant) hother

theorem slotFile (h : Assembled world before.files before.security)
    (hfile : before.files[path]? = some (.parsed included))
    (hstamp : included.provisioning.isSome = true) (hours : ours slot included = true) : SlotFile slot included where
  keys _ hkey := owner_of_ours hours hstamp (h.stamped path included hfile) hkey
  tenants _ _ htenant := tenant_of_ours hours htenant

theorem of_insert (hbefore : InForce world before) (hafter : InForce world after)
    (hfiles : after.files = before.files.insert path (.parsed included))
    (hold : ∀ old, before.files[path]? = some (.parsed old) → old.provisioning.isSome = true ∧ ours slot old = true)
    (hstamp : included.provisioning.isSome = true) (hours : ours slot included = true) :
    SlotEdit world slot path before after where
  assembled := (resolveFiles_ok hbefore).1
  reassembled := (resolveFiles_ok hafter).1
  elsewhere p hp := by
    rw [hfiles, ExtTreeMap.getElem?_insert]
    simp [Ne.symm hp]
  old old hfile := slotFile (resolveFiles_ok hbefore).1 hfile (hold old hfile).1 (hold old hfile).2
  new new hfile := by
    have hown := hfile
    rw [hfiles, ExtTreeMap.getElem?_insert_self] at hown
    cases hown
    exact slotFile (resolveFiles_ok hafter).1 hfile hstamp hours

theorem of_erase (hbefore : InForce world before) (hafter : InForce world after)
    (hfiles : after.files = before.files.erase path)
    (hold : ∀ old, before.files[path]? = some (.parsed old) → old.provisioning.isSome = true ∧ ours slot old = true) :
    SlotEdit world slot path before after where
  assembled := (resolveFiles_ok hbefore).1
  reassembled := (resolveFiles_ok hafter).1
  elsewhere p hp := by
    rw [hfiles, ExtTreeMap.getElem?_erase]
    simp [Ne.symm hp]
  old old hfile := slotFile (resolveFiles_ok hbefore).1 hfile (hold old hfile).1 (hold old hfile).2
  new new hfile := by
    rw [hfiles, ExtTreeMap.getElem?_erase_self] at hfile
    cases hfile

theorem keys_erased (e : SlotEdit world slot path before after) (hfiles : after.files = before.files.erase path) :
    (key ∈ after.security.keys ↔ HoldsKey world (before.files.erase path) key) ∧
      (key ∈ after.security.keys → key ∈ before.security.keys) := by
  refine ⟨hfiles ▸ e.reassembled.keys key, fun hkey => ?_⟩
  rcases e.keys hkey with hkey | ⟨included, hfile, -⟩
  · exact hkey
  · rw [hfiles, ExtTreeMap.getElem?_erase_self] at hfile
    cases hfile

end SlotEdit

/-! ### What a change starts from -/

/-- The file that a change of a slot starts from: what stands on disk, or nothing. -/
structure OpenedFile (node : KeyNode) (slot : Slot) (path : String) (base : ManagedFile) : Prop where
  keys : ∀ key, FileKeys path base.toIncluded key ↔
    ∃ included, node.files[path]? = some (.parsed included) ∧ FileKeys path included key
  tenants : ∀ (tenant : String) (quota : TenantQuota), base.tenants[tenant]? = some quota ↔
    ∃ included, node.files[path]? = some (.parsed included) ∧ included.tenants[tenant]? = some quota
  owned : ours slot base.toIncluded = true
  owner : ∀ key ∈ base.apiKeys, key.tenant = slot.owner
  old : ∀ old, node.files[path]? = some (.parsed old) → old.provisioning.isSome = true ∧ ours slot old = true

namespace OpenedFile
variable {world : KeyWorld} {node after : KeyNode} {slot : Slot} {path : String} {base : ManagedFile}
  {stamp : ProvisioningStamp}

theorem of_file {included : IncludedFile} (hnode : InForce world node)
    (hfile : node.files[path]? = some (.parsed included))
    (hstamp : included.provisioning = some stamp) (hours : ours slot included = true) :
    OpenedFile node slot path ⟨stamp, included.tenants, included.apiKeys⟩ where
  keys key := by simp [hfile, FileKeys, ManagedFile.toIncluded]
  tenants tenant quota := by simp [hfile]
  owned := hours
  owner := (SlotEdit.slotFile (resolveFiles_ok hnode).1 hfile (by rw [hstamp]; rfl) hours).keys
  old old hold := by
    rw [hfile] at hold
    cases hold
    exact ⟨by rw [hstamp]; rfl, hours⟩

theorem of_nothing (hfile : node.files[path]? = none) : OpenedFile node .keys path ⟨stamp, ∅, []⟩ where
  keys key := by simp [FileKeys, ManagedFile.toIncluded, hfile]
  tenants tenant quota := by simp [hfile]
  owned := by simp [ours, ManagedFile.toIncluded]
  owner _ hkey := absurd hkey not_mem_nil
  old old hold := by
    rw [hfile] at hold
    cases hold

theorem rekey {keys : List ApiKeyConfig} (o : OpenedFile node slot path base) (hnode : InForce world node)
    (hafter : InForce world after) (hkeys : ∀ key ∈ keys, key.tenant = slot.owner)
    (hfiles : after.files = node.files.insert path
    (.parsed (nextRevision world { base with apiKeys := keys }).toIncluded)) :
    SlotEdit world slot path node after ∧
      (∀ key ∈ after.security.keys, key ∈ node.security.keys ∨ ∃ own ∈ keys, key = { own with source := some path }) ∧
      (∀ own ∈ keys, { own with source := some path } ∈ after.security.keys) ∧
      (∀ key ∈ node.security.keys, key ∈ after.security.keys ∨ ∃ own ∈ base.apiKeys, key =
        { own with source := some path }) ∧
      ∀ tenant : String, after.security.tenants[tenant]? = node.security.tenants[tenant]? := by
  have hnew : after.files[path]? = some (.parsed (nextRevision world { base with apiKeys := keys }).toIncluded) := by
    rw [hfiles, ExtTreeMap.getElem?_insert_self]
  have hours : ours slot (nextRevision world { base with apiKeys := keys }).toIncluded = true := by
    have howned := o.owned
    cases slot with
    | keys =>
      simp only [ours, Bool.and_eq_true, all_eq_true, Option.isNone_iff_eq_none] at howned ⊢
      exact ⟨howned.1, hkeys⟩
    | tenant => exact howned
  have edit := SlotEdit.of_insert hnode hafter hfiles o.old rfl hours
  refine ⟨edit, fun key hkey => ?_, fun own hown => ?_, fun key hkey => ?_, fun tenant =>
    edit.tenants_eq fun quota => ?_⟩
  · rcases edit.keys hkey with hkey | ⟨included, hfile, hkey⟩
    · exact .inl hkey
    · cases hnew.symm.trans hfile
      exact .inr hkey
  · exact (edit.reassembled.keys _).mpr (.inr ⟨path, _, hnew, own, hown, rfl⟩)
  · exact (edit.kept hkey).imp_right (o.keys key).mpr
  · rw [← o.tenants tenant quota, hnew]
    simp [nextRevision, ManagedFile.toIncluded]

end OpenedFile

end CameoDb
