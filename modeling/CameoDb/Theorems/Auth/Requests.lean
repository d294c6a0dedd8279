import CameoDb.Theorems.Auth.Includes

/-! # Requests to `/_keys` and `/_tenants`

What a request that succeeded did to the keys and tenants of a node: one file was changed, and of it only what the
request names. -/

namespace CameoDb
open List Checked Std

theorem checkMintable_ok {spec : KeySpec} (h : checkMintable spec = .ok ()) :
    spec.role = .writer ∨ spec.role = .reader := by
  grind [checkMintable]

def mintedEntry (world : KeyWorld) (slot : Slot) (spec : KeySpec) (body path : String) : ApiKeyConfig :=
  { keyHash := some (world.env.sha256 body).toConfigValue, role := some spec.role, label := spec.label,
    allowedIndexes := spec.allowedIndexes, indexOverrides := spec.indexOverrides, tenant := slot.owner,
    source := some path }

def Slot.mintRequest (slot : Slot) (spec : KeySpec) : KeyRequest :=
  match slot with
  | .keys => .createKey spec
  | .tenant name => .createTenantKey name spec

def Slot.revokeRequest (slot : Slot) (keyId : String) : KeyRequest :=
  match slot with
  | .keys => .revokeKey keyId
  | .tenant name => .revokeTenantKey name keyId

/-- What a served request does to the node, one case for each kind. -/
inductive Effect (world : KeyWorld) (before after : KeyNode) (body : String) : KeyRequest → Prop where
  | reads {request : KeyRequest} (unchanging : request.isChange = false) (same : after = before) : Effect world
      before after body request
  | mints {slot : Slot} {spec : KeySpec} {path : String}
      (role : spec.role = .writer ∨ spec.role = .reader)
        (valid : ∀ tenant, slot = .tenant tenant → validTenantName tenant = true)
      (edit : SlotEdit world slot path before after)
      (keys : ∀ key, key ∈ after.security.keys ↔ key ∈ before.security.keys ∨
        key = mintedEntry world slot spec body path)
      (tenants : ∀ tenant : String, after.security.tenants[tenant]? = before.security.tenants[tenant]?) :
      Effect world before after body (slot.mintRequest spec)
  | rescopes {keyId : String} {patch : KeyPatch} {path : String} (edit : SlotEdit world .keys path before after)
      (keys : ∀ key ∈ after.security.keys, key ∈ before.security.keys ∨
        ∃ old : ApiKeyConfig, key = { old with allowedIndexes := some patch.allowedIndexes })
      (tenants : ∀ tenant : String, after.security.tenants[tenant]? = before.security.tenants[tenant]?) :
      Effect world before after body (.updateKey keyId patch)
  | revokes {slot : Slot} {keyId path : String}
      (edit : SlotEdit world slot path before after) (keys : ∀ key ∈ after.security.keys, key ∈ before.security.keys)
      (tenants : ∀ tenant : String, after.security.tenants[tenant]? = before.security.tenants[tenant]?) :
      Effect world before after body (slot.revokeRequest keyId)
  | puts {tenant : String} {spec : TenantSpec} {path : String} (valid : validTenantName tenant = true)
      (edit : SlotEdit world (.tenant tenant) path before after)
      (keys : ∀ key ∈ after.security.keys, key ∈ before.security.keys)
      (quota : after.security.tenants[tenant]? =
        some (spec.applyTo ((before.security.tenants[tenant]?).getD { allowedIndexes := some (ownNames tenant) }))) :
      Effect world before after body (.putTenant tenant spec)
  | deletes {tenant path : String} (place : slotPath before.security (.tenant tenant) = .ok path)
      (edit : SlotEdit world (.tenant tenant) path before after) (files : after.files = before.files.erase path)
      (gone : after.security.tenants[tenant]? = none) :
      Effect world before after body (.deleteTenant tenant)

section Effects
variable {world : KeyWorld} {before after : KeyNode} {slot : Slot} {path body : String} {ifMatch : Option Nat}
  {missing : TenantError} {α : Type} {prepared : Except TenantError (String × ManagedFile)}
  {answer : Nat → KeyNode → Except TenantError α} {a : α} {keyId : String} {tenant : String} {call : KeyCall}

theorem OpenedFile.of_openExisting {file : ManagedFile} (hbefore : InForce world before)
    (h : openExisting before slot ifMatch missing = .ok (path, file)) :
    slotPath before.security slot = .ok path ∧ OpenedFile before slot path file := by
  obtain ⟨hpath, included, stamp, rfl, hfile, hstamp, hours⟩ := openExisting_ok h
  exact ⟨hpath, .of_file hbefore hfile hstamp hours⟩

theorem committed (hbefore : InForce world before) (h : committing world before prepared answer = (.ok a, after)) :
    ∃ path file, prepared = .ok (path, file) ∧ InForce world after ∧
      after.files = before.files.insert path (.parsed (nextRevision world file).toIncluded) := by
  rcases committing_cases hbefore with ⟨e, hrefused⟩ |
    ⟨path, file, revision, found, hprepared, hcommitted, hafter, hfiles⟩
  · rw [hrefused] at h
    cases h
  · rw [hcommitted] at h
    obtain rfl : found = after := (Prod.mk.inj h).2
    exact ⟨path, file, hprepared, hafter, hfiles⟩

theorem mint_effect {spec : KeySpec} {minted : MintedKey} (hbefore : InForce world before)
    (h : mint world before slot spec ifMatch body = (.ok minted, after)) :
    InForce world after ∧ Effect world before after body (slot.mintRequest spec) := by
  obtain ⟨path, file, hprepared, hafter, hfiles⟩ := committed hbefore h
  obtain ⟨⟨⟩, hmintable, hprepared⟩ := bind_eq_ok.mp hprepared
  obtain ⟨⟨⟩, -, hprepared⟩ := bind_eq_ok.mp hprepared
  obtain ⟨⟨opened, existing⟩, hopen, hprepared⟩ := bind_eq_ok.mp hprepared
  obtain ⟨⟨⟩, -, hprepared⟩ := bind_eq_ok.mp hprepared
  obtain ⟨base, hbase, hprepared⟩ := bind_eq_ok.mp hprepared
  cases hprepared
  obtain ⟨hpath, hexisting⟩ := openSlot_ok hopen
  have hopened : OpenedFile before slot path base := by
    rcases hexisting with ⟨rfl, hfile⟩ | ⟨included, stamp, rfl, hfile, hstamp, hours⟩
    · cases slot with
      | keys =>
        cases hbase
        exact .of_nothing hfile
      | tenant => cases hbase
    · cases hbase
      exact .of_file hbefore hfile hstamp hours
  obtain ⟨edit, hkeys, hnew, hkept, htenants⟩ := hopened.rekey hbefore hafter (fun key hkey => by
    rcases mem_append.mp hkey with hkey | hkey
    · exact hopened.owner key hkey
    · rw [mem_singleton.mp hkey]) hfiles
  refine ⟨hafter, .mints (checkMintable_ok hmintable) (fun tenant hslot => (slotPath_tenant (hslot ▸ hpath)).2) edit
    (fun key => ⟨fun hkey => ?_, ?_⟩) htenants⟩
  · rcases hkeys key hkey with hkey | ⟨own, hown, rfl⟩
    · exact .inl hkey
    · rcases mem_append.mp hown with hown | hown
      · exact .inl ((edit.assembled.keys _).mpr (.inr ⟨path, (hopened.keys _).mp ⟨own, hown, rfl⟩⟩))
      · rw [mem_singleton.mp hown]
        exact .inr rfl
  · rintro (hkey | rfl)
    · rcases hkept key hkey with hkey | ⟨own, hown, rfl⟩
      · exact hkey
      · exact hnew own (mem_append_left _ hown)
    · exact hnew _ (mem_append_right _ (mem_singleton.mpr rfl))

theorem rescope_mem {list : List String} {keys rescoped : List ApiKeyConfig}
    (h : rescope keyId list keys = some rescoped) :
    ∀ key ∈ rescoped, key ∈ keys ∨ ∃ old ∈ keys, key = { old with allowedIndexes := some list } := by
  induction keys generalizing rescoped with
  | nil => cases h
  | cons first rest ih =>
    unfold rescope at h
    grind [Option.map_eq_some_iff]

theorem OpenedFile.mem_keys {base : ManagedFile} {own : ApiKeyConfig} (o : OpenedFile before slot path base)
    (h : Assembled world before.files before.security) (hown : own ∈ base.apiKeys) :
    { own with source := some path } ∈ before.security.keys :=
  (h.keys _).mpr (.inr ⟨path, (o.keys _).mp ⟨own, hown, rfl⟩⟩)

theorem updateKey_effect {patch : KeyPatch} {view : KeysView} (hbefore : InForce world before)
    (h : updateKey world before keyId patch ifMatch = (.ok view, after)) :
    InForce world after ∧ Effect world before after body (.updateKey keyId patch) := by
  obtain ⟨path, file, hprepared, hafter, hfiles⟩ := committed hbefore h
  obtain ⟨⟨⟩, -, hprepared⟩ := bind_eq_ok.mp hprepared
  obtain ⟨⟨opened, base⟩, hopen, hprepared⟩ := bind_eq_ok.mp hprepared
  obtain ⟨-, hopened⟩ := OpenedFile.of_openExisting hbefore hopen
  simp only at hprepared
  split at hprepared
  · cases hprepared
  · rename_i keys hrescope
    cases hprepared
    have hmem := rescope_mem hrescope
    obtain ⟨edit, hkeys, -, -, htenants⟩ := hopened.rekey hbefore hafter (fun key hkey => by
      rcases hmem key hkey with hkey | ⟨old, hold, rfl⟩
      · exact hopened.owner key hkey
      · exact hopened.owner old hold) hfiles
    refine ⟨hafter, .rescopes edit (fun key hkey => ?_) htenants⟩
    rcases hkeys key hkey with hkey | ⟨own, hown, rfl⟩
    · exact .inl hkey
    · rcases hmem own hown with hown | ⟨old, hold, rfl⟩
      · exact .inl (hopened.mem_keys edit.assembled hown)
      · exact .inr ⟨{ old with source := some path }, rfl⟩

theorem revoke_effect (slot : Slot) {keyId place : String} (hbefore : InForce world before)
    (h : committing world before (prepareRevoke before slot keyId ifMatch missing place) answer = (.ok a, after)) :
    InForce world after ∧ Effect world before after body (slot.revokeRequest keyId) := by
  obtain ⟨path, file, hok, hafter, hfiles⟩ := committed hbefore h
  obtain ⟨⟨opened, base⟩, hopen, hok⟩ := bind_eq_ok.mp hok
  obtain ⟨removed, hremoved, hok⟩ := bind_eq_ok.mp hok
  cases hok
  obtain ⟨-, hopened⟩ := OpenedFile.of_openExisting hbefore hopen
  simp only [removeKey] at hremoved
  split at hremoved
  · cases hremoved
  · cases hremoved
    obtain ⟨edit, hkeys, -, -, htenants⟩ := hopened.rekey hbefore hafter
      (fun key hkey => hopened.owner key (mem_filter.mp hkey).1) hfiles
    refine ⟨hafter, .revokes edit (fun key hkey => ?_) htenants⟩
    rcases hkeys key hkey with hkey | ⟨own, hown, rfl⟩
    · exact hkey
    · exact hopened.mem_keys edit.assembled (mem_filter.mp hown).1

/-- A tenant is defined once, so it is gone, or not there yet, where the one file that defines it is not. -/
theorem Assembled.tenant_absent {files files' : KeyFiles} {config config' : SecurityConfig} {included : IncludedFile}
    {quota : TenantQuota} (h : Assembled world files config) (h' : Assembled world files' config')
    (helsewhere : ∀ p, p ≠ path → files'[p]? = files[p]?) (hfile : files'[path]? = some (.parsed included))
    (htenant : included.tenants[tenant]? = some quota) (hnone : ∀ other, files[path]? ≠ some (.parsed other)) :
    config.tenants[tenant]? = none := by
  obtain ⟨hmain, hothers⟩ := h'.once path included tenant quota hfile htenant
  rw [Option.eq_none_iff_forall_not_mem]
  intro found hfound
  rcases (h.tenants tenant found).mp hfound with hdefines | ⟨p, other, hother, hdefines⟩
  · cases hmain.symm.trans hdefines
  · by_cases hp : p = path
    · exact hnone other (hp ▸ hother)
    · cases (hothers p other ((helsewhere p hp).trans hother) hp).symm.trans hdefines

theorem ours_modify {tenants : ExtTreeMap String TenantQuota} {change : TenantQuota → TenantQuota}
    {provisioning provisioning' : Option ProvisioningStamp} {keys keys' : List ApiKeyConfig}
    (h : ours (.tenant tenant) ⟨provisioning, tenants, keys⟩ = true) :
    ours (.tenant tenant) ⟨provisioning', tenants.modify tenant change, keys'⟩ = true := by
  simpa only [ours, ExtTreeMap.size_modify, ExtTreeMap.contains_modify] using h

theorem putTenant_effect {spec : TenantSpec} {view : TenantView} (hbefore : InForce world before)
    (h : putTenant world before tenant spec ifMatch = (.ok view, after)) :
    InForce world after ∧ Effect world before after body (.putTenant tenant spec) := by
  obtain ⟨path, file, hprepared, hafter, hfiles⟩ := committed hbefore h
  obtain ⟨⟨opened, existing⟩, hopen, hprepared⟩ := bind_eq_ok.mp hprepared
  obtain ⟨⟨⟩, -, hprepared⟩ := bind_eq_ok.mp hprepared
  cases hprepared
  obtain ⟨hpath, hexisting⟩ := openSlot_ok hopen
  have hnew := congrArg (fun files : KeyFiles => files[path]?) hfiles
  simp only [ExtTreeMap.getElem?_insert_self] at hnew
  refine ⟨hafter, ?_⟩
  rcases hexisting with ⟨rfl, hfile⟩ | ⟨included, stamp, rfl, hfile, hstamp, hours⟩
  · have hquota : ((newTenantFile world tenant).tenants.modify tenant spec.applyTo)[tenant]? =
        some (spec.applyTo { allowedIndexes := some (ownNames tenant) }) := by
      simp [newTenantFile, ExtTreeMap.getElem?_modify_self]
    have howned : ours (.tenant tenant) (newTenantFile world tenant).toIncluded = true := by
      simp [ours, newTenantFile, ManagedFile.toIncluded, ExtTreeMap.size_insert]
    have edit := SlotEdit.of_insert hbefore hafter hfiles (fun old hold => by rw [hfile] at hold; cases hold)
      rfl (ours_modify howned)
    refine .puts (slotPath_tenant hpath).2 edit (fun key hkey => ?_) ?_
    · rcases edit.keys hkey with hkey | ⟨found, hfound, own, hown, -⟩
      · exact hkey
      · rw [hnew] at hfound
        cases hfound
        cases hown
    · rw [edit.assembled.tenant_absent edit.reassembled edit.elsewhere hnew hquota (by simp [hfile])]
      exact (edit.reassembled.tenants _ _).mpr (.inr ⟨path, _, hnew, hquota⟩)
  · have hopened := OpenedFile.of_file hbefore hfile hstamp hours
    have edit := SlotEdit.of_insert hbefore hafter hfiles hopened.old rfl (ours_modify hopened.owned)
    refine .puts (slotPath_tenant hpath).2 edit (fun key hkey => ?_) ?_
    · rcases edit.keys hkey with hkey | ⟨found, hfound, own, hown, rfl⟩
      · exact hkey
      · rw [hnew] at hfound
        cases hfound
        exact hopened.mem_keys edit.assembled hown
    · obtain ⟨quota, hquota⟩ := exists_of_contains (Bool.and_eq_true_iff.mp hours).2
      rw [(edit.assembled.tenants tenant quota).mpr (.inr ⟨path, included, hfile, hquota⟩)]
      refine (edit.reassembled.tenants _ _).mpr (.inr ⟨path, _, hnew, ?_⟩)
      simp [ManagedFile.toIncluded, nextRevision, ExtTreeMap.getElem?_modify_self, hquota]

theorem deleteTenant_effect (hbefore : InForce world before)
    (h : deleteTenant world before tenant ifMatch = (.ok (), after)) :
    InForce world after ∧ Effect world before after body (.deleteTenant tenant) := by
  unfold deleteTenant at h
  split at h
  · cases h
  · rename_i path base hopen
    obtain ⟨hpath, hopened⟩ := OpenedFile.of_openExisting hbefore hopen
    split at h
    · rename_i found hreload
      cases h
      obtain ⟨hfiles, hafter⟩ := reloadWith_none hreload
      have edit := SlotEdit.of_erase hbefore hafter hfiles hopened.old
      have hnone (included : IncludedFile) : after.files[path]? ≠ some (.parsed included) := by
        rw [hfiles, ExtTreeMap.getElem?_erase_self]
        exact (Option.some_ne_none _).symm
      refine ⟨hafter, .deletes hpath edit hfiles ?_⟩
      obtain ⟨own, hown⟩ := exists_of_contains (Bool.and_eq_true_iff.mp hopened.owned).2
      obtain ⟨included, hfile, hquota⟩ := (hopened.tenants tenant own).mp hown
      exact edit.reassembled.tenant_absent edit.assembled (fun p hp => (edit.elsewhere p hp).symm) hfile hquota hnone
    · cases h

theorem storeAnswer_ok {result : Except TenantError α × KeyNode} {answer : α → KeyAnswer} {a : KeyAnswer}
    (h : storeAnswer result answer = (.ok a, after)) : ∃ x, result = (.ok x, after) := by
  obtain ⟨_ | x, node⟩ := result <;> cases h
  exact ⟨x, rfl⟩

theorem serve_ok {answer : KeyAnswer} (hbefore : InForce world before)
    (h : serve world before call = (.ok answer, after)) :
    checkCall before call = .ok () ∧ InForce world after ∧ Effect world before after call.body call.request := by
  unfold serve at h
  split at h
  · cases h
  · rename_i hcheck
    refine ⟨hcheck, ?_⟩
    split at h
    · cases h
    · rename_i ifMatch _
      have hsame (hreads : call.request.isChange = false) (heq : after = before) :
          InForce world after ∧ Effect world before after call.body call.request :=
        ⟨heq ▸ hbefore, .reads hreads heq⟩
      unfold runStore at h
      cases hrequest : call.request <;> simp only [hrequest] at h hsame
      case listTenants => exact hsame rfl (Prod.mk.inj h).2.symm
      case getTenant tenant =>
        split at h
        · cases h
        · exact hsame rfl (Prod.mk.inj h).2.symm
      all_goals obtain ⟨x, hx⟩ := storeAnswer_ok h
      case listKeys => exact hsame rfl (Prod.mk.inj hx).2.symm
      case createKey | createTenantKey => exact mint_effect hbefore hx
      case updateKey => exact updateKey_effect hbefore hx
      case revokeKey => exact revoke_effect .keys hbefore hx
      case revokeTenantKey tenant _ => exact revoke_effect (.tenant tenant) hbefore hx
      case putTenant => exact putTenant_effect hbefore hx
      case deleteTenant => exact deleteTenant_effect hbefore hx

/-! ### Runs -/

/-- A node that is in force, with no file that was not there and is not read. -/
def Stays (world : KeyWorld) (before after : KeyNode) : Prop :=
  InForce world after ∧ ∀ path ∈ after.files, path ∈ before.files ∨ world.Reads path

theorem Stays.same (hbefore : InForce world before) : Stays world before before := ⟨hbefore, fun _ => .inl⟩

theorem committing_stays (hbefore : InForce world before)
    (hplace : ∀ path file, prepared = .ok (path, file) → ∃ slot, slotPath before.security slot = .ok path) :
    Stays world before (committing world before prepared answer).2 := by
  rcases committing_cases hbefore with ⟨e, hrefused⟩ |
    ⟨path, file, revision, found, hprepared, hcommitted, hafter, hfiles⟩
  · rw [hrefused]
    exact .same hbefore
  · rw [hcommitted]
    refine ⟨hafter, fun other hother => ?_⟩
    rw [hfiles, ExtTreeMap.mem_insert] at hother
    rcases hother with hsame | hother
    · obtain ⟨slot, hslot⟩ := hplace path file hprepared
      exact .inr (LawfulEqCmp.eq_of_compare hsame ▸ slotPath_reads hbefore hslot)
    · exact .inl hother

theorem deleteTenant_stays (hbefore : InForce world before) :
    Stays world before (deleteTenant world before tenant ifMatch).2 := by
  unfold deleteTenant
  split
  · exact .same hbefore
  · split
    · rename_i hreload
      obtain ⟨hfiles, hafter⟩ := reloadWith_none hreload
      refine ⟨hafter, fun other hother => ?_⟩
      rw [hfiles] at hother
      exact .inl (ExtTreeMap.mem_of_mem_erase hother)
    · rw [reloadWith_back hbefore]
      exact .same hbefore

theorem prepareRevoke_place {place : String} {file : ManagedFile}
    (h : prepareRevoke before slot keyId ifMatch missing place = .ok (path, file)) :
    slotPath before.security slot = .ok path := by
  obtain ⟨⟨opened, base⟩, hopen, h⟩ := bind_eq_ok.mp h
  obtain ⟨removed, -, h⟩ := bind_eq_ok.mp h
  cases h
  exact (openExisting_ok hopen).1

theorem prepareMint_place {spec : KeySpec} {file : ManagedFile}
    (h : prepareMint world before slot spec ifMatch body = .ok (path, file)) :
    slotPath before.security slot = .ok path := by
  obtain ⟨⟨⟩, -, h⟩ := bind_eq_ok.mp h
  obtain ⟨⟨⟩, -, h⟩ := bind_eq_ok.mp h
  obtain ⟨⟨opened, existing⟩, hopen, h⟩ := bind_eq_ok.mp h
  obtain ⟨⟨⟩, -, h⟩ := bind_eq_ok.mp h
  obtain ⟨base, -, h⟩ := bind_eq_ok.mp h
  cases h
  exact (openSlot_ok hopen).1

theorem prepareUpdate_place {patch : KeyPatch} {file : ManagedFile}
    (h : prepareUpdate before keyId patch ifMatch = .ok (path, file)) :
    slotPath before.security .keys = .ok path := by
  obtain ⟨⟨⟩, -, h⟩ := bind_eq_ok.mp h
  obtain ⟨⟨opened, base⟩, hopen, h⟩ := bind_eq_ok.mp h
  dsimp only at h
  split at h
  · cases h
  · cases h
    exact (openExisting_ok hopen).1

theorem preparePut_place {spec : TenantSpec} {file : ManagedFile}
    (h : preparePut world before tenant spec ifMatch = .ok (path, file)) :
    slotPath before.security (.tenant tenant) = .ok path := by
  obtain ⟨⟨opened, existing⟩, hopen, h⟩ := bind_eq_ok.mp h
  obtain ⟨⟨⟩, -, h⟩ := bind_eq_ok.mp h
  cases h
  exact (openSlot_ok hopen).1

theorem serve_stays (hbefore : InForce world before) : Stays world before (serve world before call).2 := by
  unfold serve
  split
  · exact .same hbefore
  · split
    · exact .same hbefore
    · unfold runStore
      split
      case h_1 | h_5 => exact .same hbefore
      case h_6 => split <;> exact .same hbefore
      case h_8 => exact deleteTenant_stays hbefore
      case h_2 | h_9 => exact committing_stays hbefore fun _ _ h => ⟨_, prepareMint_place h⟩
      case h_3 => exact committing_stays hbefore fun _ _ h => ⟨_, prepareUpdate_place h⟩
      case h_4 | h_10 => exact committing_stays hbefore fun _ _ h => ⟨_, prepareRevoke_place h⟩
      case h_7 => exact committing_stays hbefore fun _ _ h => ⟨_, preparePut_place h⟩

/-- After any requests a node is in force, and `include` reads every file that they added. -/
theorem serveAll_stays (calls : List KeyCall) (hbefore : InForce world before) :
    Stays world before (serveAll world before calls) := by
  induction calls generalizing before with
  | nil => exact .same hbefore
  | cons call rest ih =>
    obtain ⟨hafter, hread⟩ : Stays world before (serve world before call).2 := serve_stays hbefore
    obtain ⟨hend, hrest⟩ := ih hafter
    exact ⟨hend, fun path hpath => (hrest path hpath).elim (hread path) .inr⟩

end Effects

end CameoDb
