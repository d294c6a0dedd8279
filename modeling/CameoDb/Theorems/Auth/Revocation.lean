import CameoDb.Theorems.Auth.Includes
import CameoDb.Theorems.Auth.ManagedFiles

/-! # Revoked keys stay revoked

A change writes its file before its reload reads. Removed keys stay out as long as no reading from before is put in
place after it. -/

namespace CameoDb
open List KeyServer Checked Transition Std

/-! ### The keys of the files -/

/-- A key that a file or the command line configures. -/
def Held (world : KeyWorld) (files : KeyFiles) (digest : KeyDigest) : Prop :=
  ∃ key, HoldsKey world files key ∧ digestOf world.env key = some digest

section Held
variable {world : KeyWorld} {files : KeyFiles} {config : SecurityConfig} {ring : KeyRing}
  {digest : KeyDigest} {path : String}
  {entry : KeyEntry} {result : SecurityConfig} {included : IncludedFile} {own key : ApiKeyConfig}
      {file : Option KeyFile}

theorem digestOf_of_resolves {env : KeyEnv} {scopes : List (String × IndexScope)} {key : ApiKeyConfig}
    (h : Resolves env scopes key entry) : digestOf env key = some entry.digest := by
  obtain ⟨origin, raw, hraw, hparse⟩ := h.digest
  have hsame : resolveHash env "" key = .ok raw := by
    unfold resolveHash within at hraw ⊢
    cases hhash : key.keyHash with
    | some hash =>
      simp only [hhash] at hraw ⊢
      exact hraw
    | none =>
      cases hfile : key.keyHashFile with
      | none => simp only [hhash, hfile, reduceCtorEq] at hraw
      | some path =>
        simp only [hhash, hfile, mapError_eq_ok] at hraw ⊢
        exact hraw
  rw [digestOf, hsame]
  simp only [Except.toOption, Option.bind_some, hparse]

theorem Held.of_ring (h : resolveFiles world files = .ok (config, ring)) (hentry : entry ∈ ring.entries) :
    Held world files entry.digest := by
  obtain ⟨hassembled, scopes, hloaded⟩ := resolveFiles_ok h
  obtain ⟨key, hkey, hresolves⟩ := exists_left hloaded.entries hentry
  exact ⟨key, (hassembled.keys key).mp hkey, digestOf_of_resolves hresolves⟩

theorem digests_nodup (h : resolveFiles world files = .ok (config, ring)) :
    (config.keys.map (digestOf world.env)).Nodup := by
  obtain ⟨-, scopes, hloaded⟩ := resolveFiles_ok h
  have hdigests : config.keys.map (digestOf world.env) = (ring.entries.map KeyEntry.digest).map some := by
    rw [map_map, ← forall₂_eq_eq_eq, forall₂_map_left_iff, forall₂_map_right_iff]
    exact hloaded.entries.imp fun _ _ hresolves => digestOf_of_resolves hresolves
  rw [hdigests]
  exact hloaded.nodup.map (Option.some_injective _)

theorem held_once (h : resolveFiles world files = .ok (config, ring)) (hfile : files[path]? = some (.parsed included))
    (hown : own ∈ included.apiKeys) (hkey : HoldsKey world files key)
    (hsame : digestOf world.env key = digestOf world.env own) : key = { own with source := some path } := by
  have hkeys := (resolveFiles_ok h).1.keys
  exact inj_on_of_nodup_map (digests_nodup h) ((hkeys _).mpr hkey)
    ((hkeys _).mpr (.inr ⟨path, included, hfile, own, hown, rfl⟩)) hsame

/-- Neither the main file nor the command line holds a key that a file holds. -/
theorem not_main (h : resolveFiles world files = .ok (config, ring)) (hfile : files[path]? = some (.parsed included))
    (hown : own ∈ included.apiKeys) (hkey : key ∈ world.main.keys) :
    digestOf world.env key ≠ digestOf world.env own := by
  have hnodup := digests_nodup h
  rw [applyIncludes_keys (resolveFiles_applied h).1, map_append, map_append] at hnodup
  have hmem : digestOf world.env own ∈ (files.toList.flatMap sourcedKeys).map (digestOf world.env) :=
    mem_map.mpr ⟨{ own with source := some path }, mem_sourcedKeys.mpr ⟨path, included, hfile, own, hown, rfl⟩, rfl⟩
  intro heq
  obtain ⟨hleft, -, hright⟩ := nodup_append.mp hnodup
  rcases mem_append.mp hkey with hkey | hkey
  · obtain ⟨-, -, hapart⟩ := nodup_append.mp hleft
    exact hapart _ (mem_map_of_mem hkey) _ hmem heq
  · exact hright _ (mem_append_right _ hmem) _ (mem_map_of_mem hkey) heq.symm

theorem getElem?_writeFile {p : String} : (writeFile files path file)[p]? = if p = path then file else files[p]? := by
  cases file with
  | none =>
    rw [writeFile, ExtTreeMap.getElem?_erase]
    grind
  | some written =>
    rw [writeFile, ExtTreeMap.getElem?_insert]
    grind

theorem Held.of_writeFile (h : Held world (writeFile files path file) digest) :
    Held world files digest ∨ ∃ written, file = some written ∧
    ∃ own ∈ written.keys, digestOf world.env own = some digest := by
  obtain ⟨key, hkey, hdigest⟩ := h
  rcases hkey with hkey | ⟨p, included, hfile, own, hown, rfl⟩
  · exact .inl ⟨key, .inl hkey, hdigest⟩
  · rw [getElem?_writeFile] at hfile
    split at hfile
    · exact .inr ⟨_, hfile, own, hown, hdigest⟩
    · exact .inl ⟨_, .inr ⟨p, included, hfile, own, hown, rfl⟩, hdigest⟩

theorem not_held_of_removed (h : resolveFiles world files = .ok (config, ring))
    (hfile : files[path]? = some (.parsed included)) {own : ApiKeyConfig} (hown : own ∈ included.apiKeys)
    (hwritten : ∀ written, file = some written → ∀ key ∈ written.keys, key ∈ included.apiKeys ∧
    key.keyHash ≠ own.keyHash)
    (hdigest : digestOf world.env own = some digest) : ¬ Held world (writeFile files path file) digest := by
  rintro ⟨key, hkey, hsame⟩
  rw [← hdigest] at hsame
  rcases hkey with hkey | ⟨p, other, hother, kept, hkept, rfl⟩
  · exact not_main h hfile hown hkey hsame
  · rw [getElem?_writeFile] at hother
    split at hother
    · obtain ⟨hmem, hne⟩ := hwritten _ hother kept hkept
      have heq := held_once h hfile hown (.inr ⟨path, included, hfile, kept, hmem, rfl⟩) hsame
      exact hne (ApiKeyConfig.mk.inj heq).1
    · rename_i hp
      have heq := held_once h hfile hown (.inr ⟨p, other, hother, kept, hkept, rfl⟩) hsame
      exact hp (Option.some.inj (congrArg ApiKeyConfig.source heq))

theorem writeFile_back (file : Option KeyFile) : writeFile (writeFile files path file) path files[path]? = files := by
  apply ExtTreeMap.ext_getElem?
  intro p
  rw [getElem?_writeFile, getElem?_writeFile]
  grind

end Held

/-! ### What a change removes -/

/-- No file holds a key that the change removes. -/
def Removes (world : KeyWorld) (files : KeyFiles) (change : StoreChange) : Prop :=
  ∀ own ∈ change.removed, ∀ digest, digestOf world.env own = some digest → ¬ Held world files digest

section Prepared
variable {world : KeyWorld} {node : KeyNode} {config : SecurityConfig} {ring : KeyRing} {path body : String}
  {ifMatch : Option Nat} {slot : Slot} {keyId place : String} {missing : TenantError} {file : ManagedFile}

theorem prepareRevoke_ok (h : prepareRevoke node slot keyId ifMatch missing place = .ok (path, file)) :
    ∃ included, node.files[path]? = some (.parsed included) ∧
      file.apiKeys = included.apiKeys.filter fun entry => !hasKeyId entry keyId := by
  obtain ⟨⟨opened, base⟩, hopen, h⟩ := bind_eq_ok.mp h
  obtain ⟨removed, hremoved, h⟩ := bind_eq_ok.mp h
  cases h
  obtain ⟨-, included, stamp, rfl, hfile, -, -⟩ := openExisting_ok hopen
  refine ⟨included, hfile, ?_⟩
  simp only [removeKey] at hremoved
  split at hremoved
  · cases hremoved
  · cases hremoved
    rfl

theorem prepareDelete_ok {tenant : String} (h : prepareDelete node tenant ifMatch = .ok (path, file)) :
    ∃ included, node.files[path]? = some (.parsed included) := by
  obtain ⟨-, included, -, -, hfile, -, -⟩ := openExisting_ok h
  exact ⟨included, hfile⟩

theorem removes_of_revoke (hresolved : resolveFiles world node.files = .ok (config, ring))
    (h : prepareRevoke node slot keyId ifMatch missing place = .ok (path, file))
    {own : ApiKeyConfig} {digest : KeyDigest}
    (hown : own ∈ ((node.files[path]?.map KeyFile.keys).getD []).filter fun entry => hasKeyId entry keyId)
    (hdigest : digestOf world.env own = some digest) :
    ¬ Held world (writeFile node.files path (some (written world file))) digest := by
  obtain ⟨included, hfile, hkept⟩ := prepareRevoke_ok h
  rw [hfile] at hown
  obtain ⟨hown, hid⟩ := mem_filter.mp hown
  refine not_held_of_removed hresolved hfile hown ?_ hdigest
  rintro _ ⟨⟩ key hkey
  have hkey : key ∈ file.apiKeys := hkey
  rw [hkept] at hkey
  obtain ⟨hmem, hother⟩ := mem_filter.mp hkey
  refine ⟨hmem, fun heq => ?_⟩
  rw [hasKeyId, heq] at hother
  rw [hasKeyId] at hid
  simp [hid] at hother

theorem removes_of_prepareChange {request : KeyRequest} {file : Option KeyFile}
    (hresolved : resolveFiles world node.files = .ok (config, ring))
    (h : prepareChange world node request ifMatch body = some (.ok (path, file))) :
    Removes world (writeFile node.files path file) ⟨request, path, file, node.files[path]?, .opened⟩ := by
  intro own hown digest hdigest
  unfold prepareChange at h
  cases request with
  | listKeys | listTenants | getTenant => cases h
  | createKey | updateKey | putTenant | createTenantKey => cases hown
  | revokeKey keyId | revokeTenantKey tenant keyId =>
    obtain ⟨⟨p, managed⟩, hprepared, heq⟩ := map_eq_ok.mp (Option.some.inj h)
    cases heq
    exact removes_of_revoke hresolved hprepared hown hdigest
  | deleteTenant tenant =>
    obtain ⟨⟨p, managed⟩, hprepared, heq⟩ := map_eq_ok.mp (Option.some.inj h)
    cases heq
    obtain ⟨included, hfile⟩ := prepareDelete_ok hprepared
    simp only [StoreChange.removed, hfile] at hown
    exact not_held_of_removed hresolved hfile hown (fun _ hnone => nomatch hnone) hdigest

end Prepared

/-! ### A change alone -/

def settled (world : KeyWorld) (node : KeyNode) (path : String) (file : Option KeyFile) : KeyNode :=
  match resolveFiles world (writeFile node.files path file) with
  | .ok (security, ring) => ⟨writeFile node.files path file, security, ring⟩
  | .error _ => node

section Alone
variable {world : KeyWorld} {node : KeyNode} {path body : String} {request : KeyRequest} {ifMatch : Option Nat}

theorem commit_settled (hnode : InForce world node) (file : ManagedFile) :
    (commit world node path file).2 = settled world node path (some (written world file)) := by
  simp only [commit, settled, KeyNode.reloadWith, writeFile, written]
  cases hresolve : resolveFiles world (node.files.insert path _) with
  | ok result => rfl
  | error e =>
    simp only
    rw [show resolveFiles world node.files = .ok (node.security, node.ring) from hnode]

theorem committing_settled {α : Type} {prepared : Except TenantError (String × ManagedFile)}
    {answer : Nat → KeyNode → Except TenantError α} {file : ManagedFile} (hnode : InForce world node)
    (hprepared : prepared = .ok (path, file)) :
    (committing world node prepared answer).2 = settled world node path (some (written world file)) := by
  rw [← commit_settled hnode, hprepared, committing]
  split <;> simp_all

theorem deleteTenant_settled {tenant : String} {file : ManagedFile} (hnode : InForce world node)
    (hprepared : prepareDelete node tenant ifMatch = .ok (path, file)) :
    (deleteTenant world node tenant ifMatch).2 = settled world node path none := by
  simp only [deleteTenant, hprepared, settled, KeyNode.reloadWith, writeFile]
  cases hresolve : resolveFiles world (node.files.erase path) with
  | ok result => rfl
  | error e =>
    simp only
    rw [show resolveFiles world node.files = .ok (node.security, node.ring) from hnode]

variable {call : KeyCall} {file : Option KeyFile}

theorem runStore_settled (hnode : InForce world node)
    (h : prepareChange world node call.request ifMatch call.body = some (.ok (path, file))) :
    (runStore world node call ifMatch).2 = settled world node path file := by
  unfold prepareChange at h
  unfold runStore
  cases hrequest : call.request with
  | listKeys | listTenants | getTenant =>
    rw [hrequest] at h
    cases h
  | deleteTenant tenant =>
    simp only [hrequest, Option.some.injEq] at h ⊢
    obtain ⟨⟨p, managed⟩, hprepared, heq⟩ := map_eq_ok.mp h
    cases heq
    exact deleteTenant_settled hnode hprepared
  | createKey | updateKey | revokeKey | putTenant | createTenantKey | revokeTenantKey =>
    simp only [hrequest, Option.some.injEq] at h ⊢
    obtain ⟨⟨p, managed⟩, hprepared, heq⟩ := map_eq_ok.mp h
    cases heq
    exact committing_settled hnode hprepared

/-- A change with nothing beside it, from its opening to its return, does what the store does in one step. -/
theorem change_alone (hnode : InForce world node)
    (h : prepareChange world node call.request ifMatch call.body = some (.ok (path, file))) :
    ∃ n s, run (KeyServer.step world) { node } (.lock call.request ifMatch call.body :: replicate n .advance) = some s ∧
      s.change = none ∧ s.node = (runStore world node call ifMatch).2 := by
  rw [runStore_settled hnode h]
  have hback : resolveFiles world node.files = .ok (node.security, node.ring) := hnode
  cases hresolve : resolveFiles world (writeFile node.files path file) with
  | ok result =>
    refine ⟨4, ?_⟩
    simp [run, KeyServer.step, h, KeyServer.advance, hresolve, replicate, settled, install]
  | error e =>
    refine ⟨5, ?_⟩
    simp [run, KeyServer.step, h, KeyServer.advance, hresolve, replicate, settled, install, writeFile_back,
      hback]

end Alone

/-! ### The invariant -/

/-- The ring only has keys that the files hold. -/
def Within (world : KeyWorld) (files : KeyFiles) (ring : KeyRing) : Prop :=
  ∀ entry ∈ ring.entries, Held world files entry.digest

/-- What holds of the files while a change is at each stage. -/
def StageHolds (world : KeyWorld) (s : KeyServer) (change : StoreChange) : Prop :=
  let files := s.node.files
  match change.stage with
  | .opened =>
    (∃ result, resolveFiles world files = .ok result) ∧ change.previous = files[change.path]? ∧
      Removes world (writeFile files change.path change.file) change
  | .written | .refused =>
    ∃ base, (∃ result, resolveFiles world base = .ok result) ∧ files = writeFile base change.path change.file ∧
      change.previous = base[change.path]? ∧ Removes world files change ∧ ∀ digest ∈ s.revoked, ¬ Held world base digest
  | .read reading =>
    reading.writes = s.writes ∧ resolveFiles world files = .ok (reading.security, reading.ring) ∧
      Removes world files change
  | .swapped =>
    (∃ result, resolveFiles world files = .ok result) ∧ s.swapped = s.writes ∧ Within world files s.node.ring ∧
      Removes world files change
  | .restored => ∃ result, resolveFiles world files = .ok result
  | .reread reading => reading.writes = s.writes ∧ resolveFiles world files = .ok (reading.security, reading.ring)

/-- A key that no file holds, and no reading that may still be put in place. -/
structure Gone (world : KeyWorld) (s : KeyServer) (digest : KeyDigest) : Prop where
  files : ¬ Held world s.node.files digest
  ring : ∀ entry ∈ s.node.ring.entries, entry.digest ≠ digest
  readings : ∀ reading ∈ s.reloads, s.swapped ≤ reading.writes → ∀ entry ∈ reading.ring.entries, entry.digest ≠ digest

/-- The invariant of a node with its change and its reloads. -/
structure KeyServer.Sound (world : KeyWorld) (s : KeyServer) : Prop where
  readings : ∀ reading ∈ s.reloads, reading.writes ≤ s.writes ∧
    (reading.writes = s.writes → Within world s.node.files reading.ring)
  quiet : s.change = none → ∃ result, resolveFiles world s.node.files = .ok result
  change : ∀ change, s.change = some change → StageHolds world s change
  revoked : ∀ digest ∈ s.revoked, Gone world s digest

def Current (s : KeyServer) : KeyStep → Bool
  | .swap i => s.reloads[i]?.all fun reading => s.swapped ≤ reading.writes
  | _ => true

section Steps
variable {world : KeyWorld} {s : KeyServer} {change : StoreChange} {digest : KeyDigest}
  {ring : KeyRing} {files : KeyFiles} {reading : Reading}

theorem Within.of_resolves {config : SecurityConfig} (h : resolveFiles world files = .ok (config, ring)) :
    Within world files ring := fun _ hentry => Held.of_ring h hentry

theorem Within.ne (h : Within world files ring) (hgone : ¬ Held world files digest) :
    ∀ entry ∈ ring.entries, entry.digest ≠ digest := by
  rintro entry hentry rfl
  exact hgone (h entry hentry)

theorem KeyServer.Sound.gone_install (h : s.Sound world) (hwrites : reading.writes = s.writes)
    (hwithin : Within world s.node.files reading.ring) (hgone : ¬ Held world s.node.files digest) :
    Gone world { s.install reading with swapped := reading.writes } digest where
  files := hgone
  ring := hwithin.ne hgone
  readings other hother hlate := by
    have hlate : reading.writes ≤ other.writes := hlate
    obtain ⟨hle, hsame⟩ := h.readings other hother
    exact (hsame (by omega)).ne hgone

theorem KeyServer.Sound.older (h : s.Sound world) :
    ∀ reading ∈ s.reloads, reading.writes ≤ s.writes + 1 ∧
    (reading.writes = s.writes + 1 → Within world files reading.ring) := by
  intro reading hreading
  obtain ⟨hle, -⟩ := h.readings reading hreading
  exact ⟨by omega, fun heq => by omega⟩

theorem KeyServer.Sound.restage (h : s.Sound world)
    (hstage : StageHolds world { s with change := some change } change) :
    { s with change := some change }.Sound world where
  readings := h.readings
  quiet hnone := nomatch hnone
  change := by
    rintro _ ⟨⟩
    exact hstage
  revoked digest hdigest := { h.revoked digest hdigest with }

theorem KeyServer.Sound.unlock (h : s.Sound world) {result : SecurityConfig × KeyRing}
    (hresolve : resolveFiles world s.node.files = .ok result) : { s with change := none }.Sound world where
  readings := h.readings
  quiet _ := ⟨result, hresolve⟩
  change _ hsome := nomatch hsome
  revoked digest hdigest := { h.revoked digest hdigest with }

theorem KeyServer.Sound.advance (h : s.Sound world) (hchange : s.change = some change) :
    (s.advance world change).Sound world := by
  have hstage := h.change change hchange
  obtain ⟨request, path, file, previous, stage⟩ := change
  cases stage with
  | opened =>
    obtain ⟨hresolved, hprevious, hremoves⟩ := hstage
    refine ⟨h.older, (nomatch ·), ?_, fun digest hdigest => ?_⟩
    · rintro _ ⟨⟩
      refine ⟨s.node.files, hresolved, rfl, hprevious, hremoves, fun digest hdigest => ?_⟩
      exact (h.revoked digest (mem_filter.mp hdigest).1).files
    · obtain ⟨hdigest, hback⟩ := mem_filter.mp hdigest
      have hgone := h.revoked digest hdigest
      refine ⟨fun hheld => ?_, hgone.ring, hgone.readings⟩
      rcases hheld.of_writeFile with hheld | ⟨file, hfile, own, hown, hsame⟩
      · exact hgone.files hheld
      · refine of_decide_eq_true hback ?_
        rw [hfile]
        exact mem_filterMap.mpr ⟨own, hown, hsame⟩
  | written =>
    unfold KeyServer.advance
    cases hresolve : resolveFiles world s.node.files with
    | error e => exact h.restage hstage
    | ok result =>
      obtain ⟨base, -, -, -, hremoves, -⟩ := hstage
      exact h.restage ⟨rfl, hresolve, hremoves⟩
  | read reading =>
    obtain ⟨hwrites, hresolve, hremoves⟩ := hstage
    have hwithin := Within.of_resolves hresolve
    refine ⟨h.readings, (nomatch ·), ?_, fun digest hdigest => ?_⟩
    · rintro _ ⟨⟩
      exact ⟨⟨_, hresolve⟩, hwrites, hwithin, hremoves⟩
    · exact { h.gone_install hwrites hwithin (h.revoked digest hdigest).files with }
  | swapped =>
    obtain ⟨⟨result, hresolve⟩, hswapped, hwithin, hremoves⟩ := hstage
    have hunlocked := h.unlock hresolve
    refine ⟨hunlocked.readings, hunlocked.quiet, fun _ hsome => (nomatch hsome), fun digest hdigest => ?_⟩
    rcases mem_append.mp hdigest with hdigest | hdigest
    · exact { hunlocked.revoked digest hdigest with }
    · -- Only now does it count that the change took these keys out.
      split at hdigest
      · obtain ⟨own, hown, hsame⟩ := mem_filterMap.mp hdigest
        have hgone := hremoves own hown digest hsame
        refine ⟨hgone, hwithin.ne hgone, fun reading hreading hlate => ?_⟩
        obtain ⟨hle, hpresent⟩ := h.readings reading hreading
        have hlate : s.swapped ≤ reading.writes := hlate
        exact (hpresent (by omega)).ne hgone
      · cases hdigest
  | refused =>
    dsimp only [StageHolds] at hstage
    obtain ⟨base, hbase, hfiles, rfl, -, hrevoked⟩ := hstage
    have hback : writeFile s.node.files path base[path]? = base := by rw [hfiles, writeFile_back]
    unfold KeyServer.advance
    dsimp only
    rw [hback]
    refine ⟨h.older, (nomatch ·), ?_, fun digest hdigest => ?_⟩
    · rintro _ ⟨⟩
      exact hbase
    · exact { h.revoked digest hdigest with files := hrevoked digest hdigest }
  | restored =>
    obtain ⟨result, hresolve⟩ := hstage
    simp only [KeyServer.advance, hresolve]
    exact h.restage ⟨rfl, hresolve⟩
  | reread reading =>
    obtain ⟨hwrites, hresolve⟩ := hstage
    refine ⟨h.readings, fun _ => ⟨_, hresolve⟩, fun _ hsome => (nomatch hsome), fun digest hdigest => ?_⟩
    exact { h.gone_install hwrites (Within.of_resolves hresolve) (h.revoked digest hdigest).files with }

theorem KeyServer.Sound.read (h : s.Sound world) {security : SecurityConfig}
    (hresolve : resolveFiles world s.node.files = .ok (security, ring)) :
    { s with reloads := s.reloads ++ [(⟨s.writes, security, ring⟩ : Reading)] }.Sound world := by
  have hwithin := Within.of_resolves hresolve
  refine ⟨fun reading hreading => ?_, h.quiet, h.change, fun digest hdigest => ?_⟩
  · rcases mem_append.mp hreading with hreading | hreading
    · exact h.readings reading hreading
    · obtain rfl := mem_singleton.mp hreading
      exact ⟨le_rfl, fun _ => hwithin⟩
  · have hgone := h.revoked digest hdigest
    refine ⟨hgone.files, hgone.ring, fun reading hreading hlate => ?_⟩
    rcases mem_append.mp hreading with hreading | hreading
    · exact hgone.readings reading hreading hlate
    · obtain rfl := mem_singleton.mp hreading
      exact hwithin.ne hgone.files

theorem KeyServer.Sound.swap (h : s.Sound world) {i : Nat} (hreading : s.reloads[i]? = some reading)
    (hcurrent : s.swapped ≤ reading.writes) :
    { s.install reading with reloads := s.reloads.eraseIdx i }.Sound world := by
  have hmem := mem_of_getElem? hreading
  refine ⟨fun other hother => h.readings other (mem_of_mem_eraseIdx hother), h.quiet, fun change hchange => ?_,
    fun digest hdigest => ?_⟩
  · have hstage := h.change change hchange
    unfold StageHolds at hstage ⊢
    cases hcase : change.stage with
    | swapped =>
      simp only [hcase] at hstage ⊢
      obtain ⟨hresolve, hswapped, -, hremoves⟩ := hstage
      obtain ⟨hle, hpresent⟩ := h.readings reading hmem
      exact ⟨hresolve, hswapped, hpresent (by omega), hremoves⟩
    | _ =>
      simp only [hcase] at hstage ⊢
      exact hstage
  · have hgone := h.revoked digest hdigest
    exact ⟨hgone.files, hgone.readings reading hmem hcurrent,
      fun other hother => hgone.readings other (mem_of_mem_eraseIdx hother)⟩

theorem KeyServer.Sound.step (h : s.Sound world) {e : KeyStep} (hcurrent : Current s e = true) {s' : KeyServer}
    (hstep : s.step world e = some s') : s'.Sound world := by
  cases e with
  | read =>
    simp only [KeyServer.step] at hstep
    split at hstep
    · rename_i hresolve
      cases hstep
      exact h.read hresolve
    · cases hstep
      exact h
  | swap i =>
    simp only [KeyServer.step] at hstep
    split at hstep
    · rename_i reading hreading
      cases hstep
      simp only [Current, hreading, Option.all_some, decide_eq_true_eq] at hcurrent
      exact h.swap hreading hcurrent
    · cases hstep
  | lock request ifMatch body =>
    simp only [KeyServer.step] at hstep
    split at hstep
    · rename_i path file hnone hprepared
      cases hstep
      obtain ⟨result, hresolve⟩ := h.quiet hnone
      exact h.restage ⟨⟨result, hresolve⟩, rfl, removes_of_prepareChange hresolve hprepared⟩
    · cases hstep
      exact h
    · cases hstep
  | advance =>
    simp only [KeyServer.step] at hstep
    split at hstep
    · rename_i change hchange
      cases hstep
      exact h.advance hchange
    · cases hstep

theorem KeyServer.Sound.boot {node : KeyNode} (h : InForce world node) : KeyServer.Sound world { node } where
  readings _ hreading := absurd hreading not_mem_nil
  quiet _ := ⟨_, h⟩
  change _ hsome := nomatch hsome
  revoked _ hdigest := absurd hdigest not_mem_nil

end Steps

/-- In every run in which no reload puts in place a reading that is older than a change's own, no token is taken for
    a key that a change removed and returned, unless a file was written with the key since. -/
theorem revoked_keys_stay_out {world : KeyWorld} {boot : KeyNode} {steps : List KeyStep} {s : KeyServer}
    (hboot : InForce world boot)
    (hcurrent : Transition.Along (KeyServer.step world) (fun s e => Current s e = true) { node := boot } steps)
    (hrun : run (KeyServer.step world) { node := boot } steps = some s) (token : String) (entry : KeyEntry)
    (htaken : s.node.ring.authenticate world.env token = some entry) : entry.digest ∉ s.revoked := by
  have hsound : s.Sound world := run_invariant (fun s e s' h hok hstep => h.step hok hstep)
    (KeyServer.Sound.boot hboot) hcurrent hrun
  intro hrevoked
  exact (hsound.revoked _ hrevoked).ring entry (mem_of_authenticate htaken) rfl

def revocable : KeyWorld where
  env := { sha256 := fun _ => List.Vector.replicate 32 255, keyHashFile := fun _ => .absent }
  main :=
    { enabled := true
      apiKeys := [{ keyHash := some ("sha256:" ++ String.ofList (replicate 64 '0')), role := some .admin }]
      tenants := ∅
      tenantSources := ∅
      overrideKey := none
      managedFiles := some ⟨"k", some "keys", none⟩ }
  configPath := "c"
  folders := WholeFolder.folders
  patterns := WholeFolder.patterns
  validate _ := .ok ()
  nodeId := "n"
  readsBack := by
    rintro _ ⟨⟩ file hfile
    cases hfile with
    | keys hkeys => exact WholeFolder.reads (.keys hkeys)
    | tenant htenant => cases htenant

def oneKeyFile : KeyFiles :=
  (∅ : KeyFiles).insert "k/keys"
    (.parsed ⟨some ⟨1, "n"⟩, ∅, [{ keyHash := some (revocable.env.sha256 "").toConfigValue, role := some .reader }]⟩)

def readerToken : String := "cameo_v1_" ++ String.ofList (replicate 43 'A')

def revocation : List KeyStep :=
  [.lock (.revokeKey (revocable.env.sha256 "").keyId) none "", .advance, .advance, .advance, .advance]

def minting : List KeyStep := [.lock (.createKey { role := .reader }) none "", .advance, .advance, .advance, .advance]

/-- The key is revoked and then written back, and a reload that comes before the second change's return is no older. -/
theorem revoked_keys_stay_out_minting :
    ∃ boot s entry, InForce revocable boot ∧
      Transition.Along (KeyServer.step revocable) (fun s e => Current s e = true) { node := boot }
        (revocation ++ minting ++ [.read, .swap 0]) ∧
      run (KeyServer.step revocable) { node := boot } (revocation ++ minting ++ [.read, .swap 0]) = some s ∧
      s.node.ring.authenticate revocable.env readerToken = some entry ∧ entry.digest ∉ s.revoked := by
  have hrun : ∃ boot, resolveFiles revocable oneKeyFile = .ok boot ∧
      Transition.Along (KeyServer.step revocable) (fun s e => Current s e = true)
        { node := ⟨oneKeyFile, boot.1, boot.2⟩ }
        (revocation ++ minting ++ [.read, .swap 0]) ∧
      ∃ s ∈ run (KeyServer.step revocable) { node := ⟨oneKeyFile, boot.1, boot.2⟩ }
        (revocation ++ minting ++ [.read, .swap 0]),
        ∃ entry ∈ s.node.ring.authenticate revocable.env readerToken, True := by
    decide +kernel
  obtain ⟨⟨security, ring⟩, hboot, hcurrent, s, hreached, entry, htaken, -⟩ := hrun
  have hinForce : InForce revocable ⟨oneKeyFile, security, ring⟩ := hboot
  exact ⟨_, s, entry, hinForce, hcurrent, hreached, htaken,
    revoked_keys_stay_out hinForce hcurrent hreached readerToken entry htaken⟩

theorem stale_reload_takes_revoked_key :
    ∃ boot s entry, InForce revocable boot ∧
      run (KeyServer.step revocable) { node := boot } ([.read] ++ revocation ++ [.swap 0]) = some s ∧
      s.node.ring.authenticate revocable.env readerToken = some entry ∧ entry.digest ∈ s.revoked := by
  have hrun : ∃ boot, resolveFiles revocable oneKeyFile = .ok boot ∧
      ∃ s ∈ run (KeyServer.step revocable) { node := ⟨oneKeyFile, boot.1, boot.2⟩ }
        ([.read] ++ revocation ++ [.swap 0]),
        ∃ entry ∈ s.node.ring.authenticate revocable.env readerToken, entry.digest ∈ s.revoked := by
    decide +kernel
  obtain ⟨⟨security, ring⟩, hboot, s, hreached, entry, htaken, hrevoked⟩ := hrun
  exact ⟨⟨oneKeyFile, security, ring⟩, s, entry, hboot, hreached, htaken, hrevoked⟩

def revoking : KeyCall := { authz := .disabled, request := .revokeKey (revocable.env.sha256 "").keyId }

theorem change_alone_revoking :
    ∃ node n s, run (KeyServer.step revocable) { node }
    (.lock revoking.request none revoking.body :: replicate n .advance) = some s ∧
      s.node = (runStore revocable node revoking none).2 := by
  have hrun : ∃ boot, resolveFiles revocable oneKeyFile = .ok boot ∧ ∃ prepared ∈ prepareChange revocable
      ⟨oneKeyFile, boot.1, boot.2⟩ revoking.request none revoking.body, ∃ change, prepared = .ok change ∧ True := by
    decide +kernel
  obtain ⟨⟨security, ring⟩, hboot, prepared, hprepared, ⟨path, file⟩, rfl, -⟩ := hrun
  have hinForce : InForce revocable ⟨oneKeyFile, security, ring⟩ := hboot
  obtain ⟨n, s, hs, -, hnode⟩ := change_alone hinForce hprepared
  exact ⟨_, n, s, hs, hnode⟩

end CameoDb
