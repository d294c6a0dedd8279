import CameoDb.Auth.Tenants
import CameoDb.Theorems.Auth.Wildcard

/-! # Key files and the patterns that read them back

A pattern holds no `/`. One that matches a tenant's file with a `/` in the place of the name has a star there, and
matches the file of every tenant. The samples may each be matched by a pattern of their own. -/

namespace CameoDb
open List

/-- The file of every tenant a node may create: in the folder, its own, not hidden, and read back. -/
structure TenantFilesRead (env : FolderEnv) (patterns : List IncludePattern) (files : ManagedFilesConfig) : Prop where
  read : ∀ tenant path, validTenantName tenant = true → files.tenantPath tenant = some path →
    ∃ file : String, path = files.dir ++ "/" ++ file ∧ (∀ c ∈ file.toList, c ≠ '/' ∧ c ≠ '\\') ∧ file ≠ "" ∧
      file.toList.head? ≠ some '.' ∧ readBack env patterns files.dir file.toList = true
  own : ∀ tenant other path, files.tenantPath tenant = some path → files.tenantPath other = some path → tenant = other

/-- One pattern of the folder leaves the place of the tenant's name to a star. -/
def FilesCovered (env : FolderEnv) (patterns : List IncludePattern) (files : ManagedFilesConfig) : Prop :=
  ∀ before after, files.tenant = some (before, after) → ∃ p ∈ patterns, env.canonicalize p.folder = some files.dir ∧
    wildcardMatches p.name (before.toList ++ '/' :: after.toList) = true

section
variable {env : FolderEnv} {patterns : List IncludePattern} {files : ManagedFilesSection}
  {resolved : ManagedFilesConfig}
  {pattern before after : List Char} {tenant : String}

theorem Fills.replace (h : Fills pattern (before ++ '/' :: after)) (hslash : '/' ∉ pattern) (name : List Char) :
    Fills pattern (before ++ (name ++ after)) := by
  induction pattern generalizing before with
  | nil => exact absurd h (by simp [Fills])
  | cons c pattern ih =>
    obtain ⟨hc, hslash⟩ := ne_and_not_mem_of_not_mem_cons hslash
    rw [Fills] at h ⊢
    split_ifs at h ⊢
    · obtain ⟨run, rest, htext, h⟩ := h
      rcases append_eq_append_iff.mp htext with ⟨more, rfl, hmore⟩ | ⟨more, rfl, rfl⟩
      · cases more with
        | nil =>
          have hrest : Fills pattern ([] ++ '/' :: after) := by rwa [nil_append, hmore]
          exact ⟨before, name ++ after, rfl, ih hrest hslash⟩
        | cons d more =>
          obtain ⟨rfl, rfl⟩ := cons_eq_cons.mp hmore
          exact ⟨before ++ (name ++ more), rest, by simp, h⟩
      · exact ⟨run, _, by simp, ih h hslash⟩
    · obtain ⟨rest, htext, h⟩ := h
      cases before with
      | nil => exact absurd (cons_eq_cons.mp htext).1 hc
      | cons d before =>
        obtain ⟨hd, rfl⟩ := cons_eq_cons.mp htext
        exact ⟨_, by rw [hd]; rfl, ih h hslash⟩

theorem checkTemplate_plain {template : Option (List Char)} (h : checkTemplate template = .ok (some (before, after))) :
    plainName (before ++ "t".toList ++ after) = true := by
  unfold checkTemplate at h
  split at h
  · cases h
  · split at h
    · cases h
    · dsimp only at h
      split_ifs at h with hplain
      cases h
      exact hplain

theorem resolveManagedFiles_plain {first last : String} (h : resolveManagedFiles env patterns files = .ok resolved)
    (htenant : resolved.tenant = some (first, last)) :
    plainName (first.toList ++ "t".toList ++ last.toList) = true := by
  unfold resolveManagedFiles at h
  split_ifs at h
  split at h
  · cases h
  · obtain ⟨template, htemplate, h⟩ := Checked.bind_eq_ok.mp h
    obtain ⟨dir, -, h⟩ := Checked.bind_eq_ok.mp h
    dsimp only at h
    split at h
    · cases h
    · cases h
      obtain ⟨⟨before, after⟩, rfl, hpair⟩ := Option.map_eq_some_iff.mp htenant
      obtain ⟨rfl, rfl⟩ := Prod.mk.inj hpair
      simp only [String.toList_ofList]
      exact checkTemplate_plain htemplate

theorem ne_slash_of_valid (h : validTenantName tenant = true) : ∀ c ∈ tenant.toList, c ≠ '/' ∧ c ≠ '\\' := by
  refine forall_of_validTenantName h (fun c hc => ⟨?_, ?_⟩) (by simp)
  all_goals
    rintro rfl
    exact absurd hc (by decide)

theorem head_of_valid (h : validTenantName tenant = true) : ∃ c rest, tenant.toList = c :: rest ∧ c ≠ '.' := by
  simp only [validTenantName, Bool.and_eq_true] at h
  obtain ⟨⟨⟨-, hhead⟩, -⟩, -⟩ := h
  cases hchars : tenant.toList with
  | nil => simp [hchars] at hhead
  | cons c rest =>
    refine ⟨c, rest, rfl, ?_⟩
    rintro rfl
    simp [hchars] at hhead

theorem file_of_plain (hplain : plainName (before ++ "t".toList ++ after) = true) (h : validTenantName tenant = true) :
    (∀ c ∈ before ++ (tenant.toList ++ after), c ≠ '/' ∧ c ≠ '\\') ∧ before ++ (tenant.toList ++ after) ≠ [] ∧
      (before ++ (tenant.toList ++ after)).head? ≠ some '.' := by
  simp only [plainName, Bool.and_eq_true, all_eq_true, decide_eq_true_eq] at hplain
  obtain ⟨⟨-, hhead⟩, hall⟩ := hplain
  obtain ⟨first, rest, htenant, hfirst⟩ := head_of_valid h
  refine ⟨fun c hc => ?_, by simp [htenant], ?_⟩
  · have hfixed : c ∈ before ++ "t".toList ++ after → c ≠ '/' ∧ c ≠ '\\' := by
      intro hc
      have hnot := hall c hc
      constructor <;> rintro rfl <;> exact absurd hnot (by decide)
    rcases mem_append.mp hc with hc | hc
    · exact hfixed (by simp [hc])
    · rcases mem_append.mp hc with hc | hc
      · exact ne_slash_of_valid h c hc
      · exact hfixed (by simp [hc])
  · cases before with
    | nil => simpa [htenant] using hfirst
    | cons c before => simpa using hhead

theorem readBack_of_covered {first last : String} (hcovered : FilesCovered env patterns resolved)
    (htenant : resolved.tenant = some (first, last)) (name : List Char) :
    readBack env patterns resolved.dir (first.toList ++ (name ++ last.toList)) = true := by
  obtain ⟨p, hp, hfolder, hmatch⟩ := hcovered first last htenant
  refine any_eq_true.mpr ⟨p, hp, ?_⟩
  rw [decide_eq_true hfolder, Bool.true_and]
  rw [wildcardMatches_iff_partsFit, ← fills_iff_partsFit] at hmatch ⊢
  exact hmatch.replace p.file _

theorem resolveManagedFiles_keys {name : String} (h : resolveManagedFiles env patterns files = .ok resolved)
    (hkeys : resolved.keys = some name) : readBack env patterns resolved.dir name.toList = true := by
  unfold resolveManagedFiles at h
  split_ifs at h
  split at h
  · cases h
  · obtain ⟨template, -, h⟩ := Checked.bind_eq_ok.mp h
    obtain ⟨dir, -, h⟩ := Checked.bind_eq_ok.mp h
    dsimp only at h
    split at h
    · cases h
    · rename_i hnone
      cases h
      obtain ⟨keys, hsome, rfl⟩ := Option.map_eq_some_iff.mp hkeys
      have hread := find?_eq_none.mp hnone keys (mem_append_left _ (by simp [hsome]))
      simpa using hread

/-- With an accepted section whose files one pattern covers, a node reads all that it may write. -/
theorem names_read_back (h : resolveManagedFiles env patterns files = .ok resolved)
    (hcovered : FilesCovered env patterns resolved)
    {file : String} (hfile : resolved.Names file) : readBack env patterns resolved.dir file.toList = true := by
  cases hfile with
  | keys hkeys => exact resolveManagedFiles_keys h hkeys
  | tenant htenant => simpa using readBack_of_covered hcovered htenant _

/-- Every accepted section whose files one pattern covers is read back. -/
theorem tenant_files_read_back (h : resolveManagedFiles env patterns files = .ok resolved)
    (hcovered : FilesCovered env patterns resolved) : TenantFilesRead env patterns resolved := by
  constructor
  · intro tenant path hvalid hpath
    obtain ⟨⟨before, after⟩, htenant, rfl⟩ := Option.map_eq_some_iff.mp hpath
    obtain ⟨hchars, hne, hhead⟩ := file_of_plain (resolveManagedFiles_plain h htenant) hvalid
    have hfile : (before ++ (tenant ++ after)).toList = before.toList ++ (tenant.toList ++ after.toList) := by simp
    refine ⟨before ++ (tenant ++ after), by simp [String.append_assoc], hfile ▸ hchars, ?_, hfile ▸ hhead, ?_⟩
    · intro hempty
      exact hne (by rw [← hfile, hempty]; rfl)
    · rw [hfile]
      exact readBack_of_covered hcovered htenant _
  · intro tenant other path hpath hother
    obtain ⟨template, htenant, rfl⟩ := Option.map_eq_some_iff.mp hpath
    obtain ⟨template', htenant', hsame⟩ := Option.map_eq_some_iff.mp hother
    obtain rfl := Option.some.inj (htenant.symm.trans htenant')
    simpa using hsame.symm

end

namespace SplitPatterns

def env : FolderEnv := ⟨some, fun _ => true⟩

def star : List IncludePattern := [⟨"keys.d", "*.toml".toList, by decide⟩]

def letters : List IncludePattern :=
  [⟨"keys.d", "t*".toList, by decide⟩, ⟨"keys.d", "0*".toList, by decide⟩, ⟨"keys.d", "a*".toList, by decide⟩]

def files : ManagedFilesSection := ⟨"keys.d", none, some "{tenant}.toml".toList⟩

def resolved : ManagedFilesConfig := ⟨"keys.d", none, some ("", ".toml")⟩

end SplitPatterns

open SplitPatterns in
theorem tenant_files_read_back_star : TenantFilesRead env star resolved := by
  have hok : resolveManagedFiles env star files = .ok resolved := by decide +kernel
  refine tenant_files_read_back hok fun before after h => ⟨_, mem_cons_self, rfl, ?_⟩
  cases h
  decide +kernel

open SplitPatterns in
/-- Three patterns read the samples back between them, and none of them the file of `beta`. -/
theorem tenant_file_never_read : resolveManagedFiles env letters files = .ok resolved ∧
    ¬ TenantFilesRead env letters resolved := by
  refine ⟨by decide +kernel, fun h => ?_⟩
  obtain ⟨file, hpath, -, -, -, hread⟩ := h.read "beta" _ (by decide) rfl
  have hfile : file = "beta.toml" :=
    (String.append_right_inj "/").mp ((String.append_right_inj "keys.d").mp hpath.symm)
  rw [hfile] at hread
  exact absurd hread (by decide +kernel)

namespace WholeFolder

def folders : FolderEnv := ⟨some, fun _ => true⟩

def patterns : List IncludePattern := [⟨"k", ['*'], by decide⟩]

def files : ManagedFilesSection := ⟨"k", some "keys".toList, some "t-{tenant}".toList⟩

def resolved : ManagedFilesConfig := ⟨"k", some "keys", some ("t-", "")⟩

theorem reads {file : String} (hfile : resolved.Names file) : readBack folders patterns "k" file.toList = true := by
  have hok : resolveManagedFiles folders patterns files = .ok resolved := by decide +kernel
  refine names_read_back hok (fun before after h => ⟨_, mem_cons_self, rfl, ?_⟩) hfile
  cases h
  decide +kernel

end WholeFolder

end CameoDb
