import CameoDb.Auth.Keys

/-! # The key files a node writes

`[security.managed_files]` names them, and `include` patterns read them back. In a pattern a `*` stands for any run
of characters: what stands between the stars is looked for from left to right, and the first place each part stands
at is taken. -/

namespace CameoDb

def restAfter (part : List Char) : List Char → Option (List Char)
  | [] => part.isPrefixOf? []
  | c :: rest => (part.isPrefixOf? (c :: rest)).or (restAfter part rest)

def wildcardMatches (pattern name : List Char) : Bool :=
  match pattern.splitOn '*' with
  | [] => name.isEmpty
  | first :: parts =>
    match first.isPrefixOf? name with
    | none => false
    | some rest =>
      match parts.getLast? with
      | none => rest.isEmpty
      | some last =>
        match parts.dropLast.foldlM (fun rest part => restAfter part rest) rest with
        | none => false
        | some rest => decide (last.length ≤ rest.length) && last.isSuffixOf rest

/-- An entry of `include`: the folder, and the name of a file in it. -/
structure IncludePattern where
  folder : String
  name : List Char
  file : '/' ∉ name

/-- `[security.managed_files]` as it was written. -/
structure ManagedFilesSection where
  dir : String
  keys : Option (List Char)
  tenant : Option (List Char)

inductive ManagedFilesError where
  | namesNeither
  | notPlain (what : String) (name : List Char)
  | markNotOnce (tenant : List Char)
  | noFolder (dir : String)
  | neverRead (file : List Char)
deriving DecidableEq

/-- What the file system says of folders. -/
structure FolderEnv where
  canonicalize : String → Option String
  isDir : String → Bool

def tenantMark : List Char := "{tenant}".toList

def sampleTenants : List (List Char) := ["t".toList, "0".toList, "acme".toList, "a.b_c-d".toList]

def plainName (name : List Char) : Bool :=
  !name.isEmpty && name.head? ≠ some '.' && name.all fun c => c ∉ ['/', '\\', '{', '}', '*']

/-- A template that holds the mark exactly once: what stands before it, and after it. -/
def splitTemplate (template : List Char) : Option (List Char × List Char) :=
  match restAfter tenantMark template with
  | none => none
  | some rest =>
    if (restAfter tenantMark rest).isSome then none
    else some (template.take (template.length - (tenantMark.length + rest.length)), rest)

def readBack (env : FolderEnv) (patterns : List IncludePattern) (dir : String) (file : List Char) : Bool :=
  patterns.any fun p => env.canonicalize p.folder = some dir && wildcardMatches p.name file

def checkTemplate : Option (List Char) → Except ManagedFilesError (Option (List Char × List Char))
  | none => .ok none
  | some template =>
    match splitTemplate template with
    | none => .error (.markNotOnce template)
    | some (before, after) =>
      let file := before ++ "t".toList ++ after
      if plainName file then .ok (some (before, after)) else .error (.notPlain "tenant" file)

def checkFolder (env : FolderEnv) (dir : String) : Except ManagedFilesError String :=
  match (env.canonicalize dir).filter env.isDir with
  | none => .error (.noFolder dir)
  | some dir => .ok dir

def resolveManagedFiles (env : FolderEnv) (patterns : List IncludePattern) (files : ManagedFilesSection) :
    Except ManagedFilesError ManagedFilesConfig :=
  if files.keys.isNone && files.tenant.isNone then .error .namesNeither
  else
    match files.keys.filter (!plainName ·) with
    | some keys => .error (.notPlain "keys" keys)
    | none => do
      let tenant ← checkTemplate files.tenant
      let dir ← checkFolder env files.dir
      let samples := tenant.toList.flatMap fun template => sampleTenants.map fun t => template.1 ++ t ++ template.2
      match (files.keys.toList ++ samples).find? fun file => !readBack env patterns dir file with
      | some file => .error (.neverRead file)
      | none =>
        .ok ⟨dir, files.keys.map String.ofList, tenant.map fun template =>
          (String.ofList template.1, String.ofList template.2)⟩

end CameoDb
