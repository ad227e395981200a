import PackageHistory.CommandLine.Program

/-!
# The program as it is started

What a command looks at of the real disk is read before it runs: the top folders of the repositories
it names and their profiles. The program starts no processes, so git counts as not installed.
-/

open PackageHistory PackageHistory.CommandLine

/-- The variables that the program reads. -/
def knownVariables : List String :=
  ["NO_COLOR", "FORCE_COLOR", "EBUILD_HISTORY_CACHE_DIR", "EBUILD_HISTORY_GIT_ENABLED",
    "EBUILD_HISTORY_UPSTREAM_REF", "EBUILD_HISTORY_LOCAL_REF", "EBUILD_HISTORY_SCOPE_REF",
    "EBUILD_HISTORY_STASH_LABEL"]

def readEnvironment : IO Environment := do
  let mut env : Environment := .empty
  for name in knownVariables do
    if let some value ← IO.getEnv name then
      env := env.insert name.toList value.toList
  return env

/-- Puts a file into the tree if it can be read. -/
def addFile (disk : Disk) (path : Path) : IO Disk := do
  try
    let content ← IO.FS.readFile (String.ofList path.text)
    return disk.put path (.file content.toList false)
  catch _ => return disk

/-- Puts a folder and what is directly in it into the tree if it can be read. -/
def addFolder (disk : Disk) (path : Path) : IO Disk := do
  try
    let real ← IO.FS.realPath (String.ofList path.text)
    let mut found := disk.put path (.folder .all)
    for entry in ← real.readDir do
      let node := if ← entry.path.isDir then Node.folder .all else Node.file [] false
      found := found.put (path ++ [entry.fileName.toList]) node
    return found
  catch _ => return disk

/-- Reads what commands look at of a repository. -/
def addRepository (disk : Disk) (location : Text) : IO Disk := do
  let root := disk.resolve location
  let disk ← addFolder disk root
  let disk ← addFile disk (root ++ ["profiles".toList, "repo_name".toList])
  addFile disk (root ++ ["profiles".toList, "categories".toList])

/-- The locations that the options of a command name. -/
def locationsOf (options : Json) : List Text :=
  match RepositoryOptions.check options with
  | .ok o => o.repo :: o.masters
  | .error _ => []

def noGit : Git where
  run _ call := .error (.gitCommand ⟨call.args, none, []⟩)
  stream _ call := ⟨[], some (.gitCommand ⟨call.args, none, []⟩)⟩
  available := false

def main (words : List String) : IO UInt32 := do
  let env ← readEnvironment
  let home := (← IO.getEnv "HOME").getD "/"
  let session : Session :=
    { terminal := .ofEnvironment env (← (← IO.getStdout).isTty)
      settings := Settings.load home.toList env }
  let request := Request.ofWords (words.map String.toList)
  let here := Path.resolve [] (← IO.currentDir).toString.toList
  let disk ← match request with
    | .run _ options => (locationsOf options).foldlM addRepository (Disk.empty here)
    | _ => pure (Disk.empty here)
  match ((perform session request).run { git := noGit, disk, stamp := [] }).1 with
  | .ok outcome =>
    let told := outcome.final
    IO.print (String.ofList told.out)
    IO.eprint (String.ofList told.err)
    return (outcome.exitCode?.getD 0).toUInt32
  | .error e =>
    IO.eprintln (String.ofList e.message)
    return 1
