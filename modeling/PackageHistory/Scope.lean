import PackageHistory.Atom
import PackageHistory.Repository

/-! # The scope of a scan: packages and eclasses that changed relative to a ref -/

namespace PackageHistory

structure ScopeTargets where
  /-- Changed packages without versions, ascending. -/
  packages : List Atom
  /-- Changed eclass names, ascending. -/
  eclasses : List Text
  deriving DecidableEq, Repr

inductive Scope where
  | empty (ref : Text)
  | changed (ref : Text) (targets : ScopeTargets)
  deriving DecidableEq, Repr

namespace Scope

def ref : Scope → Text
  | empty ref => ref
  | changed ref _ => ref

/-! ## Restrictions -/

/-- What a scan is restricted to. -/
inductive Restriction where
  | packages (atoms : List Atom)
  | eclasses (names : List Text)
  deriving DecidableEq, Repr

def admitsPackage (atoms : List Atom) (c : Cpv) : Bool := atoms.any (·.isMatch c)

def admitsEclass (names : List Text) (name : Text) : Bool := names.contains name

def restrictions : Scope → List Restriction
  | empty _ => []
  | changed _ targets =>
    (if targets.packages.isEmpty then [] else [.packages targets.packages])
      ++ if targets.eclasses.isEmpty then [] else [.eclasses targets.eclasses]

/-! ## From paths to targets -/

/-- The atom of the first two segments of a path. -/
def atomOf? (path : Text) : Option Atom :=
  Atom.parse? (Text.join ['/'] ((path.splitOn '/').take 2))

/-- The packages that paths lie in, each once; of paths with the same package the last one
counts. -/
def packageAtoms (paths : List Text) : List Atom :=
  let atoms := paths.filterMap atomOf?
  let byKey : OrderedMap Text Atom := .ofList (atoms.map fun a => (a.key, a))
  (byKey.entries.map Prod.snd).mergeSort fun a b => Text.le a.key b.key

def eclassFolder : Text := "eclass/".toList

/-- The name in `eclass/name.eclass`; it has no white space. -/
def eclassOf? (path : Text) : Option Text := do
  let file ← Text.stripStart? eclassFolder path
  let name ← Text.stripEnd? ".eclass".toList file
  if name.isEmpty || name.any isBlank then none else return name

def eclassNames (paths : List Text) : List Text := Text.sortDistinct (paths.filterMap eclassOf?)

/-- The targets among changed paths; a path below the eclass folder stands for no package. -/
def targetsOf (paths : List Text) : ScopeTargets :=
  let isEclass (path : Text) : Bool := eclassFolder.isPrefixOf path
  { packages := packageAtoms (paths.filter fun path => !isEclass path)
    eclasses := eclassNames (paths.filter isEclass) }

/-- The scope of what a comparison with a ref printed. -/
def ofDiff (ref output : Text) : Scope :=
  let targets := targetsOf output.filledLines
  if targets.packages.isEmpty && targets.eclasses.isEmpty then .empty ref
  else .changed ref targets

/-! ## Asking git -/

def hasEclasses (location : Text) : Action Bool := do
  match ← (Action.look (·.inspect (Path.join [location, "eclass".toList]))).attempt with
  | .ok (.folder _) => return true
  | .ok (.file _ _) => return false
  | .error (.disk ⟨.noEntry, _⟩) => return false
  | .error e => Action.fail e

/-- The command that names the paths changed in the index, below some folders if any are given. -/
def diffArgs (ref : Text) (targets : List Text) : List Text :=
  ["diff".toList, "--cached".toList, ref, "--name-only".toList, "--".toList] ++ targets

/-- Compares the index with a ref, within the categories of the repository and its eclasses. -/
def resolve (repo : Repository) (ref : Text) : Action Scope := do
  if !(← Action.gitAvailable) then
    Action.fail (.gitUnavailable "determine targets for --commits".toList)
  let categories := repo.categories.mergeSort Text.le
  let targets := if ← hasEclasses repo.location then categories ++ ["eclass".toList]
    else categories
  match ← (Action.runGit (diffArgs ref targets) repo.location).attempt with
  | .ok output => return ofDiff ref output
  | .error (.gitCommand e) => Action.fail (.scopeResolution ref e.diagnostic)
  | .error e => Action.fail e

def defaultRef : Text := "origin".toList

end Scope

end PackageHistory
