import PackageHistory.World

/-! # Repositories of ebuilds, and the repositories they inherit from -/

namespace PackageHistory

structure Repository where
  id : Text
  location : Text
  categories : List Text
  /-- The repositories this one inherits from, the most important first. -/
  masters : List Repository
  deriving Inhabited

namespace Repository

/-! ## Loading -/

/-- Top-level folders that never hold packages. -/
def otherFolders : List Text :=
  ["eclass".toList, "licenses".toList, "metadata".toList, "profiles".toList, "scripts".toList,
    "distfiles".toList, "packages".toList]

/-- The filled lines of a profile file that are not comments; none when there is no such file. -/
def readProfile (path : Text) : Action (Option (List Text)) := do
  match ← (Action.look (·.read path)).attempt with
  | .ok content => return some (content.filledLines.filter (·.head? ≠ some '#'))
  | .error (.disk ⟨.noEntry, _⟩) => return none
  | .error e => Action.fail e

/-- The top-level folders that may be categories. -/
def scanCategories (location : Text) : Action (List Text) := do
  let nodes ← Action.look (·.list location)
  return nodes.filterMap fun (name, node) =>
    match node with
    | .folder _ =>
      if name.head? ≠ some '.' && !otherFolders.contains name && isCategory name then some name
      else none
    | .file _ _ => none

/-- The profile names the repository and its categories. Without a name the folder's own name
stands, without categories the top-level folders do. -/
def load (location : Text) (masters : List Repository) : Action Repository := do
  let root ← Action.resolve location
  let name ← readProfile (Path.join [root.text, "profiles".toList, "repo_name".toList])
  let listed ← readProfile (Path.join [root.text, "profiles".toList, "categories".toList])
  let categories ← match listed with
    | some categories => pure categories
    | none => scanCategories root.text
  return {
    id := (name.bind List.head?).getD root.baseName
    location := root.text
    categories := Text.sortDistinct categories
    masters }

/-! ## All trees -/

mutual

/-- Adds a repository behind its masters, unless its location is there already. -/
def visit (seen : List Repository) : Repository → List Repository
  | ⟨id, location, categories, masters⟩ =>
    let seen := visitAll seen masters
    if seen.any (·.location = location) then seen
    else seen ++ [⟨id, location, categories, masters⟩]

def visitAll (seen : List Repository) : List Repository → List Repository
  | [] => seen
  | r :: rest => visitAll (visit seen r) rest

end

/-- Every repository that makes up this one, masters first, itself last. -/
def trees (r : Repository) : List Repository := visit [] r

end Repository

end PackageHistory
