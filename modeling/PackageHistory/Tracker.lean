import PackageHistory.Cache.Refresh
import PackageHistory.History.Repo
import PackageHistory.Ignore.Rules
import PackageHistory.Repository
import PackageHistory.Settings

/-!
# Tracking the history of a repository

A tracker keeps the cached histories of a repository and its masters up to date and answers for
them, for the commits that are not published yet and for the paths that git ignores. What it found
out once it remembers; operations give the tracker back also when they fail.
-/

namespace PackageHistory

/-! ## Loaded caches -/

/-- Where the cache of a repository is kept: its whole path is repeated below the cache folder. -/
def Cache.fileOf (cacheDir : Text) (location : Path) : Text :=
  let below := location.text.dropWhile fun c => c = '/' || c = '\\'
  Path.join [cacheDir, "repos".toList, below, fileName]

/-- Loaded caches by the location of their repository. -/
abbrev Registry := OrderedMap Path Cache.Entry

/-! ## The tracker -/

structure Tracker where
  target : Repository
  settings : Settings
  registry : Registry := .empty
  /-- Whether tracking is on, once that was asked. -/
  enabled : Option Bool := none
  /-- The rules of ignored paths, or why they could not be read, once they were needed. -/
  rules : Option (Except Failure Ignore.Rules) := none

namespace Tracker

/-- Tracking is on when it is enabled and git is there; git is looked for only once. -/
def checkEnabled (t : Tracker) : Action (Tracker × Bool) := do
  match t.enabled with
  | some b => return (t, b)
  | none =>
    let b ← if t.settings.gitEnabled then Action.gitAvailable else pure false
    return ({ t with enabled := some b }, b)

/-- The cache of one tree. -/
def spot (t : Tracker) (tree : Repository) : Action Cache.Spot := do
  return {
    location := tree.location
    file := Cache.fileOf t.settings.cacheDir (← Action.resolve tree.location)
    publishedRef := t.settings.publishedRef }

/-! ## Published history -/

/-- Refreshes the cache of one tree and registers it. A tree without the ref is passed over. -/
def refreshTree (t : Tracker) (anew : Bool) (tree : Repository) :
    Action (Tracker × Except Failure Unit) := do
  let spot ← t.spot tree
  match ← (spot.refresh anew).attempt with
  | .ok none => return (t, .ok ())
  | .ok (some refreshed) =>
    let root ← Action.resolve tree.location
    return ({ t with registry := t.registry.insert root refreshed.entry }, .ok ())
  | .error (.gitRef _ _) => return (t, .ok ())
  | .error e => return (t, .error e)

/-- Refreshes trees one after another up to the first failure. -/
def refreshTrees (anew : Bool) : Tracker → List Repository → Action (Tracker × Except Failure Unit)
  | t, [] => return (t, .ok ())
  | t, tree :: rest => do
    match ← t.refreshTree anew tree with
    | (t, .ok ()) => refreshTrees anew t rest
    | (t, .error e) => return (t, .error e)

/-- Refreshes the caches of the repository and its masters, if tracking is on. -/
def update (t : Tracker) (anew : Bool) : Action (Tracker × Except Failure Unit) := do
  match ← t.checkEnabled with
  | (t, false) => return (t, .ok ())
  | (t, true) => refreshTrees anew t t.target.trees

/-- The registered cache of a tree. -/
def entryOf (t : Tracker) (tree : Repository) : Action (Option Cache.Entry) := do
  return t.registry.get? (← Action.resolve tree.location)

/-- The histories of trees; none when one of them has no history. -/
def repoOf (t : Tracker) (viewName : Text) : List Repository → Action (Option (List HistoryRepo))
  | [] => return some []
  | tree :: rest => do
    match ← t.entryOf tree with
    | none => return none
    | some entry =>
      if entry.history.records.isEmpty then return none
      else
        let more ← t.repoOf viewName rest
        return more.map (⟨tree.id, viewName, entry.history⟩ :: ·)

/-- The published history of a repository and its masters. -/
def published (t : Tracker) (viewName : Text) (target : Repository) : Action (Option AnyRepo) := do
  return (← t.repoOf viewName target.trees).map fun
    | [r] => .single r
    | rs => .several rs

/-! ## Commits that are not published -/

/-- The range from the published state to the local branch; none when they agree or one of them
names no commit. -/
def localRange (t : Tracker) (spot : Cache.Spot) : Action (Option Text) := do
  let refs : Action (Text × Text) := do
    let published ← spot.resolveCommit t.settings.publishedRef
    let here ← spot.resolveCommit t.settings.localRef
    return (published, here)
  match ← refs.attempt with
  | .ok (published, here) =>
    return if published = here then none else some (published ++ "..".toList ++ here)
  | .error (.gitRef _ _) => return none
  | .error e => Action.fail e

/-- The history of the local commits of a repository; it is never stored. -/
def localHistory (t : Tracker) (target : Repository) :
    Action (Tracker × Except Failure History) := do
  match ← t.checkEnabled with
  | (t, false) => return (t, .ok .empty)
  | (t, true) =>
    let read : Action History := do
      let spot ← t.spot target
      match ← t.localRange spot with
      | none => return .empty
      | some range => return (← spot.update range .empty true).1
    return (t, ← read.attempt)

/-- The local commits of a repository, oldest first. -/
def localCommits (t : Tracker) (target : Repository) : Action (Tracker × Log.Reading Commit) := do
  match ← t.checkEnabled with
  | (t, false) => return (t, ⟨[], none, none⟩)
  | (t, true) =>
    let read : Action (Log.Reading Commit) := do
      match ← t.localRange (← t.spot target) with
      | none => return ⟨[], none, none⟩
      | some range => return (← Log.entries target.location range).map LogEntry.commit
    match ← read.attempt with
    | .ok reading => return (t, reading)
    | .error e => return (t, ⟨[], some e, none⟩)

/-! ## Ignored paths -/

/-- The path relative to the repository, when it leads below it. -/
def pathBelow? (cwd : Path) (location path : Text) : Option Text :=
  let relative :=
    if Path.isAbsolute path then Path.relative (Path.resolve cwd location) (Path.resolve cwd path)
    else path
  if relative.isEmpty || Path.dots.isPrefixOf relative || Path.isAbsolute relative then none
  else some relative

/-- The rules of a file, none when there is no such file. -/
def readRules (path : Text) : Action Ignore.Rules := do
  match ← (Action.look (·.read path)).attempt with
  | .ok content =>
    match Ignore.Rules.parse content with
    | .ok rules => return rules
    | .error e => Action.fail (.badPattern e)
  | .error (.disk ⟨.noEntry, _⟩) => return []
  | .error e => Action.fail e

/-- The rules that a repository shares, then those of this clone. -/
def loadRules (location : Text) : Action Ignore.Rules := do
  let shared ← readRules (Path.join [location, ".gitignore".toList])
  let own ← readRules (Path.join [location, ".git".toList, "info".toList, "exclude".toList])
  return shared ++ own

/-- The rules, read when they are first needed. -/
def rulesOnce (t : Tracker) : Action (Tracker × Except Failure Ignore.Rules) := do
  match t.rules with
  | some rules => return (t, rules)
  | none =>
    let rules ← (loadRules t.target.location).attempt
    return ({ t with rules := some rules }, rules)

/-- What the rules say of a path, which has to be relative to the repository. -/
def ask (t : Tracker) (relative : Text) : Action (Tracker × Except Failure Bool) := do
  match ← t.rulesOnce with
  | (t, .error e) => return (t, .error e)
  | (t, .ok rules) =>
    if Ignore.isNotRelative relative then return (t, .error (.notRelative relative))
    else return (t, .ok (rules.ignores relative))

/-- What an engine of rules says of a path; outside the repository it is not asked, and nothing is
ignored. -/
def isIgnoredBy (engine : Tracker → Text → Action (Tracker × Except Failure Bool)) (t : Tracker)
    (path : Text) : Action (Tracker × Except Failure Bool) := do
  let cwd ← Action.resolve []
  match pathBelow? cwd t.target.location path with
  | none => return (t, .ok false)
  | some relative => engine t relative

/-- Whether git ignores a path. -/
def isIgnored : Tracker → Text → Action (Tracker × Except Failure Bool) := isIgnoredBy ask

end Tracker

end PackageHistory
