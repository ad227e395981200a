import PackageHistory.CommandLine.Spec
import PackageHistory.Options
import PackageHistory.Report.Basic
import PackageHistory.Shelf.Run
import PackageHistory.Tracker

/-!
# What the commands do

A command checks its options before it does anything else. What it tells it tells at its end; a
failure is told in place of a result, or after it when changes could not be restored.
-/

namespace PackageHistory.CommandLine

/-! ## Telling -/

structure Told where
  out : Text := []
  err : Text := []
  /-- Whether the program is to end with a failure. -/
  failed : Bool := false
  deriving DecidableEq, Repr

/-- What commands are run with. Settings that cannot be loaded matter only to a command that needs
them. -/
structure Session where
  terminal : Terminal
  settings : Except Failure Settings

namespace Told

def line (t : Text) : Text := t ++ ['\n']

def result (t : Text) : Told := { out := line t }

/-- A result as JSON or in words, as was asked. -/
def either (o : RepositoryOptions) (json : Json) (words : Text) : Told :=
  result (if o.json then json.indented else words)

def warning (terminal : Terminal) (message : String) : Told :=
  { err := line (terminal.warning message.toList) }

def error (terminal : Terminal) (message : Text) : Told :=
  { err := line (terminal.error message), failed := true }

/-- Tells a failure, and what the user has to do after it. -/
def andFailure (told : Told) (terminal : Terminal) (e : Failure) : Told :=
  let advice := match e with
    | .shelf e => line (terminal.dim e.remediation)
    | _ => []
  { told with err := told.err ++ line (terminal.error e.message) ++ advice, failed := true }

def refusals (terminal : Terminal) (found : List Finding) : Told :=
  { err := line (Report.refusals terminal (found.map Report.findingTexts)), failed := true }

end Told

/-! ## Commands -/

/-- Loads a repository and those it inherits from. -/
def openRepository (o : RepositoryOptions) : Action Repository := do
  let masters ← o.masters.mapM fun location => Repository.load location []
  Repository.load o.repo masters

namespace Session

def tracker (s : Session) (target : Repository) : Action Tracker := do
  return { target, settings := ← Action.ofExcept id s.settings }

def refresh (s : Session) (o : RefreshOptions) : Action Told := do
  let repo ← openRepository o.toRepositoryOptions
  match ← (← s.tracker repo).checkEnabled with
  | (_, false) => return .warning s.terminal "git history support is disabled"
  | (t, true) =>
    match ← t.update o.force with
    | (_, .error e) => Action.fail e
    | (t, .ok ()) =>
      let summaries ← repo.trees.mapM fun tree => do
        return Report.CacheSummary.of tree (← t.entryOf tree)
      return .either o.toRepositoryOptions (Report.cachesJson summaries)
        (Report.caches s.terminal summaries)

/-- Packages as they were asked for. -/
def tellPackages (s : Session) (o : RepositoryOptions) (ps : List HistoricalPackage) : Told :=
  .either o (Report.packagesJson ps) (Report.packages s.terminal ps)

/-- Answers a query over the published history. -/
def answer (s : Session) (o : HistoryOptions) (q : Query) : Action Told := do
  let repo ← openRepository o.toRepositoryOptions
  match ← (← s.tracker repo).update false with
  | (_, .error e) => Action.fail e
  | (t, .ok ()) =>
    match ← t.published o.view.name repo with
    | none => return .error s.terminal ("no git history available for ".toList ++ repo.id)
    | some history =>
      return s.tellPackages o.toRepositoryOptions (← Action.ofExcept id (history.query q))

/-- An atom is read before anything is looked at. -/
def history (s : Session) (o : HistoryOptions) : Action Told :=
  let q : Query := { category := o.category, package := o.package, sort := o.sort }
  match o.atom with
  | none => s.answer o q
  | some t =>
    match Atom.parse? t with
    | none => return .error s.terminal ("invalid atom: ".toList ++ t)
    | some atom => s.answer o { q with atom := some atom }

def commits (s : Session) (o : CommitsOptions) : Action Told := do
  let repo ← openRepository o.toRepositoryOptions
  let t ← s.tracker repo
  match o.view with
  | some view =>
    let (_, read) ← t.localHistory repo
    let changes : HistoryRepo := ⟨repo.id, view.name, ← Action.ofExcept id read⟩
    return s.tellPackages o.toRepositoryOptions
      (← Action.ofExcept id (changes.query { sort := .commit }))
  | none =>
    let (_, reading) ← t.localCommits repo
    match reading.failure with
    | some e => Action.fail e
    | none =>
      return .either o.toRepositoryOptions (Report.commitsJson reading.items)
        (Report.commits s.terminal reading.items)

/-- A scope as it was asked for; an empty one has nothing to say in words. -/
def tellScope (s : Session) (o : ScopeOptions) (scope : Scope) : Told :=
  if o.json then .result (Report.scopeJson scope).indented
  else match scope with
    | .empty _ => {}
    | .changed _ _ => .result (Report.scope s.terminal scope)

/-- Tells the scope, with changes shelved if that was asked for and there is a scope. The comparison
reads the index, so it is made before anything is shelved. -/
def scope (s : Session) (o : ScopeOptions) : Action Told := do
  let settings ← Action.ofExcept id s.settings
  let repo ← openRepository o.toRepositoryOptions
  let scope ← Scope.resolve repo (o.ref.getD settings.scopeRef)
  let told := s.tellScope o scope
  match o.stash, scope with
  | true, .changed _ _ =>
    let guard : Shelf.Guard := { location := repo.location, label := settings.stashLabel }
    let scan (_ : Shelf.Run Unit) : Action (Shelf.Scanned Unit) := return { outcome := .ok () }
    match (← Shelf.withGuard guard Shelf.defaultSignals scan).result? with
    | some (.error e) => return told.andFailure s.terminal e
    | _ => return told
  | _, _ => return told

/-- Runs a command on options that pass their check. -/
def checked {α : Type} (s : Session) (options : Checked α) (run : α → Action Told) :
    Action Told := do
  match options with
  | .error found => return .refusals s.terminal found
  | .ok o =>
    match ← (run o).attempt with
    | .ok told => return told
    | .error e => return ({} : Told).andFailure s.terminal e

def runCommand (s : Session) (c : Command) (options : Json) : Action Told :=
  match c with
  | .refresh => s.checked (RefreshOptions.check options) s.refresh
  | .history => s.checked (HistoryOptions.check options) s.history
  | .commits => s.checked (CommitsOptions.check options) s.commits
  | .scope => s.checked (ScopeOptions.check options) s.scope

end Session

end PackageHistory.CommandLine
