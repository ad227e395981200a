import PackageHistory.Failure
import PackageHistory.Json.Printer

/-!
# Settings

Settings come from the environment. A variable that is not set leaves the default, one set to
something else than a setting allows is an issue, and all issues are told together.
-/

namespace PackageHistory

/-- The variables that are set. -/
abbrev Environment := OrderedMap Text Text

structure Settings where
  /-- The folder of all caches. -/
  cacheDir : Text
  gitEnabled : Bool := true
  /-- The published state whose history is cached. -/
  publishedRef : Text := "origin/HEAD".toList
  /-- The branch of the commits that are not published yet. -/
  localRef : Text := "master".toList
  /-- What the targets of a scan are compared with. -/
  scopeRef : Text := "origin".toList
  /-- The message of stash entries. -/
  stashLabel : Text := "ebuild-history scan --commits".toList
  deriving DecidableEq, Repr

namespace Settings

/-! ## Reading -/

inductive Key where
  | cacheDir | gitEnabled | publishedRef | localRef | scopeRef | stashLabel
  deriving DecidableEq, Repr

namespace Key

def name : Key → Text
  | cacheDir => "cacheDir".toList
  | gitEnabled => "gitEnabled".toList
  | publishedRef => "upstreamRef".toList
  | localRef => "localRef".toList
  | scopeRef => "scopeRef".toList
  | stashLabel => "stashLabel".toList

def variableName : Key → Text
  | cacheDir => "EBUILD_HISTORY_CACHE_DIR".toList
  | gitEnabled => "EBUILD_HISTORY_GIT_ENABLED".toList
  | publishedRef => "EBUILD_HISTORY_UPSTREAM_REF".toList
  | localRef => "EBUILD_HISTORY_LOCAL_REF".toList
  | scopeRef => "EBUILD_HISTORY_SCOPE_REF".toList
  | stashLabel => "EBUILD_HISTORY_STASH_LABEL".toList

end Key

/-- The words of a switch. -/
def switchWords : List Text := ["true".toList, "false".toList, "1".toList, "0".toList]

/-- Why a value cannot be the value of a setting. -/
def issue? : Key → Text → Option Issue
  | .gitEnabled, t => if switchWords.contains t then none else some (.notAmong switchWords t)
  | _, t => if t.isEmpty then some .emptyText else none

def set (s : Settings) : Key → Text → Settings
  | .cacheDir, t => { s with cacheDir := t }
  | .gitEnabled, t => { s with gitEnabled := t = "true".toList || t = "1".toList }
  | .publishedRef, t => { s with publishedRef := t }
  | .localRef, t => { s with localRef := t }
  | .scopeRef, t => { s with scopeRef := t }
  | .stashLabel, t => { s with stashLabel := t }

/-- All settings, in the order in which they are read. -/
def keys : List Key :=
  [.cacheDir, .gitEnabled, .publishedRef, .localRef, .scopeRef, .stashLabel]

/-- The settings of a user who has set nothing. -/
def defaults (home : Text) : Settings where
  cacheDir := Path.join [home, ".cache".toList, "ebuild-history".toList]

/-- The settings that the environment names, with their values. -/
def given (env : Environment) : List (Key × Text) :=
  keys.filterMap fun k => (env.get? k.variableName).map fun t => (k, t)

def issues (env : Environment) : List (Key × Issue) :=
  (given env).filterMap fun (k, t) => (issue? k t).map fun i => (k, i)

/-! ## Telling what is wrong -/

/-- The details of an issue of a setting. -/
def describe : Key × Issue → Json
  | (k, i) =>
    let path := ("path".toList, Json.array [.string k.name])
    let message := ("message".toList, Json.string i.message)
    match i with
    | .notAmong words received =>
      .object [("received".toList, .string received),
        ("code".toList, .string "invalid_enum_value".toList),
        ("options".toList, .array (words.map .string)), path, message]
    | .emptyText =>
      .object [("code".toList, .string "too_small".toList), ("minimum".toList, .ofNat 1),
        ("type".toList, .string "string".toList), ("inclusive".toList, .bool true),
        ("exact".toList, .bool false), message, path]
    | _ => .object [message, path]

def failure (found : List (Key × Issue)) : Failure :=
  .other <| "Configuration validation failed: ".toList
    ++ (Json.array (found.map describe)).indented

def load (home : Text) (env : Environment) : Except Failure Settings :=
  match issues env with
  | [] => .ok ((given env).foldl (fun s e => s.set e.1 e.2) (defaults home))
  | found => .error (failure found)

/-! ## Settings that are loaded once -/

/-- The settings that are loaded already, else those of the environment. Settings that cannot be
loaded are tried again the next time. -/
def loadOnce (home : Text) (env : Environment) (loaded : Option Settings) :
    Except Failure Settings × Option Settings :=
  match loaded with
  | some s => (.ok s, loaded)
  | none =>
    match load home env with
    | .ok s => (.ok s, some s)
    | .error e => (.error e, none)

end Settings

end PackageHistory
