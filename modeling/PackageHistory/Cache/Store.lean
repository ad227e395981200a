import PackageHistory.Cache.Layout
import PackageHistory.Json.Parser
import PackageHistory.Json.Printer
import PackageHistory.World

/-! # Caches as files -/

namespace PackageHistory.Cache

/-- The schema version of the layout. -/
def currentVersion : Number := 1

def fileName : Text := "git.json".toList

/-! ## Reading -/

/-- What the content of a cache file stands for. -/
def ofContent (path : Text) (expected : Number) (content : Text) : Except Failure Entry :=
  match Json.parse? content with
  | none => .error (.cacheCorrupt path .notJson)
  | some (.object members) =>
    let found := Entries.lookup "schemaVersion".toList members
    match found with
    | some (.number n) =>
      if n = expected then
        match decode (.object members) with
        | .ok entry => .ok entry
        | .error issue => .error (.cacheCorrupt path (.layout issue))
      else .error (.outdated path found expected)
    | _ => .error (.outdated path found expected)
  | some _ => .error (.cacheCorrupt path .noSchemaVersion)

/-- Reads a cache; none when there is no such file. -/
def read (path : Text) (expected : Number) : Action (Option Entry) := do
  match ← (Action.look (·.read path)).attempt with
  | .ok content => return some (← Action.ofExcept id (ofContent path expected content))
  | .error (.disk ⟨.noEntry, _⟩) => return none
  | .error (.disk e) => Action.fail (.cacheCorrupt path (.unreadable e))
  | .error e => Action.fail e

/-- Reads a cache, and removes it when it is of no use. -/
def load (path : Text) (expected : Number) : Action (Option Entry) := do
  match ← (read path expected).attempt with
  | .ok entry => return entry
  | .error e =>
    if e.isCacheInvalid then
      Action.edit (.remove path)
      return none
    else Action.fail e

/-! ## Writing -/

def content (e : Entry) : Text := (encode e).compact

/-- The file a cache is written to before it takes its place. -/
def tempPath (path stamp : Text) : Text := path ++ ".tmp.".toList ++ stamp

/-- Writes a cache beside its place and moves it there, so that readers see the old file or the
whole new one. When a step fails the file beside it is removed again. -/
def save (path : Text) (e : Entry) : Action Unit := do
  let temp := tempPath path (← Action.stamp)
  let steps : Action Unit := do
    Action.edit (.makeFolders (Path.parentText path))
    Action.edit (.write temp (content e))
    Action.edit (.rename temp path)
  match ← steps.attempt with
  | .ok () => return ()
  | .error failure =>
    Action.discard temp
    Action.fail <| .cachePersist path <| match failure with
      | .disk e => .disk e
      | e => .stated e.message

end PackageHistory.Cache
