import PackageHistory.Cache.Store
import PackageHistory.History.Merge

/-!
# Bringing a cache up to date

A refresh reads only the commits added since the cached head. When their log cannot be read whole
the cache stays as it is.
-/

namespace PackageHistory.Cache

/-- A cache of the history of one repository. -/
structure Spot where
  /-- Where git runs. -/
  location : Text
  file : Text
  /-- The ref whose history is cached. -/
  publishedRef : Text := "origin/HEAD".toList
  schemaVersion : Number := currentVersion

namespace Spot

/-- The commit that a ref stands for. -/
def resolveCommit (spot : Spot) (ref : Text) : Action Text := do
  match ← (Action.runGit ["rev-parse".toList, ref] spot.location).attempt with
  | .ok output =>
    let hash := output.trim
    if hash.isEmpty then Action.fail (.gitRef ref spot.location) else return hash
  | .error (.gitCommand _) => Action.fail (.gitRef ref spot.location)
  | .error e => Action.fail e

/-- Merges a range of commits into a history. When git fails before it says anything the history
comes back as it was, with a warning. -/
def update (spot : Spot) (range : Text) (h : History) (isLocal : Bool := false) :
    Action (History × Option Text) := do
  let log ← Log.entries spot.location range
  match log.failure with
  | some e => Action.fail e
  | none => return (h.merge isLocal log.items, log.warning)

structure Refreshed where
  entry : Entry
  /-- Whether history was merged and written. -/
  updated : Bool

/-- The commits that are not in the cache. -/
def missingRange (cached : Option Entry) (head : Text) : Text :=
  match cached with
  | some e => e.head ++ "..".toList ++ head
  | none => head

/-- The history with the missing commits; none when their log could not be read. -/
def mergeMissing (spot : Spot) (cached : Option Entry) (head : Text) : Action (Option History) := do
  let h := match cached with
    | some e => e.history
    | none => .empty
  match ← (spot.update (missingRange cached head) h).attempt with
  | .ok (merged, none) => return some merged
  | .ok (_, some _) => return none
  | .error (.gitCommand _) => return none
  | .error (.truncatedLog _) => return none
  | .error e => Action.fail e

/-- Brings the cache to the head of its ref. Without a cache, or when it is to be built anew, the
whole history is read. None when no history can be had. -/
def refresh (spot : Spot) (anew : Bool := false) : Action (Option Refreshed) := do
  let head ← spot.resolveCommit spot.publishedRef
  let cached ← if anew then pure none else load spot.file spot.schemaVersion
  let unchanged : Option Refreshed := cached.map fun e => ⟨e, false⟩
  if cached.any (·.head = head) then return unchanged
  match ← spot.mergeMissing cached head with
  | none => return unchanged
  | some history =>
    let entry : Entry := ⟨spot.schemaVersion, head, history⟩
    save spot.file entry
    return some ⟨entry, true⟩

end Spot

end PackageHistory.Cache
