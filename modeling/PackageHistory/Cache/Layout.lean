import PackageHistory.History.Basic
import PackageHistory.Issue

/-!
# How a history is stored

An object names the schema version, the head commit, the number of commits and, by category,
package and status, lists of records, each with its version, date, commit hash and ordinal.
-/

namespace PackageHistory.Cache

/-- A history, the commit it was merged up to and the schema version it is stored under. -/
structure Entry where
  schemaVersion : Number
  head : Text
  history : History
  deriving DecidableEq

/-- The name that an object cannot hold as a member of its own. -/
def lostName : Text := "__proto__".toList

/-! ## Writing -/

def encodeRecord (r : Record) : Json :=
  .array [.string r.version, .string r.date, .string r.commit.hashOf, .number r.seq]

/-- Members in the order in which an object goes through them; one name is lost. -/
def encodeMembers {α : Type} (f : α → Json) (m : OrderedMap Text α) : Json :=
  .object <| Json.memberOrder <| (m.entries.filter (·.1 ≠ lostName)).map fun e => (e.1, f e.2)

def encodeStatuses (statuses : OrderedMap Status (List Record)) : Json :=
  .object <| statuses.entries.map fun e => (e.1.text, .array (e.2.map encodeRecord))

def encodeTree (t : Tree Record) : Json :=
  encodeMembers (encodeMembers encodeStatuses) t

def encode (e : Entry) : Json :=
  .object [("schemaVersion".toList, .number e.schemaVersion),
    ("headCommitHash".toList, .string e.head),
    ("commitCount".toList, .number e.history.commitCount),
    ("data".toList, encodeTree e.history.records)]

/-! ## Reading -/

/-- A value that may be missing, which is an issue of its own. -/
def present (v : Option Json) : Except Issue Json :=
  match v with
  | some v => .ok v
  | none => .error .required

def decodeText (v : Json) : Except Issue Text :=
  match v with
  | .string s => .ok s
  | v => .error (.ofType "string".toList v)

def decodeFilledText (v : Json) : Except Issue Text := do
  let s ← decodeText v
  if s.isEmpty then .error .emptyText else .ok s

def decodeInt (v : Json) : Except Issue Int :=
  match v with
  | .number (.integer n) => .ok n
  | .number _ => .error .notInteger
  | v => .error (.ofType "number".toList v)

/-- A whole number that is not negative. -/
def decodeCount (v : Json) : Except Issue Int := do
  let n ← decodeInt v
  if n < 0 then .error .negative else .ok n

def decodeList {α : Type} (f : Json → Except Issue α) (v : Json) : Except Issue (List α) :=
  match v with
  | .array elements => elements.mapM f
  | v => .error (.ofType "array".toList v)

/-- A record; how many elements it has is looked at before the elements are. -/
def decodeRecord (v : Json) : Except Issue Record :=
  match v with
  | .array [version, date, hash, seq] => do
    let version ← decodeText version
    let date ← decodeText date
    let hash ← decodeText hash
    let seq ← decodeCount seq
    return { version, date, seq := .integer seq, commit := .hash hash, extra := none }
  | .array elements => .error (if elements.length < 4 then .tooFew 4 else .tooMany 4)
  | v => .error (.ofType "array".toList v)

/-- Every member of an object in turn. -/
def decodeMembers {α : Type} (f : Json → Except Issue α) (v : Json) :
    Except Issue (List (Text × α)) :=
  match v with
  | .object members => members.mapM fun m => (f m.2).map fun a => (m.1, a)
  | v => .error (.ofType "object".toList v)

/-- The order in which statuses are read. -/
def storedStatuses : List Status := [.added, .deleted, .modified, .renamed]

/-- The lists of a package; after them, members that are no status are an issue. -/
def decodeStatuses (v : Json) : Except Issue (List (Status × List Record)) :=
  match v with
  | .object members => do
    let lists ← storedStatuses.mapM fun s =>
      match Entries.lookup s.text members with
      | none => .ok (s, [])
      | some list => (decodeList decodeRecord list).map fun records => (s, records)
    let unknown := (members.map Prod.fst).filter fun name => (Status.ofText? name).isNone
    if unknown.isEmpty then .ok lists else .error (.unknownMembers unknown)
  | v => .error (.ofType "object".toList v)

/-- The tree of stored lists. Places without records are left out, and so is the lost name. -/
def treeOf (stored : List (Text × List (Text × List (Status × List Record)))) : Tree Record :=
  stored.foldl (fun t (category, packages) =>
    if category = lostName then t
    else packages.foldl (fun t (package, statuses) =>
      if package = lostName then t
      else statuses.foldl (fun t (status, records) =>
        records.foldl (fun t r => t.append category package status r) t) t) t) .empty

def decode (v : Json) : Except Issue Entry := do
  let schemaVersion ← decodeInt (← present (v.member? "schemaVersion".toList))
  let head ← decodeFilledText (← present (v.member? "headCommitHash".toList))
  let commitCount ← decodeCount (← present (v.member? "commitCount".toList))
  let stored ← decodeMembers (decodeMembers decodeStatuses)
    (← present (v.member? "data".toList))
  return { schemaVersion := .integer schemaVersion, head
           history := { commitCount := .integer commitCount, records := treeOf stored } }

end PackageHistory.Cache
