import PackageHistory.Failure
import PackageHistory.History.Basic
import PackageHistory.ReservedName

/-! # Views: which records of a package are shown -/

namespace PackageHistory

inductive View where
  /-- Every recorded change. -/
  | changed
  /-- Versions added, renamed or modified. -/
  | modified
  /-- Versions added or renamed. -/
  | added
  /-- Versions whose latest recorded change is a removal. -/
  | removed
  deriving DecidableEq, Repr

namespace View

def all : List View := [changed, modified, added, removed]

def name : View → Text
  | changed => "changed".toList
  | modified => "modified".toList
  | added => "added".toList
  | removed => "removed".toList

def ofName? (t : Text) : Option View := all.find? fun v => v.name = t

def statuses : View → List Status
  | changed => [.added, .renamed, .modified, .deleted]
  | modified => [.added, .renamed, .modified]
  | added => [.added, .renamed]
  | removed => [.deleted]

/-- Whether only the latest record of each version is looked at. -/
def latestOnly (v : View) : Bool := v = removed

/-! ## Records of one package -/

/-- Every record with its status, in stored order. -/
def flatten (statuses : OrderedMap Status (List Record)) : List (Status × Record) :=
  statuses.entries.flatMap fun e => e.2.map fun r => (e.1, r)

/-- Takes a record for the latest of its version when its ordinal is greater. -/
def keepLatest (latest : OrderedMap Text (Status × Record)) (x : Status × Record) :
    OrderedMap Text (Status × Record) :=
  latest.alter x.2.version fun
    | none => x
    | some current => if current.2.seq < x.2.seq then x else current

/-- The latest record of each version; of equal ordinals the first one stays. -/
def latestRecords (records : List (Status × Record)) : List (Status × Record) :=
  (records.foldl keepLatest .empty).entries.map Prod.snd

/-- The records of a package that a view shows. -/
def select (v : View) (statuses : OrderedMap Status (List Record)) : List (Status × Record) :=
  let records := flatten statuses
  (if v.latestOnly then latestRecords records else records).filter fun x =>
    v.statuses.contains x.1

end View

/-! ## Names of views -/

/-- What a view name stands for. Reserved names pass for view names but stand for no filter. -/
inductive Selector where
  | view (v : View)
  | reserved
  | unknown
  deriving DecidableEq, Repr

namespace Selector

def ofName (t : Text) : Selector :=
  match View.ofName? t with
  | some v => .view v
  | none => if reservedNames.contains t then .reserved else .unknown

/-- Whether a name passes for the name of a view. -/
def accepts (t : Text) : Bool := ofName t != .unknown

/-- Why records of a package cannot be selected. A reserved name fails at the first status, an
unknown one at the package already. -/
def failure? (s : Selector) (statuses : OrderedMap Status (List Record)) : Option Failure :=
  match s with
  | .view _ => none
  | .reserved => if statuses.isEmpty then none else some (.missing "has".toList)
  | .unknown => some (.missing "latestOnly".toList)

end Selector

end PackageHistory
