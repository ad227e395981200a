import PackageHistory.History.Basic
import PackageHistory.Log.Reader

/-!
# Merging a range of commits

Of the changes of one version to one status only the latest in the range is recorded: it takes away
the record of an earlier one and comes at the end of the list. Records from before the range stay as
they are, also when they look the same, so records carry a mark while a range is merged.
-/

namespace PackageHistory

/-- A record of a list, and whether the range being merged put it there. -/
structure Marked where
  record : Record
  isNew : Bool
  deriving DecidableEq, Repr

namespace Marked

def old (r : Record) : Marked := ⟨r, false⟩
def new (r : Record) : Marked := ⟨r, true⟩

/-- Puts a new record at the end, in place of the new one of the same version if there is one. -/
def supersede (r : Record) (records : List Marked) : List Marked :=
  records.filter (fun m => !(m.isNew && m.record.version = r.version)) ++ [new r]

end Marked

namespace History

/-- The record of a change. Local ones keep the whole commit and the link of a rename. -/
def recordOf (isLocal : Bool) (seq : Number) (change : Change) : Record where
  version := change.cpv.fullver
  date := change.commit.date
  seq := seq
  commit := if isLocal then .full change.commit else .hash change.commit.hash
  extra := if isLocal then some (change.extra.getD []) else none

def mergeChange (isLocal : Bool) (seq : Number) (t : Tree Marked) (change : Change) : Tree Marked :=
  t.alter change.cpv.category change.cpv.package change.status
    (Marked.supersede (recordOf isLocal seq change))

/-- The ordinal of a commit of a range that is merged into `h`. -/
def seqOf (h : History) (index : Nat) : Number := h.commitCount.plus index

def mergeEntry (isLocal : Bool) (h : History) (t : Tree Marked) (entry : LogEntry) : Tree Marked :=
  (Change.ofEntry isLocal entry).foldl (mergeChange isLocal (h.seqOf entry.index)) t

/-- The history with the commits of a range added, oldest first. -/
def merge (isLocal : Bool) (h : History) (entries : List LogEntry) : History where
  commitCount := h.commitCount.plus entries.length
  records := (entries.foldl (mergeEntry isLocal h) (h.records.mapAll Marked.old)).mapAll
    Marked.record

end History

end PackageHistory
