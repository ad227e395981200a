import PackageHistory.Text.Blank

/-! # Commits and what they do to files -/

namespace PackageHistory

structure Commit where
  /-- The abbreviated hash. -/
  hash : Text
  /-- The commit date, `YYYY-MM-DD`. -/
  date : Text
  /-- Name and address. -/
  author : Text
  /-- Name and address. -/
  committer : Text
  /-- The lines of the message, without a blank one at the end. -/
  message : List Text
  deriving DecidableEq, Repr

/-- Commits are the same when their hashes are. -/
def Commit.isSame (a b : Commit) : Bool := a.hash = b.hash

/-- What happened to a file. -/
inductive Status where
  | added | renamed | modified | deleted
  deriving DecidableEq, Repr

namespace Status

def all : List Status := [added, renamed, modified, deleted]

def letter : Status → Char
  | added => 'A'
  | renamed => 'R'
  | modified => 'M'
  | deleted => 'D'

def text (s : Status) : Text := [s.letter]

theorem text_injective {s t : Status} (h : s.text = t.text) : s = t := by
  cases s <;> cases t <;> first | rfl | cases h

def ofText? (t : Text) : Option Status := all.find? fun s => s.text = t

theorem ofText?_eq_some_iff {t : Text} {s : Status} : ofText? t = some s ↔ s.text = t := by
  constructor
  · intro h; simpa using List.find?_some h
  · rintro rfl; cases s <;> decide

end Status

/-- A commit of a log, with the file lines that followed it. -/
structure LogEntry where
  commit : Commit
  /-- The place of the commit in its range, oldest first. -/
  index : Nat
  fileLines : List Text
  deriving DecidableEq, Repr

end PackageHistory
