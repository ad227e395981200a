import PackageHistory.Change
import PackageHistory.Log.Format
import PackageHistory.World

/-!
# Reading a log line by line

The reader is a state that every line changes, so a log that comes in pieces is read like one that
comes whole. A commit is handed out when the next begin marker or the end closes its file section.
-/

namespace PackageHistory.Log

/-! ## The state -/

/-- Where in a log a reader stands. -/
inductive Position where
  /-- Before the first commit. -/
  | seeking
  /-- In a header, with fewer than four lines read. -/
  | header (lines : List Text)
  | message (header : List Text) (lines : List Text)
  | files (commit : Commit) (lines : List Text)
  deriving DecidableEq, Repr

structure Reader where
  /-- The commits whose file sections are closed. -/
  closed : List LogEntry
  position : Position
  deriving DecidableEq, Repr

/-- One blank line at the end of a message does not belong to it. -/
def dropLastBlank (lines : List Text) : List Text :=
  if lines.getLast? = some [] then lines.dropLast else lines

/-- The commit of a header and a message; header lines that are missing are empty. -/
def commitOf (header message : List Text) : Commit :=
  let line (i : Nat) : Text := ((header[i]?).getD []).trim
  ⟨line 0, line 1, line 2, line 3, dropLastBlank message⟩

namespace Reader

def start : Reader := ⟨[], .seeking⟩

/-- The entry of a commit, at the place it is closed at. -/
def close (r : Reader) (commit : Commit) (lines : List Text) : List LogEntry :=
  r.closed ++ [⟨commit, r.closed.length, lines⟩]

def feed (r : Reader) (line : Text) : Reader :=
  match r.position with
  | .seeking => if line = beginMarker then { r with position := .header [] } else r
  | .header lines =>
    let lines := lines ++ [line]
    { r with position := if lines.length < 4 then .header lines else .message lines [] }
  | .message header lines =>
    if line = messageEnd then { r with position := .files (commitOf header lines) [] }
    else { r with position := .message header (lines ++ [line]) }
  | .files commit lines =>
    if line = beginMarker then ⟨r.close commit lines, .header []⟩
    else if line.trim.isEmpty then r
    else { r with position := .files commit (lines ++ [line.trim]) }

def feedAll (r : Reader) (lines : List Text) : Reader := lines.foldl feed r

theorem feedAll_append (r : Reader) (s t : List Text) :
    r.feedAll (s ++ t) = (r.feedAll s).feedAll t := List.foldl_append

/-- What the end of the log closes: the last commit, unless its message is unfinished; then the
hash of that commit. -/
def finish (r : Reader) : List LogEntry × Option Text :=
  match r.position with
  | .seeking => (r.closed, none)
  | .header lines => (r.closed, some (commitOf lines []).hash)
  | .message header _ => (r.closed, some (commitOf header []).hash)
  | .files commit lines => (r.close commit lines, none)

end Reader

/-! ## Readings -/

/-- Items in order, then perhaps a failure. A warning is told when git failed before it said
anything; then there are no items and no failure. -/
structure Reading (α : Type) where
  items : List α
  failure : Option Failure
  warning : Option Text

namespace Reading

def map {α β : Type} (f : α → β) (r : Reading α) : Reading β := { r with items := r.items.map f }

def flatMap {α β : Type} (f : α → List β) (r : Reading α) : Reading β :=
  { r with items := r.items.flatMap f }

/-- What a consumer sees that stops after some items: later failures do not show, and one that wants
nothing does not begin to read. -/
def take {α : Type} (n : Nat) (r : Reading α) : Reading α :=
  if n = 0 then ⟨[], none, none⟩
  else if n ≤ r.items.length then { r with items := r.items.take n, failure := none }
  else r

end Reading

/-- The entries of a source of lines. A source that fails closes no commit. -/
def entriesOf (source : LineSource) : Reading LogEntry :=
  let r := Reader.start.feedAll source.lines
  match source.failure with
  | none =>
    match r.finish with
    | (entries, none) => ⟨entries, none, none⟩
    | (entries, some hash) => ⟨entries, some (.truncatedLog hash), none⟩
  | some (.gitCommand e) =>
    if source.lines.isEmpty then ⟨[], none, some e.diagnostic⟩
    else ⟨r.closed, some (.gitCommand e), none⟩
  | some e => ⟨r.closed, some e, none⟩

/-- Runs git for the entries of a range. -/
def entries (location range : Text) : Action (Reading LogEntry) := do
  return entriesOf (← Action.streamGit (args range) location)

end PackageHistory.Log
