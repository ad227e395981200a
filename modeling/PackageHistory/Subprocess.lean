import PackageHistory.Log.Reader
import PackageHistory.Subprocess.Refusal
import PackageHistory.Text.Units
import PackageHistory.Text.Utf8

/-!
# Git as a process

What a git process printed and how it ended, read in two ways: as a stream of lines, where any exit
code but zero is a failure, and as a whole, where only one with a complaint is.
-/

namespace PackageHistory

/-- The lines of an output. A line ends at a line feed, at a carriage return, or at both together;
the last line may lack its end. -/
def Text.outputLines : Text → List Text
  | [] => []
  | '\r' :: '\n' :: t => [] :: outputLines t
  | c :: t =>
    if c = '\n' || c = '\r' then [] :: outputLines t
    else match outputLines t with
      | [] => [[c]]
      | line :: more => (c :: line) :: more

/-- The lines of an output that have their end. -/
def Text.endedLines (t : Text) : List Text :=
  let isEnded := t.getLast?.all fun c => c = '\n' || c = '\r'
  if isEnded then t.outputLines else t.outputLines.dropLast

namespace Subprocess

/-! ## One process -/

inductive Child where
  | ended (stdout stderr : List UInt8) (code : Option Number)
  /-- The process never began. -/
  | notStarted (reason : Text)
  deriving DecidableEq, Repr

namespace Child

/-- What it prints, but for a character that breaks off at the end. -/
def told : Child → Text
  | ended stdout _ _ => Utf8.decode (Utf8.dropUnfinished stdout)
  | notStarted _ => []

/-- The lines it prints, then the failure. -/
def lines (args : List Text) (child : Child) : LineSource :=
  { lines := child.told.outputLines
    failure := match child with
      | ended _ stderr code =>
        if code = some 0 then none else some (.gitCommand ⟨args, code, Utf8.decode stderr⟩)
      | notStarted reason => some (.gitCommand ⟨args, none, reason⟩) }

/-- The lines that come while it still runs. A line without its end comes only when it has ended. -/
def earlyLines (child : Child) : List Text := child.told.endedLines

/-- A text of which every 16-bit unit was cut to its low byte before it was read again. -/
def readBack (t : Text) : Text := Utf8.decode (t.units.map (·.toUInt8))

/-- Why a process that is run as a whole has failed. An exit code without a complaint is none. -/
def complaint? : Child → Option Text
  | ended stdout stderr code =>
    if code.all (· = 0) || stderr.isEmpty then none else some (Utf8.decode (stdout ++ stderr))
  | notStarted reason =>
    some (readBack ("Error".toList ++ if reason.isEmpty then [] else ": ".toList ++ reason))

def output : Child → Text
  | ended stdout _ _ => Utf8.decode stdout
  | notStarted _ => []

end Child

/-! ## Processes one after another -/

structure Command where
  args : List Text
  cwd : Text
  deriving DecidableEq, Repr

/-- Starts processes and remembers what it did. -/
structure Host where
  /-- What becomes of the processes that are still to start. -/
  children : List Child
  spawned : List Command := []
  /-- The signals sent to processes whose output was not wanted any more. -/
  kills : List Text := []

namespace Host

/-- Starts the next process. -/
def spawn (h : Host) (c : Command) : Child × Host :=
  ((h.children.head?).getD (.ended [] [] (some 0)),
    { h with children := h.children.tail, spawned := h.spawned ++ [c] })

/-- Ends a process when its consumer stops before it has read all there is. -/
def stopWhen (h : Host) (early : Bool) : Host :=
  if early then { h with kills := h.kills ++ ["SIGTERM".toList] } else h

/-- Runs a command for its whole output. No folder stands for the working folder. -/
def run (h : Host) (disk : Disk) (c : Command) : Except Failure Text × Host :=
  let c := if c.cwd.isEmpty then { c with cwd := disk.cwd.text } else c
  let refuse (reason : Text) : Except Failure Text := .error (.gitCommand ⟨c.args, none, reason⟩)
  match refusal? disk c.args c.cwd with
  | some refusal => (refuse refusal.message, h)
  | none =>
    let (child, h) := h.spawn c
    match child.complaint? with
    | some reason => (refuse reason, h)
    | none => (.ok child.output, h)

/-- What stands in for the version of a git that is not installed. -/
def notInstalled : Text := "installed=false".toList

/-- Whether git tells its version. -/
def isAvailable (h : Host) (cwd : Text) : Bool × Host :=
  let (child, h) := h.spawn ⟨["--version".toList], cwd⟩
  (child.complaint?.isNone && child.output != notInstalled, h)

/-- Whether a consumer of `wanted` items stops while a process runs that has `count` items for it by
then. -/
def stopsWithin (wanted : Option Nat) (count : Nat) : Bool := wanted.any (· ≤ count)

/-- The first items of a reading, or all of them. -/
def taken {α : Type} (wanted : Option Nat) (r : Log.Reading α) : Log.Reading α :=
  match wanted with
  | none => r
  | some n => r.take n

/-- Streams a command to a consumer of all its lines or of the first ones. One that wants none
starts no process. -/
def stream (h : Host) (c : Command) (wanted : Option Nat) : Log.Reading Text × Host :=
  if wanted = some 0 then (⟨[], none, none⟩, h)
  else
    let (child, h) := h.spawn c
    let source := child.lines c.args
    (taken wanted ⟨source.lines, source.failure, none⟩,
      h.stopWhen (stopsWithin wanted child.earlyLines.length))

/-- Streams the entries of a log. An entry comes with the line that closes it, the last one only
once the process has ended, when there is nothing to stop. -/
def log (h : Host) (location range : Text) (wanted : Option Nat) : Log.Reading LogEntry × Host :=
  if wanted = some 0 then (⟨[], none, none⟩, h)
  else
    let args := Log.args range
    let (child, h) := h.spawn ⟨args, location⟩
    let source := child.lines args
    (taken wanted (Log.entriesOf source),
      h.stopWhen (stopsWithin wanted (Log.Reader.start.feedAll child.earlyLines).closed.length))

end Host

end Subprocess

end PackageHistory
