import PackageHistory.Failure

/-!
# Git and the disk, as a program meets them

What git answers, which edits of the disk are refused and what part of them is done may depend on all
that went before, so a statement for every world is one for every behaviour of git and for every way in
which edits fail.
-/

namespace PackageHistory

/-! ## Git -/

inductive CallMode where
  /-- The whole output at once. -/
  | run
  /-- The output line by line. -/
  | lines
  deriving DecidableEq, Repr

structure GitCall where
  mode : CallMode
  args : List Text
  cwd : Text
  deriving DecidableEq, Repr

/-- Lines, and the failure that comes after them, if any. -/
structure LineSource where
  lines : List Text
  failure : Option Failure

/-- Answers to the calls so far, latest first, and the one made now. -/
structure Git where
  run : List GitCall → GitCall → Except Failure Text
  stream : List GitCall → GitCall → LineSource
  available : Bool

structure World where
  git : Git
  disk : Disk
  /-- What marks the temporary files of this process. -/
  stamp : Text
  /-- It is part of a name, and not a path. -/
  stamp_contains : stamp.contains '/' = false := by exact .refl false
  /-- Calls of git, latest first. -/
  calls : List GitCall := []
  /-- Edits of the disk that were tried, latest first. -/
  edits : List Disk.Edit := []
  /-- Edits that fail though the tree would allow them. -/
  refuses : List Disk.Edit → Disk.Edit → Option Disk.Setback := fun _ _ => none

theorem World.stamp_plain (w : World) : '/' ∉ w.stamp := by
  simpa using w.stamp_contains

/-! ## Actions -/

/-- What a failed action changed stays changed. -/
abbrev Action := ExceptT Failure (StateM World)

namespace Action

def fail {α : Type} (e : Failure) : Action α := throw e

def ofExcept {ε α : Type} (wrap : ε → Failure) : Except ε α → Action α
  | .ok a => pure a
  | .error e => throw (wrap e)

/-- The outcome of an action in place of its failure. -/
def attempt {α : Type} (act : Action α) : Action (Except Failure α) :=
  fun w => let (outcome, w) := act.run w; (.ok outcome, w)

def runGit (args : List Text) (cwd : Text) : Action Text := fun w =>
  let call : GitCall := ⟨.run, args, cwd⟩
  (w.git.run w.calls call, { w with calls := call :: w.calls })

def streamGit (args : List Text) (cwd : Text) : Action LineSource := fun w =>
  let call : GitCall := ⟨.lines, args, cwd⟩
  (.ok (w.git.stream w.calls call), { w with calls := call :: w.calls })

def gitAvailable : Action Bool := fun w => (.ok w.git.available, w)

/-- Looks at the disk. -/
def look {α : Type} (f : Disk → Except Disk.Error α) : Action α := fun w =>
  match f w.disk with
  | .ok a => (.ok a, w)
  | .error e => (.error (.disk e), w)

def stamp : Action Text := fun w => (.ok w.stamp, w)

def resolve (t : Text) : Action Path := fun w => (.ok (w.disk.resolve t), w)

def edit (e : Disk.Edit) : Action Unit := fun w =>
  let tried := { w with edits := e :: w.edits }
  match w.refuses w.edits e with
  | some s => (.error (.disk s.error), { tried with disk := w.disk.tear s e })
  | none =>
    match w.disk.apply e with
    | .ok d => (.ok (), { tried with disk := d })
    | .error failure => (.error (.disk failure), tried)

/-- Removes a file if that is possible, and goes on if it is not. -/
def discard (path : Text) : Action Unit := do
  let _ ← (edit (.unlink path)).attempt

end Action

end PackageHistory
