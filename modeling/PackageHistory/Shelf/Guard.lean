import PackageHistory.World

/-!
# Shelving uncommitted changes

A guard stashes what is uncommitted when it is acquired and restores it when it is released. A
release that finds nothing shelved joins the restore that was started last, if there is one, and
shares its outcome.
-/

namespace PackageHistory.Shelf

def defaultLabel : Text := "ebuild-history scan --commits".toList

/-- How a restore that was started stands. -/
inductive Settlement where
  | pending
  | settled (outcome : Except Failure Unit)

structure Guard where
  location : Text
  /-- The message of the stash entry. -/
  label : Text := defaultLabel
  shelved : Bool := false
  /-- Every restore that was started, oldest first. -/
  restores : List Settlement := []
  /-- The place of the restore that releases join. -/
  joined : Option Nat := none

/-! ## Commands -/

/-- Names the files that are changed or untracked. -/
def listArgs : List Text := ["ls-files".toList, "-mo".toList, "--exclude-standard".toList]

def pushArgs (label : Text) : List Text :=
  ["stash".toList, "push".toList, "-u".toList, "-m".toList, label]

/-- Restores the working tree, and what was staged to the index. -/
def popArgs : List Text := ["stash".toList, "pop".toList, "--index".toList]

namespace Guard

/-! ## Between two answers of git -/

/-- What an acquire does once the changed files are listed. -/
inductive Listed where
  | push
  | finished (outcome : Except Failure Unit)

/-- Nothing is stashed when nothing is changed, or when git cannot tell. -/
def afterListing : Except Failure Text → Listed
  | .ok output => if output.trim.isEmpty then .finished (.ok ()) else .push
  | .error (.gitCommand _) => .finished (.ok ())
  | .error e => .finished (.error e)

def pushFailure (e : GitFailure) : Failure :=
  .shelf ⟨.stash, e.diagnostic, ("The working tree was left as it was; "
    ++ "commit or stash your changes manually and rerun the scan.").toList⟩

/-- Once changes are stashed they are this guard's to restore. -/
def afterPush (g : Guard) : Except Failure Text → Guard × Except Failure Unit
  | .ok _ => ({ g with shelved := true, joined := none }, .ok ())
  | .error (.gitCommand e) => (g, .error (pushFailure e))
  | .error e => (g, .error e)

/-- Starts a restore when changes are shelved, else joins the one started last. Gives the place of
the restore to wait for. -/
def release (g : Guard) : Guard × Option Nat :=
  if g.shelved then
    ({ g with
        shelved := false
        restores := g.restores ++ [.pending]
        joined := some g.restores.length },
      some g.restores.length)
  else (g, g.joined)

def popFailure (label : Text) (e : GitFailure) : Failure :=
  .shelf ⟨.restore, e.diagnostic,
    "Your uncommitted changes are kept in the stash entry \"".toList ++ label
      ++ "\"; resolve any conflicts and run \x60git stash pop --index\x60 manually.".toList⟩

/-- What the answer to a pop means for the restore. -/
def popOutcome (label : Text) : Except Failure Text → Except Failure Unit
  | .ok _ => .ok ()
  | .error (.gitCommand e) => .error (popFailure label e)
  | .error e => .error e

def settle (g : Guard) (place : Nat) (answer : Except Failure Text) : Guard :=
  { g with restores := g.restores.set place (.settled (popOutcome g.label answer)) }

/-- How the restore that a release waits for ended; none while it has not. Nothing to wait for is a
success. -/
def outcome? (g : Guard) : Option Nat → Option (Except Failure Unit)
  | none => some (.ok ())
  | some place =>
    match g.restores[place]? with
    | some (.settled outcome) => some outcome
    | _ => none

/-! ## One call after another -/

def acquire (g : Guard) : Action Guard := do
  let listed ← (Action.runGit listArgs g.location).attempt
  match afterListing listed with
  | .finished (.ok ()) => return g
  | .finished (.error e) => Action.fail e
  | .push =>
    let pushed ← (Action.runGit (pushArgs g.label) g.location).attempt
    match g.afterPush pushed with
    | (g, .ok ()) => return g
    | (_, .error e) => Action.fail e

/-- Runs the pops of the restores that were started between two states of a guard. -/
def popStarted (before after : Guard) : Action (List (Nat × Except Failure Text)) :=
  ((List.range after.restores.length).drop before.restores.length).mapM fun place => do
    return (place, ← (Action.runGit popArgs after.location).attempt)

/-- Lets several callers release at once and waits for all of them. -/
def releaseAll (g : Guard) (callers : Nat) : Action (Guard × List (Except Failure Unit)) := do
  let (after, places) := (List.range callers).foldl
    (fun (g, places) _ => let (g, place) := g.release; (g, places ++ [place])) (g, [])
  let answers ← popStarted g after
  let settled := answers.foldl (fun g (place, answer) => g.settle place answer) after
  return (settled, places.map fun place => (settled.outcome? place).getD (.ok ()))

end Guard

end PackageHistory.Shelf
