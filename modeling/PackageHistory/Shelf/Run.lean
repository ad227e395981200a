import PackageHistory.Shelf.Guard

/-!
# A scan with changes shelved

While the scan runs, signals are listened to: each one releases the guard and asks to exit once the
restore has settled. When the scan ends the listeners are taken away, the guard is released, and the
run ends when that has settled too. The run is a state that every event changes.
-/

namespace PackageHistory.Shelf

/-- A signal by its name. -/
abbrev Signal := Text

def defaultSignals : List Signal := ["SIGINT".toList, "SIGTERM".toList]

/-- The exit code after a signal. -/
def exitCode (s : Signal) : Nat :=
  if s = "SIGHUP".toList then 129
  else if s = "SIGINT".toList then 130
  else if s = "SIGTERM".toList then 143
  else 1

inductive Phase (α : Type) where
  | scanning
  /-- The scan has ended, the restore has not. -/
  | closing (outcome : Except Failure α) (place : Option Nat)
  | done (result : Except Failure α)

inductive Event (α : Type) where
  | signal (s : Signal)
  | scanEnds (outcome : Except Failure α)
  /-- Git answers the pop of a restore. -/
  | popSettles (place : Nat) (answer : Except Failure Text)

structure Run (α : Type) where
  guard : Guard
  phase : Phase α := .scanning
  /-- The listeners this run has installed. -/
  listeners : List Signal
  /-- Signals that wait to exit, each for a restore. -/
  waiting : List (Signal × Option Nat) := []
  exits : List Nat := []

namespace Run

variable {α : Type}

/-- The run of a guard that has been acquired. -/
def start (g : Guard) (watched : List Signal) : Run α := { guard := g, listeners := watched }

/-- Exits for the signals whose restore has settled. -/
def flushExits (r : Run α) : Run α :=
  let isSettled (x : Signal × Option Nat) : Bool := (r.guard.outcome? x.2).isSome
  { r with
    exits := r.exits ++ (r.waiting.filter isSettled).map fun x => exitCode x.1
    waiting := r.waiting.filter fun x => !isSettled x }

/-- Ends a closing run whose restore has settled. A failed restore takes the place of the scan's own
outcome. -/
def finishClosing (r : Run α) : Run α :=
  match r.phase with
  | .closing outcome place =>
    match r.guard.outcome? place with
    | none => r
    | some (.ok ()) => { r with phase := .done outcome }
    | some (.error e) => { r with phase := .done (.error e) }
  | _ => r

/-- One listener hears a signal. -/
def hear (s : Signal) (r : Run α) : Run α :=
  let (guard, place) := r.guard.release
  { r with guard, waiting := r.waiting ++ [(s, place)] }

def step (r : Run α) : Event α → Run α
  | .signal s => ((List.range (r.listeners.count s)).foldl (fun r _ => r.hear s) r).flushExits
  | .scanEnds outcome =>
    match r.phase with
    | .scanning =>
      let (guard, place) := r.guard.release
      finishClosing { r with guard, listeners := [], phase := .closing outcome place }
    | _ => r
  | .popSettles place answer =>
    (flushExits { r with guard := r.guard.settle place answer }).finishClosing

/-- How a run ended. -/
def result? (r : Run α) : Option (Except Failure α) :=
  match r.phase with
  | .done result => some result
  | _ => none

/-! ## Against git -/

/-- Lets events happen one after another. A restore is started by the event that asks for it, and
settles after all events. -/
def play (r : Run α) (events : List (Event α)) : Action (Run α) := do
  let (r, answers) ← events.foldlM (fun (r, answers) e => do
    let next := r.step e
    let started ← Guard.popStarted r.guard next.guard
    return (next, answers ++ started)) (r, ([] : List (Nat × Except Failure Text)))
  return answers.foldl (fun r (place, answer) => r.step (.popSettles place answer)) r

end Run

/-- What a scan did: the signals that came while it ran, and what it returned or threw. -/
structure Scanned (α : Type) where
  signals : List Signal := []
  outcome : Except Failure α

/-- Runs a scan with changes shelved. Where the guard cannot be acquired the scan does not run. A scan that
throws says so in its outcome, for which the changes are restored: its action is not to fail. -/
def withGuard {α : Type} (g : Guard) (watched : List Signal) (scan : Run α → Action (Scanned α)) :
    Action (Run α) := do
  let run := Run.start (← g.acquire) watched
  let scanned ← scan run
  run.play (scanned.signals.map .signal ++ [.scanEnds scanned.outcome])

end PackageHistory.Shelf
