import PackageHistory.CommandLine.Commands
import PackageHistory.CommandLine.Help
import PackageHistory.CommandLine.Reader

/-! # The program: from a command line to what is printed and how it ends -/

namespace PackageHistory.CommandLine

/-- Why the program stopped before it ran a command. -/
inductive Stop where
  | usage (e : UsageError)
  /-- Help took the place of a command. -/
  | helpShown

def Stop.message : Stop → Text
  | usage e => e.message
  | helpShown => "(outputHelp)".toList

inductive Ending where
  | finished
  /-- A command ended the program itself. -/
  | exited (code : Nat)
  | stopped (s : Stop)

structure Outcome where
  told : Told
  ending : Ending

namespace Outcome

def shown (t : Text) (ending : Ending) : Outcome := ⟨{ out := t }, ending⟩

def complained (t : Text) (ending : Ending) : Outcome := ⟨{ err := t }, ending⟩

/-- The exit code that is set, if any. -/
def exitCode? (o : Outcome) : Option Nat :=
  match o.ending with
  | .exited code => some code
  | .stopped _ => some 1
  | .finished => if o.told.failed then some 1 else none

/-- All that was told; a program that stopped says why once more. -/
def final (o : Outcome) : Told :=
  match o.ending with
  | .stopped s =>
    { o.told with
      err := o.told.err ++ Told.line ("Fatal error: ".toList ++ s.message), failed := true }
  | _ => o.told

end Outcome

/-- Does what was asked for. Help that was asked for by its option is a success, help that takes the
place of a command is not. -/
def perform (s : Session) : Request → Action Outcome
  | .version => return .shown (Told.line programVersion) .finished
  | .help => return .shown Help.ofProgram .finished
  | .overview => return .shown Help.ofProgram (.stopped .helpShown)
  | .lost => return .complained Help.ofProgram (.stopped .helpShown)
  | .commandHelp c => return .shown (Help.ofCommand c) (.exited 0)
  | .refused e => return .complained (Told.line e.message) (.stopped (.usage e))
  | .commandRefused _ e => return .complained (Told.line e.message) (.exited 1)
  | .run c options => return ⟨← s.runCommand c options, .finished⟩

def runProgram (s : Session) (words : List Text) : Action Outcome :=
  perform s (Request.ofWords words)

end PackageHistory.CommandLine
