import PackageHistory.Failure
import PackageHistory.ReservedName
import PackageHistory.Subprocess.Hazard

/-!
# Commands that are refused

A command that is run for its whole output is looked over before a process starts. It needs a folder
and at least one argument, a task whose switches can be looked up, and must hold no hazard.
-/

namespace PackageHistory.Subprocess

inductive Refusal where
  | noFolder
  | unreachable (e : Disk.Error)
  | noCommand
  /-- The task has a reserved name, which stands for no switches. -/
  | reservedTask
  | hazard (h : Hazard)
  deriving DecidableEq, Repr

def Refusal.message : Refusal → Text
  | noFolder => "Cannot use simple-git on a directory that does not exist".toList
  | unreachable e => e.message
  | noCommand => "Raw: must supply one or more command to execute".toList
  | reservedTask => "TypeError: ".toList ++ (Failure.missing "entries".toList).message
  | hazard h => h.message

/-- Why the arguments of a command are refused. -/
def refusalOfArgs? (args : List Text) : Option Refusal :=
  let i := Invocation.ofArgs args
  if args.isEmpty then some .noCommand
  else if i.task.any reservedNames.contains then some .reservedTask
  else i.hazard?.map .hazard

/-- Why a command is refused in a folder. -/
def refusal? (disk : Disk) (args : List Text) (cwd : Text) : Option Refusal :=
  match disk.inspect cwd with
  | .ok (.folder _) => refusalOfArgs? args
  | .ok (.file _ _) | .error ⟨.noEntry, _⟩ => some .noFolder
  | .error e => some (.unreachable e)

end PackageHistory.Subprocess
