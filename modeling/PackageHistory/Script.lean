import PackageHistory.World

/-!
# Git by script

Answers to commands that are written down beforehand. The answers to one command queue up; each call
takes the first, and the last one stays.
-/

namespace PackageHistory

/-- What a command prints, and the failure that comes after it, if any. -/
structure Answer where
  args : List Text
  out : Text
  failure : Option Failure

/-- The lines of an answer; an empty one has none. -/
def Answer.source (a : Answer) : LineSource :=
  ⟨if a.out.isEmpty then [] else a.out.splitOn '\n', a.failure⟩

abbrev Script := List Answer

namespace Script

/-- The script after a command was answered. -/
def next (script : Script) (args : List Text) : Script :=
  if (script.filter (·.args = args)).length ≤ 1 then script else script.eraseP (·.args = args)

/-- The script after some calls, of which the latest stands first. -/
def after (script : Script) (calls : List GitCall) : Script :=
  calls.foldr (fun call script => script.next call.args) script

/-- The answer to a command that no script names. -/
def unexpected (args : List Text) : Answer where
  args := args
  out := []
  failure := some <| .gitCommand
    ⟨args, some 128, "fatal: unexpected command: git ".toList ++ Text.join [' '] args⟩

def answer (script : Script) (calls : List GitCall) (call : GitCall) : Answer :=
  ((script.after calls).find? (·.args = call.args)).getD (unexpected call.args)

def git (script : Script) (available : Bool) : Git where
  run calls call :=
    let a := script.answer calls call
    match a.failure with
    | some e => .error e
    | none => .ok a.out
  stream calls call := (script.answer calls call).source
  available := available

end Script

end PackageHistory
