import PackageHistory.Text.Basic

/-!
# What the arguments of git say

The arguments are read from the left: switches before the task, the task, then its switches and
words, then paths behind two dashes. A switch can take a later argument as its value; which do
depends on the task, and only few of those that git has are known.
-/

namespace PackageHistory.Subprocess

/-- A name in lower case. The sign for kelvin is a capital k. -/
def lower (t : Text) : Text := t.map fun c => if c = '\u212a' then 'k' else c.toLower

/-! ## Known switches -/

/-- The switches that are known in one part of a command. -/
structure Switches where
  /-- Single letters, and whether they take a value. -/
  letters : List (Char × Bool) := []
  /-- Names that take a value. -/
  names : List String := []

namespace Switches

def beforeTask : Switches where
  letters := [('C', true), ('P', false), ('c', true), ('h', false), ('p', false), ('v', false)]
  names := ["--attr-source", "--config-env", "--exec-path", "--git-dir", "--list-cmds",
    "--namespace", "--super-prefix", "--work-tree"]

def ofTasks : List (String × Switches) :=
  [("clone",
    { letters := [('b', true), ('j', true), ('o', true), ('u', true)]
      names := ["--branch", "--config", "--jobs", "--origin", "--template", "--upload-pack"] }),
   ("commit",
    { letters := [('F', true), ('m', true), ('t', true)]
      names := ["--file", "--message", "--reedit-message", "--reuse-message", "--template"] }),
   ("config",
    { letters := [('e', false), ('f', true), ('l', false)]
      names := ["--blob", "--comment", "--default", "--file", "--type", "--value"] })]

/-- The switches behind a task. The letters that take a value before it do so behind it too. -/
def ofTask (task : Text) : Switches :=
  let own : Switches := ((ofTasks.find? (·.1.toList = task)).map Prod.snd).getD {}
  { own with letters := beforeTask.letters.filter (·.2) ++ own.letters }

def knows (s : Switches) (c : Char) : Bool := s.letters.any (·.1 = c)

def letterTakesValue (s : Switches) (c : Char) : Bool := s.letters.contains (c, true)

def nameTakesValue (s : Switches) (name : Text) : Bool := s.names.any (·.toList = name)

end Switches

/-! ## Switches of an argument -/

inductive SwitchValue where
  /-- It has none. -/
  | none
  | given (value : Text)
  /-- It comes with a later argument. -/
  | awaited
  deriving DecidableEq, Repr

structure Switch where
  name : Text
  value : SwitchValue
  deriving DecidableEq, Repr

def isSwitch : Text → Bool
  | '-' :: _ :: _ => true
  | _ => false

/-- What stands before an equals sign. -/
def beforeEquals (t : Text) : Text := t.takeWhile (· ≠ '=')

/-- What stands behind an equals sign. -/
def afterEquals? (t : Text) : Option Text := (t.dropWhile (· ≠ '=')).tail?

namespace Switches

def awaitedIf (takesValue : Bool) : SwitchValue := if takesValue then .awaited else .none

def letter (s : Switches) (c : Char) : Switch := ⟨['-', c], awaitedIf (s.letterTakesValue c)⟩

/-- A switch spelled out. Without a name before its equals sign it is taken as a whole. -/
def spelledOut (s : Switches) (arg : Text) : Switch :=
  match afterEquals? arg with
  | some value =>
    if beforeEquals arg = "--".toList then ⟨arg, .none⟩ else ⟨beforeEquals arg, .given value⟩
  | none => ⟨arg, awaitedIf (s.nameTakesValue arg)⟩

/-- Letters behind one dash. When all are known each is a switch; else the first may have the others
for its value; else the argument is taken as a whole. -/
def cluster (s : Switches) (letters : Text) : List Switch :=
  if letters.all s.knows then letters.map s.letter
  else match letters with
    | c :: rest =>
      if s.letterTakesValue c then [⟨['-', c], .given rest⟩] else [⟨'-' :: letters, .none⟩]
    | [] => []

def read (s : Switches) (arg : Text) : List Switch :=
  if "--".toList.isPrefixOf arg then [s.spelledOut arg] else s.cluster arg.tail

end Switches

/-! ## Reading -/

/-- The arguments read so far. -/
structure Invocation where
  /-- The task, in lower case. -/
  task : Option Text := none
  /-- The names of switches before the task. -/
  leading : List Text := []
  /-- The names of switches behind the task. -/
  own : List Text := []
  /-- The values of switches, as they came. -/
  values : List (Text × Text) := []
  /-- The arguments of the task that belong to no switch. -/
  words : List Text := []
  /-- The switches whose values come next. -/
  waiting : List Text := []
  /-- Only paths follow. -/
  closed : Bool := false
  deriving DecidableEq, Repr

namespace Invocation

def addSwitch (i : Invocation) (s : Switch) : Invocation :=
  let i := if i.task.isNone then { i with leading := i.leading ++ [s.name] }
    else { i with own := i.own ++ [s.name] }
  match s.value with
  | .none => i
  | .given value => { i with values := i.values ++ [(s.name, value)] }
  | .awaited => { i with waiting := i.waiting ++ [s.name] }

def known (i : Invocation) : Switches :=
  match i.task with
  | none => .beforeTask
  | some task => .ofTask task

/-- Reads one more argument. Two dashes close the switches of a task only. -/
def read (i : Invocation) (arg : Text) : Invocation :=
  match i.waiting with
  | name :: more => { i with values := i.values ++ [(name, arg)], waiting := more }
  | [] =>
    if i.closed then i
    else if arg = "--".toList then { i with closed := i.task.isSome }
    else if isSwitch arg then (i.known.read arg).foldl addSwitch i
    else if i.task.isNone then { i with task := some (lower arg) }
    else { i with words := i.words ++ [arg] }

def ofArgs (args : List Text) : Invocation := args.foldl read {}

/-- The names of all switches, as they came. -/
def switches (i : Invocation) : List Text := i.leading ++ i.own

/-! ## Settings -/

/-- Switches whose value assigns a setting. -/
def assigningSwitches : List String := ["-c", "--config", "--config-env"]

/-- The names of the settings that switches assign. -/
def assigned (i : Invocation) : List Text :=
  (i.values.filter fun v => assigningSwitches.any (·.toList = v.1)
    && (afterEquals? v.2).isSome).map fun v => beforeEquals v.2

/-- What the task of configuring does with a setting. -/
inductive Access where
  | reads
  | writes
  deriving DecidableEq, Repr

def readingSwitches : List String :=
  ["-l", "--get", "--get-all", "--get-color", "--get-colorbool", "--get-regexp", "--get-urlmatch",
    "--list"]

def writingSwitches : List String :=
  ["-e", "--add", "--edit", "--remove-section", "--rename-section", "--replace-all", "--unset",
    "--unset-all"]

def Access.ofSwitch? (name : Text) : Option Access :=
  if readingSwitches.any (·.toList = name) then some .reads
  else if writingSwitches.any (·.toList = name) then some .writes
  else none

def readingWords : List String := ["get", "list"]

def writingWords : List String := ["edit", "remove-section", "rename-section", "set", "unset"]

def Access.ofWord? (word : Text) : Option Access :=
  if readingWords.any (·.toList = lower word) then some .reads
  else if writingWords.any (·.toList = lower word) then some .writes
  else none

/-- The setting or section that the task of configuring writes. The first switch that tells decides,
then the first word; else a name alone asks for its value. -/
def configured (i : Invocation) : List Text :=
  if i.task ≠ some "config".toList then []
  else match i.own.findSome? Access.ofSwitch?, i.words.head?.bind Access.ofWord? with
    | some .reads, _ => []
    | some .writes, _ => i.words.take 1
    | none, some .reads => []
    | none, some .writes => i.words.tail.take 1
    | none, none => if 2 ≤ i.words.length then i.words.take 1 else []

/-- The names of the settings that a command sets for itself or writes, in lower case. -/
def settings (i : Invocation) : List Text := (i.assigned ++ i.configured).map lower

end Invocation

end PackageHistory.Subprocess
