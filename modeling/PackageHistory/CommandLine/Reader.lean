import PackageHistory.CommandLine.Similar
import PackageHistory.CommandLine.Spec

/-!
# Reading a command line

Words are sorted into options that are known, options that are not, and operands. The program knows
few options itself, so a word it does not know as an option is left to the command, and so is all
that follows it.
-/

namespace PackageHistory.CommandLine

/-! ## Sorting words -/

/-- An option as it was given, with its value if it takes one. -/
abbrev Given := OptionSpec × Option Text

structure Sorted where
  operands : List Text := []
  /-- The first unknown option and all that comes after it. -/
  unknown : List Text := []
  given : List Given := []

namespace Sorted

def give (o : OptionSpec) (v : Option Text) (s : Sorted) : Sorted :=
  { s with given := (o, v) :: s.given }

def leave (toUnknown : Bool) (word : Text) (s : Sorted) : Sorted :=
  if toUnknown then { s with unknown := word :: s.unknown }
  else { s with operands := word :: s.operands }

end Sorted

/-- A dash alone is an operand. -/
def looksLikeOption : Text → Bool
  | '-' :: _ :: _ => true
  | _ => false

/-- The first option of a word of several short ones, and what is behind it. -/
def firstOfCluster? (specs : List OptionSpec) : Text → Option (OptionSpec × Text)
  | '-' :: c :: d :: rest =>
    if c = '-' then none else (specs.find? (·.isNamed ['-', c])).map fun o => (o, d :: rest)
  | _ => none

/-- An option and its value in one word, with an equals sign between them. -/
def assignment? (specs : List OptionSpec) (word : Text) : Option (OptionSpec × Text) :=
  match word.span (· ≠ '=') with
  | ('-' :: '-' :: name, '=' :: value) =>
    if name.isEmpty then none
    else match specs.find? (·.isNamed ('-' :: '-' :: name)) with
      | some o => if o.arity.takesValue then some (o, value) else none
      | none => none
  | _ => none

/-- How much there is to read. -/
def weight (words : List Text) : Nat := words.foldr (fun w n => w.length + 1 + n) 0

theorem weight_cons (w : Text) (ws : List Text) :
    weight (w :: ws) = w.length + 1 + weight ws := rfl

theorem length_of_firstOfCluster? {specs : List OptionSpec} {word rest : Text} {o : OptionSpec}
    (h : firstOfCluster? specs word = some (o, rest)) : word.length = rest.length + 2 := by
  unfold firstOfCluster? at h
  split at h
  · split at h
    · simp at h
    · simp only [Option.map_eq_some_iff, Prod.mk.injEq] at h
      obtain ⟨_, _, _, rfl⟩ := h
      simp
  · simp at h

/-- Sorts words; fails for an option whose value is missing. An option takes the next word for its
value whatever it is, and two dashes end the options. `toUnknown` says that an unknown option came
before. -/
def sortWords (specs : List OptionSpec) (toUnknown : Bool) : List Text → Except OptionSpec Sorted
  | [] => .ok {}
  | word :: words =>
    if word = "--".toList then
      .ok (if toUnknown then { unknown := word :: words } else { operands := words })
    else match specs.find? (·.isNamed word) with
      | some o =>
        if o.arity.takesValue then
          match words with
          | [] => .error o
          | v :: rest => (sortWords specs toUnknown rest).map (·.give o (some v))
        else (sortWords specs toUnknown words).map (·.give o none)
      | none =>
        match h : firstOfCluster? specs word with
        | some (o, rest) =>
          have := length_of_firstOfCluster? h
          if o.arity.takesValue then (sortWords specs toUnknown words).map (·.give o (some rest))
          else (sortWords specs toUnknown (('-' :: rest) :: words)).map (·.give o none)
        | none =>
          match assignment? specs word with
          | some (o, v) => (sortWords specs toUnknown words).map (·.give o (some v))
          | none =>
            let toUnknown := toUnknown || looksLikeOption word
            (sortWords specs toUnknown words).map (·.leave toUnknown word)
termination_by words => weight words
decreasing_by all_goals simp only [weight_cons, List.length_cons]; omega

/-! ## Values of options -/

/-- The value of an option after it was given once more. -/
def valueAfter (before : Option Json) : Given → Json
  | (_, none) => .bool true
  | (o, some v) =>
    match o.arity, before with
    | .collected _, some (.array vs) => .array (vs ++ [.string v])
    | .collected _, _ => .array [.string v]
    | _, _ => .string v

/-- The options of a command as an object: defaults first, then what was given in turn. -/
def valuesOf (specs : List OptionSpec) (given : List Given) : Json :=
  let defaults : OrderedMap Text Json :=
    .ofList (specs.filterMap fun o => o.default.map fun v => (o.long, v))
  .object (given.foldl (fun m g => m.alter g.1.long fun before => valueAfter before g)
    defaults).entries

/-! ## What is asked for -/

/-- A command line that cannot be read. -/
inductive UsageError where
  /-- An option that is not known, and those that may have been meant. -/
  | unknownOption (word : Text) (similar : List Text)
  /-- A command that is not known, and those that may have been meant. -/
  | unknownCommand (word : Text) (similar : List Text)
  | missingValue (o : OptionSpec)

def UsageError.message : UsageError → Text
  | unknownOption word similar =>
    "error: unknown option '".toList ++ word ++ "'".toList ++ question similar
  | unknownCommand word similar =>
    "error: unknown command '".toList ++ word ++ "'".toList ++ question similar
  | missingValue o => "error: option '".toList ++ o.term ++ "' argument missing".toList

inductive Request where
  | version
  /-- The help of the program, by its option. -/
  | help
  /-- The help of the program, by its command. -/
  | overview
  /-- The help of the program, since nothing that can be done was asked for. -/
  | lost
  | commandHelp (c : Command)
  | run (c : Command) (options : Json)
  /-- A command line that the program cannot read. -/
  | refused (e : UsageError)
  /-- A command line that a command cannot read. -/
  | commandRefused (c : Command) (e : UsageError)

/-- An unknown option, compared with those it may have been meant for. Only long options are. -/
def unknownOption (known : List OptionSpec) (word : Text) : UsageError :=
  .unknownOption word
    (if dashes.isPrefixOf word then similar word (known.map OptionSpec.longFlag) else [])

def unknownCommand (word : Text) : UsageError :=
  .unknownCommand word (similar word (Command.all.map Command.name ++ [helpWord]))

/-- Reads what was left to a command. Operands are of no use to it. -/
def requestOf (c : Command) (words : List Text) : Request :=
  match sortWords c.options false words with
  | .error o => .commandRefused c (.missingValue o)
  | .ok sorted =>
    if sorted.unknown.any helpOption.isNamed then .commandHelp c
    else match sorted.unknown with
      | word :: _ =>
        .commandRefused c
          (unknownOption (c.options ++ [helpOption, versionOption]) word)
      | [] => .run c (valuesOf c.options sorted.given)

/-- What `help` is asked about. -/
def helpAbout : List Text → Request
  | [] => .overview
  | word :: _ =>
    if word.isEmpty then .overview
    else match Command.ofName? word with
      | some c => .commandHelp c
      | none => .lost

/-- Reads a command line. -/
def Request.ofWords (words : List Text) : Request :=
  match sortWords [versionOption] false words with
  | .error o => .refused (.missingValue o)
  | .ok sorted =>
    if !sorted.given.isEmpty then .version
    else match sorted.operands, sorted.unknown with
      | [], [] => .lost
      | [], word :: more =>
        if (word :: more).any helpOption.isNamed then .help
        else .refused (unknownOption [versionOption, helpOption] word)
      | operand :: more, unknown =>
        match Command.ofName? operand with
        | some c => requestOf c unknown
        | none =>
          if operand = helpWord then helpAbout more
          else if unknown.any helpOption.isNamed then .help
          else .refused (unknownCommand operand)

end PackageHistory.CommandLine
