import PackageHistory.Ignore.Pattern

/-!
# Rules of ignored paths

Rules are tried in order and the last one that matches decides, but nothing below an ignored folder
can be taken back.
-/

namespace PackageHistory.Ignore

structure Rule where
  /-- Whether the rule takes paths back. -/
  negative : Bool
  /-- What is looked for in a path. -/
  expression : Regex.Expr
  deriving DecidableEq, Repr

abbrev Rules := List Rule

/-- A pattern that stands for no expression. -/
structure BadPattern where
  /-- The text that was to be an expression. -/
  source : Text
  fault : Regex.Fault
  deriving DecidableEq, Repr

def BadPattern.message (e : BadPattern) : Text :=
  "Invalid regular expression: /".toList ++ e.source ++ "/i: ".toList ++ e.fault.message

/-! ## Reading -/

/-- Whether a line holds a rule: it is not blank, not a comment, and does not end in a lone
backslash. -/
def isRule (line : Text) : Bool :=
  !line.all isBlank && line.head? ≠ some '#'
    && !(line.getLast? = some '\\' && line.dropLast.getLast? ≠ some '\\')

def Rule.parse (line : Text) : Except BadPattern Rule := do
  let (negative, t) := match line with
    | '!' :: t => (true, t)
    | t => (false, t)
  let t := match t with
    | '\\' :: '!' :: rest => '!' :: rest
    | t => t
  let t := match t with
    | '\\' :: '#' :: rest => '#' :: rest
    | t => t
  let source := expressionText t
  let expression ← (Regex.Expr.parse source).mapError fun fault => ⟨source, fault⟩
  return ⟨negative, expression⟩

/-- Lines end at a line feed, perhaps behind a carriage return; the last one has no end. -/
def lines : Text → List Text
  | [] => [[]]
  | '\r' :: '\n' :: t => [] :: lines t
  | '\n' :: t => [] :: lines t
  | c :: t =>
    match lines t with
    | [] => [[c]]
    | line :: more => (c :: line) :: more

/-- The rules of a text; the first bad pattern makes all of it useless. -/
def Rules.parse (t : Text) : Except BadPattern Rules := ((lines t).filter isRule).mapM Rule.parse

/-! ## Testing -/

def Rule.isMatch (r : Rule) (path : Text) : Bool := r.expression.isFoundIn path

/-- Whether the rules taken in order ignore a path, its parents aside. -/
def Rules.ignoresAlone (rules : Rules) (path : Text) : Bool :=
  rules.foldl (fun ignored r =>
    if r.negative then ignored && !r.isMatch path else ignored || r.isMatch path) false

/-- The paths of the folders that a path lies in, each with its slash. -/
def parents (path : Text) : List Text :=
  let segments := path.splitOn '/'
  (List.range (segments.length - 1)).map fun i => Text.join ['/'] (segments.take (i + 1)) ++ ['/']

/-- Whether a path or a folder it lies in is ignored. -/
def Rules.ignores (rules : Rules) (path : Text) : Bool :=
  (parents path).any rules.ignoresAlone || rules.ignoresAlone path

/-- Paths that do not lead straight down: they begin with dots and a slash or consist of dots. -/
def isNotRelative (path : Text) : Bool :=
  match path.dropWhile (· = '.') with
  | [] => !path.isEmpty
  | c :: _ => c = '/'

end PackageHistory.Ignore
