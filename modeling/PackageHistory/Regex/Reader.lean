import PackageHistory.Regex.Basic

/-!
# Reading regular expressions

The text of an expression is cut into tokens, which are then put together from the left. Where a
token cannot be read, a fault stands in its place, so the first fault of the text is the one that is
told.
-/

namespace PackageHistory.Regex

/-- The units of a text, each beside the character it stands for. The halves of a character stand
for none; the null character, which has no meaning in expressions, takes their place. -/
abbrev Source := List (Char × Nat)

def Source.ofText (t : Text) : Source := t.units.map fun u => (Char.ofNat u, u)

/-! ## Escapes -/

/-- How many groups a text opens outside of brackets. -/
def groupCount (inBracket : Bool) : Source → Nat
  | [] => 0
  | ('\\', _) :: _ :: rest => groupCount inBracket rest
  | ('(', _) :: rest =>
    groupCount inBracket rest + if inBracket || rest.head?.any (·.1 = '?') then 0 else 1
  | (c, _) :: rest => groupCount (if inBracket then c ≠ ']' else c = '[') rest

def isOctal (c : Char) : Bool := '0' ≤ c && c ≤ '7'

/-- The value of one to three octal digits; a third one counts only when it stays below 256. -/
def octal (digit : Nat) (rest : Source) : Nat × Source :=
  match rest with
  | (b, v) :: rest =>
    if isOctal b then
      let two := digit * 8 + (v - 0x30)
      match rest with
      | (c, w) :: more =>
        if two < 32 && isOctal c then (two * 8 + (w - 0x30), more) else (two, rest)
      | [] => (two, [])
    else (digit, (b, v) :: rest)
  | [] => (digit, [])

/-- The value of exactly `count` hexadecimal digits. -/
def hex? (count : Nat) (t : Source) : Option (Nat × Source) := do
  if t.length < count then none
  let digits ← (t.take count).mapM fun (c, _) => Text.hexValue? c
  return (digits.foldl (fun n d => 16 * n + d) 0, t.drop count)

/-- The unit that an escape stands for. Between brackets also digits and underscores name control
characters. A backslash with nothing to name after a `c` stands for itself. -/
def escaped (inBracket : Bool) : Source → Nat × Source
  | [] => (0x5c, [])
  | (c, u) :: rest =>
    match c with
    | 't' => (0x09, rest)
    | 'n' => (0x0a, rest)
    | 'v' => (0x0b, rest)
    | 'f' => (0x0c, rest)
    | 'r' => (0x0d, rest)
    | 'c' =>
      match rest with
      | (d, v) :: more =>
        if d.isAlpha || (inBracket && (d.isDigit || d = '_')) then (v % 32, more)
        else (0x5c, (c, u) :: rest)
      | [] => (0x5c, (c, u) :: rest)
    | 'x' => (hex? 2 rest).getD (u, rest)
    | 'u' => (hex? 4 rest).getD (u, rest)
    | _ => if isOctal c then octal (u - 0x30) rest else (u, rest)

/-- The kind of units that a letter behind a backslash stands for. -/
def kindOf? : Char → Option (Kind × Bool)
  | 'd' => some (.digit, false)
  | 'D' => some (.digit, true)
  | 's' => some (.blank, false)
  | 'S' => some (.blank, true)
  | 'w' => some (.word, false)
  | 'W' => some (.word, true)
  | _ => none

/-! ## Brackets -/

/-- One unit or one kind of units. -/
def readMember : Source → Except Fault (Member × Source)
  | [] => .error .unclosedBracket
  | [('\\', _)] => .error .loneBackslash
  | ('\\', _) :: (c, u) :: rest =>
    if c = 'b' then .ok (.unit 0x08, rest)
    else match kindOf? c with
      | some (k, negated) => .ok (.kind k negated, rest)
      | none =>
        let (u, rest) := escaped true ((c, u) :: rest)
        .ok (.unit u, rest)
  | (_, u) :: rest => .ok (.unit u, rest)

/-- The members up to the closing bracket, and what follows it. A kind is no end of a range; the
dash beside it stands for itself. -/
def readMembers : Nat → Source → Except Fault (List Member × Source)
  | 0, _ | _, [] => .error .unclosedBracket
  | _, (']', _) :: rest => .ok ([], rest)
  | fuel + 1, t => do
    let (a, rest) ← readMember t
    match rest with
    | ('-', _) :: (d, v) :: more =>
      if d = ']' then
        let (members, rest) ← readMembers fuel rest
        return (a :: members, rest)
      let (b, rest) ← readMember ((d, v) :: more)
      match a, b with
      | .unit first, .unit last =>
        if last < first then .error .rangeOutOfOrder
        let (members, rest) ← readMembers fuel rest
        return (.range first last :: members, rest)
      | a, b =>
        let (members, rest) ← readMembers fuel rest
        return (a :: .unit 0x2d :: b :: members, rest)
    | rest =>
      let (members, rest) ← readMembers fuel rest
      return (a :: members, rest)

/-- The set behind an opening bracket. -/
def readSet (t : Source) : Except Fault (Expr × Source) := do
  let (negated, t) := match t with
    | ('^', _) :: t => (true, t)
    | t => (false, t)
  let (members, rest) ← readMembers (t.length + 1) t
  return (.oneOf negated members, rest)

/-! ## Limits -/

/-- The largest count that is told apart. -/
def countLimit : Nat := 2147483647

def countOf (digits : Source) : Nat := min countLimit (Text.digitsValue (digits.map Prod.fst))

/-- The limits behind an opening brace, such as `2}`, `2,}` and `2,3}`. -/
def readLimits? (t : Source) : Option ((Nat × Option Nat) × Source) :=
  let (least, rest) := t.span (·.1.isDigit)
  if least.isEmpty then none
  else match rest with
    | ('}', _) :: rest => some ((countOf least, some (countOf least)), rest)
    | (',', _) :: rest =>
      match rest.span (·.1.isDigit) with
      | ([], ('}', _) :: rest) => some ((countOf least, none), rest)
      | (most, ('}', _) :: rest) => some ((countOf least, some (countOf most)), rest)
      | _ => none
    | _ => none

/-! ## Tokens -/

inductive Opening where
  | group | plain | ahead
  deriving DecidableEq, Repr

inductive Token where
  /-- A part that can be repeated. -/
  | part (e : Expr)
  /-- A condition on a place, which cannot be repeated. -/
  | condition (e : Expr)
  | opening (o : Opening)
  | closing
  | bar
  | times (least : Nat) (most : Option Nat) (greedy : Bool)
  | fault (f : Fault)
  deriving DecidableEq, Repr

/-- A repetition; a question mark behind it makes it a modest one. -/
def timesToken (least : Nat) (most : Option Nat) : Source → Token × Source
  | ('?', _) :: rest => (.times least most false, rest)
  | rest => (.times least most true, rest)

/-- The token of an escape outside of brackets. A number stands for a group if there are as many
groups, else for a unit. -/
def escapeToken (groups : Nat) : Source → Token × Source
  | [] => (.fault .loneBackslash, [])
  | (c, u) :: rest =>
    let (digits, behind) := List.span (·.1.isDigit) ((c, u) :: rest)
    let n := Text.digitsValue (digits.map Prod.fst)
    if c ≠ '0' && 0 < n && n ≤ groups then (.part (.again n), behind)
    else if c = 'b' then (.condition (.wordEdge false), rest)
    else if c = 'B' then (.condition (.wordEdge true), rest)
    else match kindOf? c with
      | some (k, negated) => (.part (.oneOf false [.kind k negated]), rest)
      | none =>
        let (u, rest) := escaped false ((c, u) :: rest)
        (.part (.unit u), rest)

/-- The token that begins with a unit, and what follows it. -/
def firstToken (groups : Nat) (c : Char) (u : Nat) (rest : Source) : Token × Source :=
  match c with
  | '^' => (.condition .start, rest)
  | '$' => (.condition .stop, rest)
  | '.' => (.part .any, rest)
  | '|' => (.bar, rest)
  | ')' => (.closing, rest)
  | '*' => timesToken 0 none rest
  | '+' => timesToken 1 none rest
  | '?' => timesToken 0 (some 1) rest
  | '\\' => escapeToken groups rest
  | '(' =>
    match rest with
    | ('?', _) :: (':', _) :: rest => (.opening .plain, rest)
    | ('?', _) :: ('=', _) :: rest => (.opening .ahead, rest)
    | ('?', _) :: rest => (.fault .invalidGroup, rest)
    | rest => (.opening .group, rest)
  | '[' =>
    match readSet rest with
    | .ok (set, rest) => (.part set, rest)
    | .error f => (.fault f, [])
  | '{' =>
    match readLimits? rest with
    | some ((least, most), rest) => timesToken least most rest
    | none => (.part (.unit u), rest)
  | _ => (.part (.unit u), rest)

def tokensWithin (groups : Nat) : Nat → Source → List Token
  | 0, _ | _, [] => []
  | fuel + 1, (c, u) :: rest =>
    let (token, rest) := firstToken groups c u rest
    token :: tokensWithin groups fuel rest

/-- The tokens of a text. Each takes up at least one unit. -/
def tokens (t : Source) : List Token := tokensWithin (groupCount false t) t.length t

/-! ## Putting together -/

/-- What has been read since a group was opened. -/
structure Level where
  /-- The alternatives before the last bar. -/
  alternatives : Option Expr := none
  /-- What stands since then, except for the last part. -/
  before : Expr := .empty
  /-- The last part, if it can be repeated. -/
  last : Option Expr := none
  deriving DecidableEq, Repr

namespace Level

def sequence (l : Level) : Expr :=
  match l.last with
  | some e => .both l.before e
  | none => l.before

def closed (l : Level) : Expr :=
  match l.alternatives with
  | some e => .either e l.sequence
  | none => l.sequence

def push (l : Level) (e : Expr) : Level := { l with before := l.sequence, last := some e }

def pushFixed (l : Level) (e : Expr) : Level :=
  { l with before := .both l.sequence e, last := none }

/-- Repeats the last part. -/
def repeatLast (l : Level) (least : Nat) (most : Option Nat) (greedy : Bool) :
    Except Fault Level :=
  match l.last with
  | none => .error .nothingToRepeat
  | some e =>
    if most.any (· < least) then .error .limitsOutOfOrder
    else .ok (pushFixed { l with last := none } (.repeated least most greedy e))

end Level

def Opening.wrap (n : Nat) (body : Expr) : Opening → Expr
  | group => .group n body
  | plain => body
  | ahead => .ahead body

/-- Puts tokens together. For every group that is open the stack holds how it was opened, its number
and what stands before it; `opened` groups have a number by now. -/
def assemble (l : Level) (stack : List (Opening × Nat × Level)) (opened : Nat) :
    List Token → Except Fault Expr
  | [] => if stack.isEmpty then .ok l.closed else .error .unclosedGroup
  | .part e :: rest => assemble (l.push e) stack opened rest
  | .condition e :: rest => assemble (l.pushFixed e) stack opened rest
  | .bar :: rest => assemble { alternatives := some l.closed } stack opened rest
  | .opening o :: rest =>
    let opened := if o = .group then opened + 1 else opened
    assemble {} ((o, opened, l) :: stack) opened rest
  | .closing :: rest =>
    match stack with
    | [] => .error .closeOutsideGroup
    | (o, n, outer) :: stack => assemble (outer.push (o.wrap n l.closed)) stack opened rest
  | .times least most greedy :: rest => do
    assemble (← l.repeatLast least most greedy) stack opened rest
  | .fault f :: _ => .error f

/-- Reads an expression. -/
def Expr.parse (t : Text) : Except Fault Expr := assemble {} [] 0 (tokens (Source.ofText t))

end PackageHistory.Regex
