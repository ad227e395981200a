import PackageHistory.Text.Blank
import PackageHistory.Text.Capital
import PackageHistory.Text.Units

/-!
# Regular expressions

An expression is looked for in the 16-bit units of a text, regardless of case. Its parts are tried
from the left, each with all that follows it, and the first way that leads to the end counts.
-/

namespace PackageHistory.Regex

/-! ## Expressions -/

inductive Kind where
  | digit | blank | word
  deriving DecidableEq, Repr

/-- What can stand between brackets. -/
inductive Member where
  | unit (u : Nat)
  | range (first last : Nat)
  | kind (k : Kind) (negated : Bool)
  deriving DecidableEq, Repr

inductive Expr where
  | empty
  | unit (u : Nat)
  /-- Any unit but a line end. -/
  | any
  | oneOf (negated : Bool) (members : List Member)
  /-- The start of the text. -/
  | start
  /-- The end of the text. -/
  | stop
  /-- A place with a word on exactly one side; negated, any other place. -/
  | wordEdge (negated : Bool)
  | both (first second : Expr)
  | either (first second : Expr)
  /-- A part whose match is remembered under a number. -/
  | group (n : Nat) (body : Expr)
  /-- What follows must match, but is not used up. -/
  | ahead (body : Expr)
  /-- What a group has matched; nothing when it has not matched yet. -/
  | again (n : Nat)
  /-- A part several times in a row; `most` is none when there is no limit. -/
  | repeated (least : Nat) (most : Option Nat) (greedy : Bool) (body : Expr)
  deriving DecidableEq, Repr

/-- The numbers of the groups within an expression. -/
def Expr.groups : Expr → List Nat
  | both a b | either a b => a.groups ++ b.groups
  | group n body => n :: body.groups
  | ahead body | repeated _ _ _ body => body.groups
  | _ => []

/-! ## Units -/

def Kind.holds (u : Nat) : Kind → Bool
  | digit => 0x30 ≤ u && u ≤ 0x39
  | blank => isBlank (Char.ofNat u)
  | word => (0x30 ≤ u && u ≤ 0x39) || (0x41 ≤ u && u ≤ 0x5a) || (0x61 ≤ u && u ≤ 0x7a) || u = 0x5f

def sameLetter (u v : Nat) : Bool := u = v || Capital.ofUnit u = Capital.ofUnit v

/-- A range holds a unit when it holds any of those with the same capital. No kind has a unit apart
from another one of the same capital. -/
def Member.holds (u : Nat) : Member → Bool
  | unit v => sameLetter u v
  | range first last =>
    (first ≤ u && u ≤ last) || (Capital.alike u).any fun v => first ≤ v && v ≤ last
  | kind k negated => k.holds u != negated

/-! ## Matching -/

/-- A place in a text: how many units have been passed, the last of them, the units after it, and
what the groups have matched. -/
structure Place where
  passed : Nat
  previous : Option Nat
  rest : List Nat
  groups : List (Nat × List Nat) := []
  deriving DecidableEq, Repr

namespace Place

/-- The place after one unit that passes a test. -/
def pass? (p : Place) (test : Nat → Bool) : Option Place :=
  match p.rest with
  | u :: rest =>
    if test u then some { p with passed := p.passed + 1, previous := some u, rest } else none
  | [] => none

/-- The place after some units, whatever their case. -/
def passAll? (p : Place) (us : List Nat) : Option Place :=
  us.foldlM (fun p u => p.pass? (sameLetter u)) p

/-- Remembers what lies between two places as the match of a group. -/
def remember (n : Nat) (before after : Place) : Place :=
  let matched := before.rest.take (after.passed - before.passed)
  { after with groups := (n, matched) :: after.groups.filter (·.1 ≠ n) }

def forget (p : Place) (numbers : List Nat) : Place :=
  { p with groups := p.groups.filter fun g => !numbers.contains g.1 }

def matched (p : Place) (n : Nat) : List Nat :=
  ((p.groups.find? (·.1 = n)).map Prod.snd).getD []

/-- Whether a word is on exactly one side. -/
def isWordEdge (p : Place) : Bool :=
  p.previous.any (Kind.word.holds ·) != p.rest.head?.any (Kind.word.holds ·)

end Place

/-- A way to go on from a place; none when it does not lead to the end. -/
abbrev Way := Place → Option Place

/-- Takes a step exactly `n` times. -/
def times (step : Way → Way) : Nat → Way → Way
  | 0, next => next
  | n + 1, next => step (times step n next)

/-- Takes a step at most `n` times, as often as possible or as seldom. A step that does not move on
is not taken. -/
def atMost (step : Way → Way) (greedy : Bool) : Nat → Way → Way
  | 0, next, p => next p
  | n + 1, next, p =>
    let more (_ : Unit) := step (fun q =>
      if q.passed = p.passed then none else atMost step greedy n next q) p
    if greedy then (more ()).orElse fun _ => next p else (next p).orElse more

/-- The end that is reached from a place, first by way of the expression and then by `next`. -/
def Expr.follow : Expr → Way → Way
  | empty, next, p => next p
  | unit u, next, p => (p.pass? (sameLetter u)).bind next
  | any, next, p => (p.pass? fun u => !isLineEnd (Char.ofNat u)).bind next
  | oneOf negated members, next, p =>
    (p.pass? fun u => members.any (·.holds u) != negated).bind next
  | start, next, p => if p.previous.isNone then next p else none
  | stop, next, p => if p.rest.isEmpty then next p else none
  | wordEdge negated, next, p => if p.isWordEdge != negated then next p else none
  | both a b, next, p => a.follow (b.follow next) p
  | either a b, next, p => (a.follow next p).orElse fun _ => b.follow next p
  | group n body, next, p => body.follow (fun q => next (Place.remember n p q)) p
  | ahead body, next, p => (body.follow some p).bind fun q => next { p with groups := q.groups }
  | again n, next, p => (p.passAll? (p.matched n)).bind next
  | repeated least most greedy body, next, p =>
    let step : Way → Way := fun next q => body.follow next (q.forget body.groups)
    times step least (fun q =>
      let room := q.rest.length
      atMost step greedy (match most with
        | some most => min (most - least) room
        | none => room) next q) p

/-- Whether an expression matches from a place with a given unit before it, or from a later one. -/
def Expr.isFoundFrom (e : Expr) (previous : Option Nat) : List Nat → Bool
  | [] => (e.follow some ⟨0, previous, [], []⟩).isSome
  | u :: rest =>
    (e.follow some ⟨0, previous, u :: rest, []⟩).isSome || e.isFoundFrom (some u) rest

/-- Whether an expression matches somewhere in a text. -/
def Expr.isFoundIn (e : Expr) (t : Text) : Bool := e.isFoundFrom none t.units

/-! ## Faults -/

/-- Why a text is no expression. -/
inductive Fault where
  | loneBackslash
  | nothingToRepeat
  | limitsOutOfOrder
  | unclosedGroup
  | closeOutsideGroup
  | invalidGroup
  | unclosedBracket
  | rangeOutOfOrder
  deriving DecidableEq, Repr

def Fault.message : Fault → Text
  | loneBackslash => "\\ at end of pattern".toList
  | nothingToRepeat => "Nothing to repeat".toList
  | limitsOutOfOrder => "numbers out of order in \x7b\x7d quantifier".toList
  | unclosedGroup => "Unterminated group".toList
  | closeOutsideGroup => "Unmatched ')'".toList
  | invalidGroup => "Invalid group".toList
  | unclosedBracket => "Unterminated character class".toList
  | rangeOutOfOrder => "Range out of order in character class".toList

end PackageHistory.Regex
