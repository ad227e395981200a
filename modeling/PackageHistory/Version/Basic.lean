import PackageHistory.Text.Basic

/-!
# Versions of ebuilds

A version is written as dotted numbers, perhaps a letter, any number of suffixes and perhaps a
revision: `1.2.10b_rc2-r1`. A `Spelling` keeps every digit of the text, a `Version` only what its
order rests on.
-/

namespace PackageHistory

/-! ## Suffixes -/

inductive SuffixKind where
  | alpha | beta | pre | rc | p
  deriving DecidableEq, Repr

namespace SuffixKind

def all : List SuffixKind := [alpha, beta, pre, rc, p]

def name : SuffixKind → Text
  | alpha => "alpha".toList
  | beta => "beta".toList
  | pre => "pre".toList
  | rc => "rc".toList
  | p => "p".toList

def ofName? (t : Text) : Option SuffixKind := all.find? fun k => k.name = t

theorem ofName?_eq_some_iff {t : Text} {k : SuffixKind} : ofName? t = some k ↔ k.name = t := by
  constructor
  · intro h; simpa using List.find?_some h
  · rintro rfl; cases k <;> decide

/-- The place of a suffix among releases: pre-releases in order, then patches. -/
def rank : SuffixKind → Nat
  | alpha => 0
  | beta => 1
  | pre => 2
  | rc => 3
  | p => 4

end SuffixKind

/-! ## How a version is written -/

namespace Version

structure Spelling where
  /-- The digits between the dots. -/
  components : List Text
  letter : Option Char
  /-- Each suffix with its digits, which may be missing. -/
  suffixes : List (SuffixKind × Text)
  revision : Option Text
  deriving DecidableEq, Repr

namespace Spelling

structure WellFormed (s : Spelling) : Prop where
  components_ne_nil : s.components ≠ []
  component_digits : ∀ c ∈ s.components, Text.isDigits c = true
  letter_lower : ∀ c, s.letter = some c → c.isLower = true
  suffix_digits : ∀ x ∈ s.suffixes, x.2.all Char.isDigit = true
  revision_digits : ∀ r, s.revision = some r → Text.isDigits r = true

def renderSuffix (x : SuffixKind × Text) : Text := '_' :: x.1.name ++ x.2

def renderRevision : Option Text → Text
  | none => []
  | some digits => '-' :: 'r' :: digits

def render (s : Spelling) : Text :=
  Text.join ['.'] s.components ++ s.letter.toList ++ s.suffixes.flatMap renderSuffix
    ++ renderRevision s.revision

/-! ### Reading -/

def readSuffix? (piece : Text) : Option (SuffixKind × Text) :=
  let (word, digits) := piece.span Char.isLower
  match SuffixKind.ofName? word with
  | some kind => if digits.all Char.isDigit then some (kind, digits) else none
  | none => none

def readSuffixes? : Text → Option (List (SuffixKind × Text))
  | [] => some []
  | '_' :: rest => (Text.splitOn '_' rest).mapM readSuffix?
  | _ => none

def readRevision? : Text → Option (Option Text)
  | [] => some none
  | '-' :: 'r' :: digits => if Text.isDigits digits then some (some digits) else none
  | _ => none

/-- Reads the longest run of digits and dots, a letter, suffixes up to a dash and a revision. -/
def parse? (t : Text) : Option Spelling :=
  let (numeric, rest) := t.span fun c => c.isDigit || c = '.'
  let components := numeric.splitOn '.'
  let (letter, rest) := match rest with
    | c :: more => if c.isLower then (some c, more) else (none, c :: more)
    | [] => (none, [])
  let (suffixText, revisionText) := rest.span (· ≠ '-')
  if components.all Text.isDigits then
    match readSuffixes? suffixText, readRevision? revisionText with
    | some suffixes, some revision => some { components, letter, suffixes, revision }
    | _, _ => none
  else none

end Spelling

end Version

/-! ## Versions -/

structure Version where
  /-- Digits as written, since a leading zero changes how a component is compared. -/
  components : List Text
  letter : Option Char
  suffixes : List (SuffixKind × Nat)
  revision : Nat
  deriving DecidableEq, Repr

namespace Version

/-- What a spelling stands for: numbers that are left out are zero. -/
def ofSpelling (s : Spelling) : Version where
  components := s.components
  letter := s.letter
  suffixes := s.suffixes.map fun x => (x.1, Text.digitsValue x.2)
  revision := match s.revision with
    | some digits => Text.digitsValue digits
    | none => 0

def parse? (t : Text) : Option Version := (Spelling.parse? t).map ofSpelling

def isValid (t : Text) : Bool := (parse? t).isSome

/-- The text of a version without its revision. -/
def withoutRevision (t : Text) : Text :=
  match Spelling.parse? t with
  | some s => { s with revision := none : Spelling }.render
  | none => t

/-- The revision of a version, zero when it has none. -/
def revisionOf (t : Text) : Nat :=
  match parse? t with
  | some v => v.revision
  | none => 0

end Version

end PackageHistory
