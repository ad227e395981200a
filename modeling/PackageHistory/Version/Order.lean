import PackageHistory.Text.Units
import PackageHistory.Version.Basic

/-! # The order of versions -/

namespace PackageHistory.Version

/-- Zeros at the end of digits that are read as a decimal fraction. -/
def stripZeros (digits : Text) : Text := (digits.reverse.dropWhile (· = '0')).reverse

/-- Components after the first. One with a leading zero makes both count as decimal fractions, else
they are numbers. -/
def compareComponent (a b : Text) : Ordering :=
  if a.head? = some '0' || b.head? = some '0' then Text.compare (stripZeros a) (stripZeros b)
  else compare (Text.digitsValue a) (Text.digitsValue b)

/-- The components after the first, one by one; of two lists that agree the shorter comes first. -/
def compareTail : List Text → List Text → Ordering
  | [], [] => .eq
  | [], _ :: _ => .lt
  | _ :: _, [] => .gt
  | a :: as, b :: bs => (compareComponent a b).then (compareTail as bs)

def compareComponents : List Text → List Text → Ordering
  | [], [] => .eq
  | [], _ :: _ => .lt
  | _ :: _, [] => .gt
  | a :: as, b :: bs =>
    (compare (Text.digitsValue a) (Text.digitsValue b)).then (compareTail as bs)

/-- No letter comes before any letter. -/
def compareLetter : Option Char → Option Char → Ordering
  | none, none => .eq
  | none, some _ => .lt
  | some _, none => .gt
  | some a, some b => compare a.toNat b.toNat

/-- Suffixes one by one. An additional patch comes after, any other additional suffix before. -/
def compareSuffixes : List (SuffixKind × Nat) → List (SuffixKind × Nat) → Ordering
  | [], [] => .eq
  | [], b :: _ => if b.1 = .p then .lt else .gt
  | a :: _, [] => if a.1 = .p then .gt else .lt
  | a :: as, b :: bs =>
    ((compare a.1.rank b.1.rank).then (compare a.2 b.2)).then (compareSuffixes as bs)

def compare (a b : Version) : Ordering :=
  (compareComponents a.components b.components).then <|
  (compareLetter a.letter b.letter).then <|
  (compareSuffixes a.suffixes b.suffixes).then <|
  Ord.compare a.revision b.revision

/-- Two texts that are not both versions. -/
structure Incomparable where
  left : Text
  right : Text
  deriving DecidableEq, Repr

def Incomparable.message (e : Incomparable) : Text :=
  "cannot compare invalid versions: '".toList ++ e.left ++ "', '".toList ++ e.right ++ "'".toList

def compareTexts (a b : Text) : Except Incomparable Ordering :=
  match parse? a, parse? b with
  | some v, some w => .ok (compare v w)
  | _, _ => .error ⟨a, b⟩

end PackageHistory.Version
