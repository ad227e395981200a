import PackageHistory.Number

/-!
# Text in units of sixteen bits

Widths count the 16-bit units of a text, and texts are ordered by these units. A character beyond
`U+FFFF` takes two units, both of the range that lies between `U+D7FF` and `U+E000`, so it comes
before the characters from `U+E000` on.
-/

namespace PackageHistory

/-- How many units a character takes. -/
def unitCount (c : Char) : Nat := if c.toNat < 0x10000 then 1 else 2

/-- The place of a character in the order of units. -/
def unitRank (c : Char) : Nat :=
  if c.toNat < 0xd800 then c.toNat
  else if c.toNat < 0x10000 then c.toNat + 0x100000
  else c.toNat - 0x2800

/-- The units of one character, two halves beyond `U+FFFF`. -/
def unitsOf (c : Char) : List Nat :=
  if c.toNat < 0x10000 then [c.toNat]
  else [0xd800 + (c.toNat - 0x10000) / 0x400, 0xdc00 + (c.toNat - 0x10000) % 0x400]

namespace Text

def units (t : Text) : List Nat := t.flatMap unitsOf

/-! ## Widths -/

def width (t : Text) : Nat := t.foldr (fun c n => unitCount c + n) 0

/-- The longest beginning of at most `n` units. -/
def takeUnits : Nat → Text → Text
  | _, [] => []
  | n, c :: cs => if unitCount c ≤ n then c :: takeUnits (n - unitCount c) cs else []

/-- The largest width that a text can have, 24 below the 29th power of two. -/
def longest : Nat := 536870888

def padEnd (t : Text) (n : Nat) : Text := t ++ List.replicate (n - t.width) ' '

def padStart (t : Text) (n : Nat) : Text := List.replicate (n - t.width) ' ' ++ t

/-- The units before a place. A place below zero counts from the end. -/
def before (t : Text) (place : Int) : Text :=
  t.takeUnits (if 0 ≤ place then place.toNat else (t.width + place).toNat)

/-- The text itself when it is at most `n` units wide, else its beginning and three dots, `n` units
in all. Below three units there is no room for the dots: then as many units as are lacking are
dropped from the end instead. -/
def truncate (t : Text) (n : Number) : Text :=
  if .integer t.width ≤ n then t else t.before (n.plus (-3)).whole ++ "...".toList

/-! ## Order -/

/-- Lexicographic order on units. -/
def compare : Text → Text → Ordering
  | [], [] => .eq
  | [], _ :: _ => .lt
  | _ :: _, [] => .gt
  | a :: s, b :: t => (Ord.compare (unitRank a) (unitRank b)).then (compare s t)

def le (s t : Text) : Bool := compare s t != .gt

/-- The texts in ascending order, each once. -/
def sortDistinct (ts : List Text) : List Text := ts.eraseDups.mergeSort le

end Text

end PackageHistory
