import PackageHistory.Text.Units

/-!
# Words that were meant

A word that is not known is compared with the known ones. The distance of two words is the least
number of characters to take out, put in or replace and of neighbours to swap, none of them twice.
-/

namespace PackageHistory.CommandLine

/-! ## Distance -/

/-- The distance of the first `i + 1` characters of one word from the first `j + 1` of another, from
the distances of shorter beginnings: `row` holds those of `i + 1` characters so far, `before` those
of `i` and `twoBefore` those of `i - 1`. -/
def cell (s t : List Nat) (i j : Nat) (twoBefore before row : List Nat) : Nat :=
  let replaced := before.getD j 0 + if s[i]? = t[j]? then 0 else 1
  let plain := min (min (before.getD (j + 1) 0 + 1) (row.getD j 0 + 1)) replaced
  if 0 < i && 0 < j && s[i]? = t[j - 1]? && s[i - 1]? = t[j]? then
    min plain (twoBefore.getD (j - 1) 0 + 1)
  else plain

/-- The distances of the first `i + 1` characters of one word from every beginning of another. -/
def nextRow (s t : List Nat) (i : Nat) (twoBefore before : List Nat) : List Nat :=
  (List.range t.length).foldl (fun row j => row ++ [cell s t i j twoBefore before row]) [i + 1]

def lastRow (s t : List Nat) : List Nat :=
  ((List.range s.length).foldl (fun (rows : List Nat × List Nat) i =>
    (rows.2, nextRow s t i rows.1 rows.2)) ([], List.range (t.length + 1))).2

/-- The distance of two words, counted in units of sixteen bits. -/
def distance (s t : Text) : Nat := (lastRow s.units t.units).getLastD 0

/-! ## Suggestions -/

/-- The greatest distance of a word that is suggested. -/
def farthest : Nat := 3

/-- Whether a known word is near enough to be meant: not too short, at most three steps away, and
more than two fifths of the longer word agree. -/
def isNear (word known : Text) : Bool :=
  let longer := max word.width known.width
  let apart := distance word known
  1 < known.width && apart ≤ farthest && 2 * longer < 5 * (longer - apart)

/-- The known words that are nearest to a word, in alphabetical order. -/
def nearest (word : Text) (known : List Text) : List Text :=
  let near := known.eraseDups.filter (isNear word)
  let best := (near.map (distance word)).foldl min farthest
  (near.filter fun k => distance word k = best).mergeSort Text.le

def dashes : Text := "--".toList

/-- The known words that may have been meant. Behind two dashes only what follows is compared, and
as many characters of the known words are left out. -/
def similar (word : Text) (known : List Text) : List Text :=
  match Text.stripStart? dashes word with
  | some name => (nearest name (known.map (·.drop dashes.length))).map (dashes ++ ·)
  | none => nearest word known

/-- The question whether one of some words was meant. -/
def question : List Text → Text
  | [] => []
  | [word] => "\n(Did you mean ".toList ++ word ++ "?)".toList
  | words => "\n(Did you mean one of ".toList ++ Text.join ", ".toList words ++ "?)".toList

end PackageHistory.CommandLine
