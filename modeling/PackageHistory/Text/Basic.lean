/-! # Text: lists of characters, cut, joined and counted -/

namespace PackageHistory

/-- Text is read from the left, one character at a time. -/
abbrev Text := List Char

namespace Text

/-! ## Cutting and joining -/

/-- The pieces between the occurrences of a character; there is always at least one. -/
def splitOn (sep : Char) : Text → List Text
  | [] => [[]]
  | c :: cs =>
    if c = sep then [] :: splitOn sep cs
    else match splitOn sep cs with
      | [] => [[c]]
      | piece :: pieces => (c :: piece) :: pieces

theorem splitOn_ne_nil (sep : Char) (t : Text) : splitOn sep t ≠ [] := by
  induction t with
  | nil => simp [splitOn]
  | cons c cs ih =>
    simp only [splitOn]
    split
    · simp
    · split <;> simp

/-- The pieces with the separator between each two. -/
def join (sep : Text) (pieces : List Text) : Text := sep.intercalate pieces

/-- Joining the pieces with the separator they were cut at gives the text back. -/
theorem join_splitOn (sep : Char) (t : Text) : join [sep] (splitOn sep t) = t := by
  induction t with
  | nil => rfl
  | cons c cs ih =>
    simp only [splitOn]
    have hne := splitOn_ne_nil sep cs
    split
    · next h =>
      subst h
      cases hs : splitOn c cs with
      | nil => exact absurd hs hne
      | cons p ps =>
        rw [hs] at ih
        simpa [join, List.intercalate] using ih
    · cases hs : splitOn sep cs with
      | nil => exact absurd hs hne
      | cons p ps =>
        rw [hs] at ih
        cases ps with
        | nil => simpa [join, List.intercalate] using ih
        | cons q qs => simpa [join, List.intercalate] using ih

/-- No piece holds the separator. -/
theorem not_mem_of_mem_splitOn {sep : Char} {t piece : Text} (h : piece ∈ splitOn sep t) :
    sep ∉ piece := by
  induction t generalizing piece with
  | nil => simp [splitOn] at h; simp [h]
  | cons c cs ih =>
    simp only [splitOn] at h
    split at h
    · rcases List.mem_cons.mp h with rfl | h
      · simp
      · exact ih h
    · next hc =>
      split at h
      · next hs => exact absurd hs (splitOn_ne_nil sep cs)
      · next p ps hs =>
        rcases List.mem_cons.mp h with rfl | h
        · have : sep ∉ p := ih (by simp [hs])
          simp only [List.mem_cons, not_or]
          exact ⟨fun e => hc e.symm, this⟩
        · exact ih (by simp [hs, h])

/-- What follows `start`, when the text begins with it. -/
def stripStart? : Text → Text → Option Text
  | [], t => some t
  | _ :: _, [] => none
  | s :: start, c :: t => if s = c then stripStart? start t else none

theorem stripStart?_eq_some_iff {start t rest : Text} :
    stripStart? start t = some rest ↔ t = start ++ rest := by
  induction start generalizing t with
  | nil => simp [stripStart?, eq_comm]
  | cons s start ih =>
    cases t with
    | nil => simp [stripStart?]
    | cons c t =>
      by_cases h : s = c
      · simp [stripStart?, h, ih]
      · simpa [stripStart?, h] using fun e => absurd e.symm h

/-- What stands before `ending`, when the text ends with it. -/
def stripEnd? (ending t : Text) : Option Text :=
  (stripStart? ending.reverse t.reverse).map List.reverse

theorem stripEnd?_eq_some_iff {ending t rest : Text} :
    stripEnd? ending t = some rest ↔ t = rest ++ ending := by
  simp only [stripEnd?, Option.map_eq_some_iff, stripStart?_eq_some_iff]
  constructor
  · rintro ⟨r, h, rfl⟩
    have := congrArg List.reverse h
    simpa using this
  · rintro rfl
    exact ⟨rest.reverse, by simp, by simp⟩

/-! ## Digits -/

/-- The digits of a natural number, without leading zeros. -/
def ofNat (n : Nat) : Text := Nat.toDigits 10 n

/-- The digits of an integer behind its sign. -/
def ofInt : Int → Text
  | .ofNat n => ofNat n
  | .negSucc n => '-' :: ofNat (n + 1)

/-- The value of decimal digits; leading zeros count for nothing. -/
def digitsValue (t : Text) : Nat :=
  t.foldl (fun acc c => 10 * acc + (c.toNat - '0'.toNat)) 0

/-- The value of a hexadecimal digit of either case. -/
def hexValue? (c : Char) : Option Nat :=
  if c.isDigit then some (c.toNat - '0'.toNat)
  else if 'a' ≤ c && c ≤ 'f' then some (c.toNat - 'a'.toNat + 10)
  else if 'A' ≤ c && c ≤ 'F' then some (c.toNat - 'A'.toNat + 10)
  else none

/-- One or more ASCII digits and nothing else. -/
def isDigits (t : Text) : Bool := !t.isEmpty && t.all Char.isDigit

end Text

end PackageHistory
