import PackageHistory.Text.Basic

/-! # White space at the ends of a text -/

namespace PackageHistory

/-- White space: the ASCII controls from tab to carriage return, the space separators, the line and
paragraph separators and the byte order mark. -/
def isBlank (c : Char) : Bool :=
  let n := c.toNat
  (0x09 ≤ n && n ≤ 0x0d) || n = 0x20 || n = 0xa0 || n = 0x1680 || (0x2000 ≤ n && n ≤ 0x200a)
    || n = 0x2028 || n = 0x2029 || n = 0x202f || n = 0x205f || n = 0x3000 || n = 0xfeff

/-- Characters that end a line in running text. -/
def isLineEnd (c : Char) : Bool :=
  c = '\n' || c = '\r' || c = '\u2028' || c = '\u2029'

namespace Text

def trimStart (t : Text) : Text := t.dropWhile isBlank

def trimEnd (t : Text) : Text := (t.reverse.dropWhile isBlank).reverse

/-- The text without the white space at either end. -/
def trim (t : Text) : Text := t.trimStart.trimEnd

/-- Text that `trim` leaves as it is. -/
def Trimmed (t : Text) : Prop := t.trim = t

instance (t : Text) : Decidable t.Trimmed := inferInstanceAs (Decidable (t.trim = t))

@[simp] theorem trim_nil : trim [] = [] := rfl

/-- The trimmed lines of a text that are not empty. -/
def filledLines (t : Text) : List Text :=
  ((t.splitOn '\n').map trim).filter fun line => !line.isEmpty

/-- The first line of a text, both trimmed. -/
def firstLine (t : Text) : Text := ((t.trim.splitOn '\n').headD []).trim

end Text

end PackageHistory
