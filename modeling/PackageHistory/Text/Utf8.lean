import PackageHistory.Text.Basic

/-!
# Text from bytes

Bytes are read one at a time as UTF-8. A character that is begun says how many bytes are to follow
and in which range the next one lies; where the bytes break that promise, what was begun is replaced
as a whole and the byte that broke it begins anew.
-/

namespace PackageHistory.Utf8

/-- What stands for bytes that form no character. -/
def replacement : Char := '\ufffd'

/-- A character that is begun. -/
structure Pending where
  /-- The bits read so far. -/
  value : Nat
  /-- How many bytes are to follow. -/
  missing : Nat
  /-- The least value of the next byte. -/
  low : Nat
  /-- The greatest value of the next byte. -/
  high : Nat
  deriving DecidableEq, Repr

/-- Reads the first byte of a character. The range of the second byte leaves out spellings that are
too long, halves of characters and values beyond the last character. -/
def first (b : Nat) : Text × Option Pending :=
  if b < 0x80 then ([Char.ofNat b], none)
  else if b < 0xc2 then ([replacement], none)
  else if b < 0xe0 then ([], some ⟨b - 0xc0, 1, 0x80, 0xbf⟩)
  else if b < 0xf0 then
    let low := if b = 0xe0 then 0xa0 else 0x80
    let high := if b = 0xed then 0x9f else 0xbf
    ([], some ⟨b - 0xe0, 2, low, high⟩)
  else if b < 0xf5 then
    let low := if b = 0xf0 then 0x90 else 0x80
    let high := if b = 0xf4 then 0x8f else 0xbf
    ([], some ⟨b - 0xf0, 3, low, high⟩)
  else ([replacement], none)

/-- Reads a byte; gives the characters that end with it and the one that is begun. -/
def feed (begun : Option Pending) (b : Nat) : Text × Option Pending :=
  match begun with
  | none => first b
  | some p =>
    if p.low ≤ b && b ≤ p.high then
      let value := p.value * 0x40 + (b - 0x80)
      if p.missing ≤ 1 then ([Char.ofNat value], none)
      else ([], some ⟨value, p.missing - 1, 0x80, 0xbf⟩)
    else
      let (t, begun) := first b
      (replacement :: t, begun)

def decodeFrom : Option Pending → List UInt8 → Text
  | none, [] => []
  | some _, [] => [replacement]
  | begun, b :: bytes =>
    let (t, begun) := feed begun b.toNat
    t ++ decodeFrom begun bytes

def decode (bytes : List UInt8) : Text := decodeFrom none bytes

/-! ## Bytes that break off -/

/-- How long a character is that begins with a byte. -/
def lengthFrom (b : Nat) : Nat :=
  if b < 0xc0 then 1 else if b < 0xe0 then 2 else if b < 0xf0 then 3 else if b < 0xf8 then 4 else 1

/-- The bytes without a character at their end of which bytes are missing. -/
def dropUnfinished (bytes : List UInt8) : List UInt8 :=
  let back := bytes.reverse
  let following := back.takeWhile fun b => 0x80 ≤ b.toNat && b.toNat < 0xc0
  match back.drop following.length with
  | b :: before =>
    if following.length < 3 && following.length + 1 < lengthFrom b.toNat then before.reverse
    else bytes
  | [] => bytes

end PackageHistory.Utf8
