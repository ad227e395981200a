/-!
# Binary floating point numbers of 64 bits

Finite magnitudes are kept as a mantissa and a power of two, and everything is computed on natural
numbers, so rounding can be reasoned about.
-/

namespace PackageHistory.Binary64

/-- The power of a natural number, by a name that means the same in every context. -/
def power (base exponent : Nat) : Nat := base.pow exponent

theorem power_pos {base : Nat} (h : 0 < base) (exponent : Nat) : 0 < power base exponent :=
  Nat.pow_pos h

/-- The quotient rounded to the nearest natural number, a half to the even neighbour. -/
def roundDiv (num den : Nat) : Nat :=
  let quotient := num / den
  let twice := 2 * (num % den)
  if twice < den then quotient
  else if den < twice then quotient + 1
  else if quotient % 2 = 0 then quotient
  else quotient + 1

/-- `mantissa * 2 ^ exponent`, with `2 ^ 52 ≤ mantissa < 2 ^ 53` unless the exponent is the least
one, `-1074`. -/
structure Magnitude where
  mantissa : Nat
  exponent : Int
  deriving DecidableEq, Repr

/-- `num * 2 ^ e / den`, kept as a fraction. -/
def scale (num den : Nat) (e : Int) : Nat × Nat :=
  if 0 ≤ e then (num * power 2 e.toNat, den) else (num, den * power 2 (-e).toNat)

/-- The magnitude nearest to a quotient; none when it is beyond the largest one. -/
def nearest (num den : Nat) : Option Magnitude :=
  if num = 0 then some ⟨0, -1074⟩
  else
    let guess : Int := (num.log2 : Int) - den.log2
    let (n, d) := scale num den (-guess)
    let log := if d ≤ n then guess else guess - 1
    let exponent := max (log - 52) (-1074)
    let (n, d) := scale num den (-exponent)
    let mantissa := roundDiv n d
    let found : Magnitude :=
      if mantissa = power 2 53 then ⟨power 2 52, exponent + 1⟩ else ⟨mantissa, exponent⟩
    if 971 < found.exponent then none else some found

/-- The 64 bits of a magnitude, without the sign. -/
def Magnitude.bits (m : Magnitude) : Nat :=
  if m.mantissa < power 2 52 then m.mantissa
  else (m.exponent + 1075).toNat * power 2 52 + (m.mantissa - power 2 52)

/-- The bits of the number nearest to an integer, infinity beyond the largest one. -/
def bitsOfInt (n : Int) : Nat :=
  let magnitude := match nearest n.natAbs 1 with
    | some m => m.bits
    | none => 2047 * power 2 52
  if n < 0 then power 2 63 + magnitude else magnitude

/-- A natural number rounded to 53 significant bits. -/
def roundNat (n : Nat) : Nat :=
  if n < power 2 53 then n
  else
    let unit := power 2 (n.log2 - 52)
    roundDiv n unit * unit

/-- An integer rounded to 53 significant bits. -/
def round : Int → Int
  | .ofNat n => roundNat n
  | .negSucc n => -roundNat (n + 1)

end PackageHistory.Binary64
