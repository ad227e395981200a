import PackageHistory.ShortestDecimal

/-!
# Numbers

Floating point numbers of 64 bits. The whole ones are kept as integers. Every finite number is a
multiple of the least unit, `2 ^ -1074`, so order and sums are those of integers, and only the
result of a sum is rounded.
-/

namespace PackageHistory

open Binary64

/-- A number: the floating point number nearest to what was written or added up. -/
inductive Number where
  | integer (n : Int)
  | fraction (negative : Bool) (magnitude : Magnitude)
  | infinite (negative : Bool)
  deriving DecidableEq, Repr

namespace Number

instance (n : Nat) : OfNat Number n := ⟨.integer n⟩

instance : Inhabited Number := ⟨0⟩

/-! ## Made of digits -/

/-- The number of a magnitude; whole ones become integers. -/
def ofMagnitude (negative : Bool) (m : Magnitude) : Number :=
  let unit := scale 1 1 m.exponent
  if m.mantissa * unit.1 % unit.2 = 0 then
    let n : Int := (m.mantissa * unit.1 / unit.2 : Nat)
    .integer (if negative then -n else n)
  else .fraction negative m

/-- The number nearest to a quotient. -/
def ofQuotient (negative : Bool) (num den : Nat) : Number :=
  match nearest num den with
  | some m => ofMagnitude negative m
  | none => .infinite negative

/-- The number nearest to `digits * 10 ^ exponent`. Exponents out of reach, whatever the digits,
are decided at once. -/
def ofDecimal (negative : Bool) (digits : Text) (exponent : Int) : Number :=
  let digits := digits.dropWhile (· = '0')
  let point : Int := digits.length + exponent
  if digits.isEmpty || point < -400 then 0
  else if 400 < point then .infinite negative
  else
    ofQuotient negative (Text.digitsValue digits * power 10 exponent.toNat)
      (power 10 (-exponent).toNat)

/-! ## Written -/

def signed (negative : Bool) (t : Text) : Text := if negative then '-' :: t else t

/-- Integers that are held exactly are written with all their digits, other numbers with the fewest
that read back. -/
def text : Number → Text
  | .integer n =>
    if n.natAbs < power 2 53 then Text.ofInt n
    else match nearest n.natAbs 1 with
      | some m => signed (n < 0) (ShortestDecimal.text m)
      | none => signed (n < 0) "Infinity".toList
  | .fraction negative m => signed negative (ShortestDecimal.text m)
  | .infinite negative => signed negative "Infinity".toList

/-! ## Order -/

/-- How often the least unit is doubled to make one. -/
def doublings : Nat := 1074

/-- How many of the least units make one. -/
def unitsOfOne : Nat := power 2 doublings

/-- The number in least units. Infinity is one step beyond the largest magnitude. -/
def units : Number → Int
  | .integer n => n * unitsOfOne
  | .fraction negative m =>
    let size : Int := (m.mantissa * power 2 (m.exponent + doublings).toNat : Nat)
    if negative then -size else size
  | .infinite negative => (if negative then -1 else 1) * (power 2 1024 * unitsOfOne : Nat)

instance : LT Number := ⟨fun a b => a.units < b.units⟩

instance : LE Number := ⟨fun a b => a.units ≤ b.units⟩

instance (a b : Number) : Decidable (a < b) := inferInstanceAs (Decidable (a.units < b.units))

instance (a b : Number) : Decidable (a ≤ b) := inferInstanceAs (Decidable (a.units ≤ b.units))

instance : Ord Number := ⟨fun a b => compare a.units b.units⟩

theorem unitsOfOne_pos : 0 < unitsOfOne := power_pos (by decide) doublings

/-- Integers are ordered as integers. -/
@[simp] theorem integer_lt_integer {m n : Int} : (integer m < integer n) ↔ m < n :=
  Int.mul_lt_mul_right (by exact_mod_cast unitsOfOne_pos)

@[simp] theorem integer_le_integer {m n : Int} : (integer m ≤ integer n) ↔ m ≤ n :=
  Int.mul_le_mul_right (by exact_mod_cast unitsOfOne_pos)

/-! ## Arithmetic -/

/-- The integer part: what is left when the digits behind the point are dropped. -/
def whole (a : Number) : Int :=
  match a with
  | .integer n => n
  | a => a.units.tdiv unitsOfOne

/-- The least natural number that is not below. -/
def count (a : Number) : Nat :=
  if integer a.whole < a then a.whole.toNat + 1 else a.whole.toNat

/-- The sum with an integer, rounded to the nearest number. -/
def plus (a : Number) (n : Int) : Number :=
  match a with
  | .integer m => .integer (Binary64.round (m + n))
  | .infinite negative => .infinite negative
  | a =>
    let sum := a.units + n * unitsOfOne
    ofQuotient (sum < 0) sum.natAbs unitsOfOne

end Number

end PackageHistory
