import PackageHistory.Binary64
import PackageHistory.Text.Basic

/-!
# The shortest decimal that reads back

A magnitude is written with the fewest decimal digits that are nearer to it than to any other
magnitude; among those of that length the nearest is taken, of two equally near ones the even one.
-/

namespace PackageHistory.ShortestDecimal

open Binary64

/-- The reals that round to a magnitude, and the magnitude itself, as numerators over one
denominator. -/
structure Reach where
  low : Nat
  value : Nat
  high : Nat
  den : Nat
  /-- The ends round to the magnitude too. -/
  closed : Bool

/-- Half way to the neighbours on either side; below a power of two the neighbour is nearer. -/
def reach (m : Magnitude) : Reach :=
  let below := if m.mantissa = power 2 52 && -1074 < m.exponent then 1 else 2
  let unit := scale 1 1 (m.exponent - 2)
  { low := (4 * m.mantissa - below) * unit.1
    value := 4 * m.mantissa * unit.1
    high := (4 * m.mantissa + 2) * unit.1
    den := unit.2
    closed := m.mantissa % 2 = 0 }

/-- The number of digits before the point; zero or less when zeros follow the point. -/
def pointOf (r : Reach) : Int :=
  if r.den ≤ r.value then (Nat.toDigits 10 (r.value / r.den)).length
  else 1 - (Nat.toDigits 10 (r.den / r.value)).length

/-- The best multiple of `10 ^ grid` that reads back, if there is one. -/
def onGrid (r : Reach) (grid : Int) : Option Nat :=
  let up := power 10 (-grid).toNat
  let den := r.den * power 10 grid.toNat
  let low := r.low * up
  let value := r.value * up
  let high := r.high * up
  let fits (c : Nat) : Bool :=
    if r.closed then low ≤ c * den && c * den ≤ high else low < c * den && c * den < high
  let floor := value / den
  let ceiling := floor + 1
  let toFloor := value - floor * den
  let toCeiling := ceiling * den - value
  match fits floor, fits ceiling with
  | false, false => none
  | true, false => some floor
  | false, true => some ceiling
  | true, true =>
    if toFloor < toCeiling then some floor
    else if toCeiling < toFloor then some ceiling
    else if floor % 2 = 0 then some floor else some ceiling

/-- The digits of a positive magnitude and the place of the point among them. -/
def digits (m : Magnitude) : Text × Int :=
  let r := reach m
  let point := pointOf r
  let found := (List.range 17).findSome? fun (k : Nat) =>
    let grid := point - k - 1
    (onGrid r grid).map fun c => (c, grid)
  let (c, grid) := found.getD (0, 0)
  let ds := Text.ofNat c
  ((ds.reverse.dropWhile (· = '0')).reverse, (ds.length : Int) + grid)

/-- Digits around a point: positional from `10 ^ -7` up to `10 ^ 21`, else with an exponent. -/
def layOut (ds : Text) (point : Int) : Text :=
  let count : Int := ds.length
  if count ≤ point && point ≤ 21 then ds ++ List.replicate (point - count).toNat '0'
  else if 0 < point && point ≤ 21 then ds.take point.toNat ++ '.' :: ds.drop point.toNat
  else if -6 < point && point ≤ 0 then
    "0.".toList ++ List.replicate (-point).toNat '0' ++ ds
  else
    let power := point - 1
    let sign := if 0 ≤ power then '+' else '-'
    let mantissa := match ds with
      | [] => []
      | [d] => [d]
      | d :: more => d :: '.' :: more
    mantissa ++ 'e' :: sign :: Text.ofNat power.natAbs

/-- The text of a positive magnitude. -/
def text (m : Magnitude) : Text :=
  let (ds, point) := digits m
  layOut ds point

end PackageHistory.ShortestDecimal
