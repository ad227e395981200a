/-!
# Looking for a turning point

A test that holds for the first elements of a list, and for none after them, has its turning point
behind the last one that passes. Only a few elements are looked at to find it. The test may fail, so
which ones these are can be seen from outside.
-/

namespace PackageHistory.Sorting

variable {α ε : Type}

/-- Tests the element at a place. -/
def passesAt (passes : α → Except ε Bool) (xs : List α) (i : Nat) : Except ε Bool :=
  match xs[i]? with
  | some x => passes x
  | none => .ok false

/-- Finds the turning point among `gap` places from `low` on, by halving. -/
def halve (passes : α → Except ε Bool) (xs : List α) (low gap : Nat) : Except ε Nat :=
  if gap = 0 then .ok low
  else do
    let half := gap / 2
    if ← passesAt passes xs (low + half) then
      halve passes xs (low + half + 1) (gap - half - 1)
    else halve passes xs low half
termination_by gap

/-- Goes on in strides that double, at most up to `limit`. Gives the last distance that could be
gone beyond and the first one that could not. -/
def stride (goesOn : Nat → Except ε Bool) (limit : Nat) :
    Nat → Nat → Nat → Except ε (Nat × Nat)
  | 0, near, _ => .ok (near, limit)
  | fuel + 1, near, far =>
    if limit ≤ far then .ok (near, limit)
    else do
      if ← goesOn far then stride goesOn limit fuel far (2 * far + 1) else return (near, far)

/-- Finds the turning point from a place near to it: first in strides away from that place, then by
halving. -/
def gallop (passes : α → Except ε Bool) (xs : List α) (hint : Nat) : Except ε Nat := do
  let limit := xs.length
  if ← passesAt passes xs hint then
    let (near, far) ← stride (fun n => passesAt passes xs (hint + n)) (limit - hint) limit 0 1
    halve passes xs (hint + near + 1) (far - near - 1)
  else
    let goesOn (n : Nat) : Except ε Bool := return !(← passesAt passes xs (hint - n))
    let (near, far) ← stride goesOn (hint + 1) limit 0 1
    halve passes xs (hint + 1 - far) (far - near - 1)

end PackageHistory.Sorting
