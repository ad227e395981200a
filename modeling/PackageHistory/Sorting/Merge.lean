import PackageHistory.Sorting.Search

/-!
# Merging two runs

Two sorted runs become one. Elements are taken one at a time until one run wins often in a row; then
whole stretches are looked for. Of equal elements those of the first run stay in front.
-/

namespace PackageHistory.Sorting

variable {α ε : Type}

/-- The end of the runs that a merge begins at. -/
inductive Side where
  | front | back
  deriving DecidableEq, Repr

namespace Side

def next? (xs : List α) : Side → Option α
  | front => xs.head?
  | back => xs.getLast?

def others (xs : List α) : Side → List α
  | front => xs.tail
  | back => xs.dropLast

/-- The place of the next element. -/
def hint (xs : List α) : Side → Nat
  | front => 0
  | back => xs.length - 1

/-- The stretch on this side of a turning point, and the rest. -/
def cut (n : Nat) (xs : List α) : Side → List α × List α
  | front => (xs.take n, xs.drop n)
  | back => (xs.drop n, xs.take n)

end Side

/-- What is left of two runs, and what is merged of them. -/
structure Merge (α : Type) where
  side : Side
  first : List α
  second : List α
  merged : List α := []

namespace Merge

def put (m : Merge α) (xs : List α) : Merge α :=
  { m with merged := match m.side with
      | .front => m.merged ++ xs
      | .back => xs ++ m.merged }

def takeFirst (m : Merge α) : Merge α :=
  { m.put (m.side.next? m.first).toList with first := m.side.others m.first }

def takeSecond (m : Merge α) : Merge α :=
  { m.put (m.side.next? m.second).toList with second := m.side.others m.second }

/-- Nothing is left to compare: one run is used up, or the other one is down to the element that is
known to come last. -/
def isSettled (m : Merge α) : Bool :=
  match m.side with
  | .front => m.first.length ≤ 1 || m.second.isEmpty
  | .back => m.second.length ≤ 1 || m.first.isEmpty

/-- The whole, once the merge is settled. -/
def whole (m : Merge α) : List α := (m.put (m.second ++ m.first)).merged

/-- How long a stretch is worth looking for. -/
def longStretch : Nat := 7

mutual

/-- Takes one element after another. One run has to win `patience` times in a row before stretches
are looked for. Gives the merged run and the patience for the next merge. -/
def inTurn (cmp : α → α → Except ε Ordering) :
    Nat → Merge α → Nat → Nat → Nat → Except ε (List α × Nat)
  | 0, m, _, _, patience => .ok (m.whole, patience)
  | fuel + 1, m, firstWins, secondWins, patience =>
    if m.isSettled then .ok (m.whole, patience)
    else match m.side.next? m.first, m.side.next? m.second with
      | some a, some b => do
        let less := (← cmp b a) == .lt
        if less == (m.side == .front) then
          if patience ≤ secondWins + 1 then inStretches cmp fuel m.takeSecond patience
          else inTurn cmp fuel m.takeSecond 0 (secondWins + 1) patience
        else if patience ≤ firstWins + 1 then inStretches cmp fuel m.takeFirst patience
        else inTurn cmp fuel m.takeFirst (firstWins + 1) 0 patience
      | _, _ => .ok (m.whole, patience)

/-- Takes the stretch of each run that comes before the next element of the other one. Long
stretches make it easier to come back to this, short ones harder. -/
def inStretches (cmp : α → α → Except ε Ordering) :
    Nat → Merge α → Nat → Except ε (List α × Nat)
  | 0, m, patience => .ok (m.whole, patience)
  | fuel + 1, m, patience => do
    if m.isSettled then return (m.whole, patience)
    let some b := m.side.next? m.second | return (m.whole, patience)
    let n ← gallop (fun x => return (← cmp b x) != .lt) m.first (m.side.hint m.first)
    let (ofFirst, first) := m.side.cut n m.first
    let m := { m.put ofFirst with first }
    if m.isSettled then return (m.whole, patience)
    let m := m.takeSecond
    if m.isSettled then return (m.whole, patience)
    let some a := m.side.next? m.first | return (m.whole, patience)
    let n ← gallop (fun x => return (← cmp x a) == .lt) m.second (m.side.hint m.second)
    let (ofSecond, second) := m.side.cut n m.second
    let m := { m.put ofSecond with second }
    if m.isSettled then return (m.whole, patience)
    let m := m.takeFirst
    if m.isSettled then return (m.whole, patience)
    if longStretch ≤ ofFirst.length || longStretch ≤ ofSecond.length then
      inStretches cmp fuel m (max 1 (patience - 1))
    else inTurn cmp fuel m 0 0 (patience + 1)

end

/-- Merges runs that overlap, from the end of the shorter one. -/
def overlapping (cmp : α → α → Except ε Ordering) (first second : List α) (patience : Nat) :
    Except ε (List α × Nat) :=
  let m : Merge α :=
    if first.length ≤ second.length then takeSecond ⟨.front, first, second, []⟩
    else takeFirst ⟨.back, first, second, []⟩
  inTurn cmp (first.length + second.length) m 0 0 patience

end Merge

/-- Merges two runs. What comes before or behind all of the other run stays where it is. -/
def merge (cmp : α → α → Except ε Ordering) (first second : List α) (patience : Nat) :
    Except ε (List α × Nat) := do
  let some b := second.head? | return (first, patience)
  let start ← gallop (fun x => return (← cmp b x) != .lt) first 0
  let some a := (first.drop start).getLast? | return (first ++ second, patience)
  let stop ← gallop (fun y => return (← cmp y a) == .lt) second (second.length - 1)
  if stop = 0 then return (first ++ second, patience)
  let (middle, patience) ← Merge.overlapping cmp (first.drop start) (second.take stop) patience
  return (first.take start ++ middle ++ second.drop stop, patience)

end PackageHistory.Sorting
