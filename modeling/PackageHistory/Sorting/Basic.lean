import PackageHistory.Sorting.Merge

/-!
# Sorting with a comparison that may fail

A list is cut into runs that are sorted already. A descending run is turned round, a short one is
made longer by inserting the elements that follow, and neighbouring runs are merged as soon as their
lengths come close. Equal elements keep their order. Which pairs are compared, and so which failure
comes first, follows from this alone.
-/

namespace PackageHistory.Sorting

variable {α ε : Type} (cmp : α → α → Except ε Ordering)

/-! ## Runs -/

/-- The length of the run that goes on from `previous`. -/
def runLength (descending : Bool) (previous : α) : List α → Except ε Nat
  | [] => .ok 0
  | next :: rest => do
    let order ← cmp next previous
    if (order == .lt) == descending then return (← runLength descending next rest) + 1
    else return 0

/-- The run that a list begins with, ascending, and what follows it. -/
def cutRun : List α → Except ε (List α × List α)
  | x :: y :: rest => do
    let descending := (← cmp y x) == .lt
    let count := (← runLength cmp descending y rest) + 2
    let (run, rest) := (x :: y :: rest).splitAt count
    return (if descending then run.reverse else run, rest)
  | xs => .ok (xs, [])

/-- Inserts elements into a sorted run, each behind those that are not greater. -/
def insertAll (run : List α) : List α → Except ε (List α)
  | [] => .ok run
  | x :: rest => do
    let place ← halve (fun y => return (← cmp x y) != .lt) run 0 run.length
    insertAll (run.take place ++ x :: run.drop place) rest

/-- The length that runs are brought to. It leaves lists of fewer than 64 elements whole, and halves
longer ones until they are, rounding up when a half was lost. -/
def leastRun (n : Nat) (rounded : Bool := false) : Nat :=
  if n < 64 then n + rounded.toNat else leastRun (n / 2) (rounded || n % 2 = 1)

/-! ## Pending runs -/

/-- Runs that are still to be merged, the last one first. -/
structure Pending (α : Type) where
  runs : List (List α) := []
  /-- How often one run has to win in a row before whole stretches are looked for. -/
  patience : Nat := Merge.longStretch

namespace Pending

/-- Merges two neighbours among the runs, those in `later` aside. -/
def mergeInto (p : Pending α) (later : List (List α)) (first second : List α)
    (earlier : List (List α)) : Except ε (Pending α) := do
  let (merged, patience) ← merge cmp first second p.patience
  return ⟨later ++ merged :: earlier, patience⟩

/-- Merges until each run is longer than the next two together, as far as the last four show. -/
def settle : Nat → Pending α → Except ε (Pending α)
  | 0, p => .ok p
  | fuel + 1, p =>
    match p.runs with
    | c :: b :: a :: rest => do
      let spaced := b.length + c.length < a.length
        && rest.head?.all fun z => a.length + b.length < z.length
      if !spaced && a.length < c.length then settle fuel (← p.mergeInto cmp [c] a b rest)
      else if !spaced || b.length ≤ c.length then settle fuel (← p.mergeInto cmp [] b c (a :: rest))
      else return p
    | [c, b] => do
      if b.length ≤ c.length then settle fuel (← p.mergeInto cmp [] b c []) else return p
    | _ => .ok p

/-- Merges all runs, the shorter neighbour of the last but one first. -/
def mergeAll : Nat → Pending α → Except ε (List α)
  | 0, p => .ok p.runs.reverse.flatten
  | fuel + 1, p =>
    match p.runs with
    | c :: b :: a :: rest => do
      if a.length < c.length then mergeAll fuel (← p.mergeInto cmp [c] a b rest)
      else mergeAll fuel (← p.mergeInto cmp [] b c (a :: rest))
    | [c, b] => do mergeAll fuel (← p.mergeInto cmp [] b c [])
    | runs => .ok runs.flatten

end Pending

/-! ## Sorting -/

/-- Cuts runs of at least a given length off a list and merges them as they come. -/
def gather (least : Nat) : Nat → Pending α → List α → Except ε (Pending α)
  | 0, p, _ | _, p, [] => .ok p
  | fuel + 1, p, xs => do
    let (run, rest) ← cutRun cmp xs
    let (more, rest) := rest.splitAt (least - run.length)
    let run ← insertAll cmp run more
    let p ← Pending.settle cmp (p.runs.length + 1) { p with runs := run :: p.runs }
    gather least fuel p rest

def sort (xs : List α) : Except ε (List α) := do
  let p ← gather cmp (leastRun xs.length) xs.length {} xs
  Pending.mergeAll cmp p.runs.length p

end PackageHistory.Sorting
