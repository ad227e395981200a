import PackageHistory.Commit
import PackageHistory.Number
import PackageHistory.OrderedMap

/-!
# Package history

A record tells of one change of one package version. Records are kept by category, package and
status, oldest first. Ordinals of commits are numbers; a history that was merged from an empty one
has integers only.
-/

namespace PackageHistory

/-! ## Records -/

/-- A commit by its hash, or in full. -/
inductive CommitRef where
  | hash (h : Text)
  | full (c : Commit)
  deriving DecidableEq, Repr

def CommitRef.hashOf : CommitRef → Text
  | hash h => h
  | full c => c.hash

structure Record where
  version : Text
  date : Text
  /-- The ordinal of the commit in all history merged so far. -/
  seq : Number
  commit : CommitRef
  extra : Option (List (Text × Text))
  deriving DecidableEq, Repr

/-! ## Trees -/

/-- Lists by category, package and status. -/
abbrev Tree (ρ : Type) := OrderedMap Text (OrderedMap Text (OrderedMap Status (List ρ)))

namespace Tree

variable {ρ σ : Type}

/-- The statuses of a package, in the order in which they came. -/
def statuses? (t : Tree ρ) (category package : Text) : Option (OrderedMap Status (List ρ)) :=
  (t.get? category).bind (·.get? package)

/-- The list at a place; where there is none it counts as empty. -/
def list (t : Tree ρ) (category package : Text) (status : Status) : List ρ :=
  ((t.statuses? category package).bind (·.get? status)).getD []

/-- Changes the list at a place, which is made when there is none. -/
def alter (t : Tree ρ) (category package : Text) (status : Status) (f : List ρ → List ρ) : Tree ρ :=
  OrderedMap.alter t category fun packages =>
    (packages.getD .empty).alter package fun statuses =>
      (statuses.getD .empty).alter status fun records => f (records.getD [])

def append (t : Tree ρ) (category package : Text) (status : Status) (x : ρ) : Tree ρ :=
  t.alter category package status (· ++ [x])

/-- Applies a function to everything in the lists. -/
def mapAll (f : ρ → σ) (t : Tree ρ) : Tree σ :=
  t.map fun packages => packages.map fun statuses => statuses.map fun records => records.map f

/-- Everything in the lists, with its place. -/
def toList (t : Tree ρ) : List (Text × Text × Status × ρ) :=
  t.entries.flatMap fun c => c.2.entries.flatMap fun p => p.2.entries.flatMap fun s =>
    s.2.map fun x => (c.1, p.1, s.1, x)

@[simp] theorem list_alter_self (t : Tree ρ) (c p : Text) (s : Status) (f : List ρ → List ρ) :
    (t.alter c p s f).list c p s = f (t.list c p s) := by
  simp only [list, statuses?, alter, OrderedMap.get?_alter_self, Option.bind_some, Option.getD_some]
  cases h : t.get? c with
  | none => simp
  | some packages =>
    cases h' : packages.get? p with
    | none => simp [h']
    | some statuses => simp [h']

theorem list_alter_of_ne (t : Tree ρ) {c p c' p' : Text} {s s' : Status}
    (h : (c', p', s') ≠ (c, p, s)) (f : List ρ → List ρ) :
    (t.alter c p s f).list c' p' s' = t.list c' p' s' := by
  simp only [list, statuses?, alter]
  by_cases hc : c' = c
  · subst hc
    rw [OrderedMap.get?_alter_self]
    by_cases hp : p' = p
    · subst hp
      have hs : s' ≠ s := fun e => h (by rw [e])
      cases hg : t.get? c' with
      | none => simp [OrderedMap.get?_alter_of_ne _ hs]
      | some packages =>
        cases hg' : packages.get? p' with
        | none => simp [hg', OrderedMap.get?_alter_of_ne _ hs]
        | some statuses => simp [hg', OrderedMap.get?_alter_of_ne _ hs]
    · cases hg : t.get? c' with
      | none => simp [OrderedMap.get?_alter_of_ne _ hp]
      | some packages => simp [OrderedMap.get?_alter_of_ne _ hp]
  · rw [OrderedMap.get?_alter_of_ne _ hc]

end Tree

/-! ## Histories -/

structure History where
  /-- How many commits were merged; the ordinal of the next one. -/
  commitCount : Number
  records : Tree Record
  deriving DecidableEq

namespace History

def empty : History := ⟨0, .empty⟩

instance : Inhabited History := ⟨empty⟩

/-- The number of packages that something is recorded of. -/
def packageCount (h : History) : Nat := h.records.entries.foldr (fun c n => c.2.size + n) 0

end History

end PackageHistory
