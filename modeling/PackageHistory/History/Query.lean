import PackageHistory.Atom
import PackageHistory.History.View

/-! # Queries over a history -/

namespace PackageHistory

/-! ## Historical packages -/

/-- A package version as it appeared in one recorded change. -/
structure HistoricalPackage where
  cpv : Cpv
  status : Status
  date : Text
  seq : Number
  commit : CommitRef
  extra : List (Text × Text)
  repoId : Text
  deriving DecidableEq

namespace HistoricalPackage

/-- `category/package-version::repository`. -/
def text (p : HistoricalPackage) : Text := p.cpv.text ++ "::".toList ++ p.repoId

def ofRecord (repoId category package : Text) (status : Status) (r : Record) :
    Except MalformedAtom HistoricalPackage := do
  let cpv ← Cpv.make category package r.version
  return { cpv, status, date := r.date, seq := r.seq, commit := r.commit
           extra := r.extra.getD [], repoId }

/-! ## Order -/

def compareByVersion (a b : HistoricalPackage) : Ordering :=
  (a.cpv.compare b.cpv).then (compare a.seq b.seq)

def compareByCommit (a b : HistoricalPackage) : Ordering :=
  (compare a.seq b.seq).then (compareByVersion a b)

end HistoricalPackage

inductive SortOrder where
  /-- By category, package, version and ordinal. -/
  | version
  /-- By ordinal first. -/
  | commit
  deriving DecidableEq, Repr

namespace SortOrder

def name : SortOrder → Text
  | version => "version".toList
  | commit => "commit".toList

def compare : SortOrder → HistoricalPackage → HistoricalPackage → Ordering
  | version => HistoricalPackage.compareByVersion
  | commit => HistoricalPackage.compareByCommit

/-- Sorts packages; equal ones keep their order. -/
def sort (o : SortOrder) (packages : List HistoricalPackage) : List HistoricalPackage :=
  packages.mergeSort fun a b => o.compare a b != .gt

end SortOrder

/-! ## Queries -/

structure Query where
  category : Option Text := none
  package : Option Text := none
  /-- An atom overrides category and package. -/
  atom : Option Atom := none
  sort : SortOrder := .version

namespace Query

def wantedCategory (q : Query) : Option Text :=
  match q.atom with
  | some a => some a.category
  | none => q.category

def wantedPackage (q : Query) : Option Text :=
  match q.atom with
  | some a => some a.package
  | none => q.package

def admits (q : Query) (p : HistoricalPackage) : Bool :=
  match q.atom with
  | some a => a.isMatch p.cpv
  | none => true

end Query

/-- The pair of a key that is given and there, or all pairs. -/
def OrderedMap.restrict {κ α : Type} [DecidableEq κ] (m : OrderedMap κ α) :
    Option κ → List (κ × α)
  | none => m.entries
  | some k => ((m.get? k).map fun a => (k, a)).toList

namespace History

/-- The packages a query looks at, with their categories. -/
def candidates (h : History) (q : Query) :
    List (Text × Text × OrderedMap Status (List Record)) :=
  (h.records.restrict q.wantedCategory).flatMap fun (category, packages) =>
    (packages.restrict q.wantedPackage).map fun (package, statuses) =>
      (category, package, statuses)

/-- The packages of the selected records; records that form no package are passed over. -/
def packagesOf (v : View) (repoId : Text) :
    Text × Text × OrderedMap Status (List Record) → List HistoricalPackage
  | (category, package, statuses) =>
    (v.select statuses).filterMap fun (status, r) =>
      (HistoricalPackage.ofRecord repoId category package status r).toOption

/-- The packages a view shows that a query admits, in the order it asks for. -/
def query (h : History) (v : View) (repoId : Text) (q : Query) : List HistoricalPackage :=
  q.sort.sort <| ((h.candidates q).flatMap (packagesOf v repoId)).filter q.admits

/-- The packages of a category that the view shows records of. -/
def packageNames (h : History) (v : View) (category : Text) : List Text :=
  match h.records.get? category with
  | none => []
  | some packages =>
    ((packages.entries.filter fun e => !(v.select e.2).isEmpty).map Prod.fst).mergeSort Text.le

/-- The categories that the view shows packages of. -/
def categoryNames (h : History) (v : View) : List Text :=
  (h.records.keys.filter fun c => !(h.packageNames v c).isEmpty).mergeSort Text.le

end History

end PackageHistory
