import PackageHistory.History.Query

/-!
# History repositories

A history seen through a view, or several of them answering as one. A view is chosen by its name,
and a name that stands for no filter is found out by the first package it should filter.
-/

namespace PackageHistory

/-- One history behind the name of a view. -/
structure HistoryRepo where
  id : Text
  viewName : Text := View.changed.name
  history : History

namespace HistoryRepo

def selector (r : HistoryRepo) : Selector := .ofName r.viewName

/-- The answer of the view, or the failure of the first package that is looked at and cannot be
filtered. -/
def answer {α : Type} (r : HistoryRepo)
    (lookedAt : List (OrderedMap Status (List Record))) (ask : View → α) (nothing : α) :
    Except Failure α :=
  match r.selector with
  | .view v => .ok (ask v)
  | s =>
    match lookedAt.findSome? s.failure? with
    | some e => .error e
    | none => .ok nothing

def categories (r : HistoryRepo) : Except Failure (List Text) :=
  r.answer (r.history.records.entries.flatMap fun c => c.2.entries.map Prod.snd)
    r.history.categoryNames []

def packages (r : HistoryRepo) (category : Text) : Except Failure (List Text) :=
  r.answer (match r.history.records.get? category with
      | some packages => packages.entries.map Prod.snd
      | none => [])
    (r.history.packageNames · category) []

def query (r : HistoryRepo) (q : Query) : Except Failure (List HistoricalPackage) :=
  r.answer ((r.history.candidates q).map fun c => c.2.2) (r.history.query · r.id q) []

end HistoryRepo

/-- One repository, or several that answer as one. -/
inductive AnyRepo where
  | single (r : HistoryRepo)
  | several (rs : List HistoryRepo)

namespace AnyRepo

def id : AnyRepo → Text
  | single r => r.id
  | several rs => Text.join ['+'] (rs.map HistoryRepo.id)

def categories : AnyRepo → Except Failure (List Text)
  | single r => r.categories
  | several rs => return Text.sortDistinct (← rs.mapM HistoryRepo.categories).flatten

def packages (category : Text) : AnyRepo → Except Failure (List Text)
  | single r => r.packages category
  | several rs => return Text.sortDistinct (← rs.mapM (·.packages category)).flatten

/-- The answers of all repositories, sorted together. -/
def query (q : Query) : AnyRepo → Except Failure (List HistoricalPackage)
  | single r => r.query q
  | several rs => return q.sort.sort (← rs.mapM (·.query q)).flatten

end AnyRepo

end PackageHistory
