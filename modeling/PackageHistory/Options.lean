import PackageHistory.History.Query
import PackageHistory.Issue

/-!
# Options of commands

Options come as an object, whose members are checked one by one. Every issue is found, in the order
of the members; members that stand for no option are passed over.
-/

namespace PackageHistory

/-! ## Checking -/

/-- An issue and where in the options it lies. -/
structure Finding where
  path : List Text
  issue : Issue
  deriving DecidableEq, Repr

/-- A value, or every issue that stands against it. -/
def Checked (α : Type) := Except (List Finding) α

namespace Checked

def found {α : Type} (issue : Issue) : Checked α := .error [⟨[], issue⟩]

/-- Applies what one check gave to what the next one did; the issues of both count. -/
def app {α β : Type} : Checked (α → β) → Checked α → Checked β
  | .ok f, .ok a => .ok (f a)
  | .ok _, .error e => .error e
  | .error e, .ok _ => .error e
  | .error e, .error e' => .error (e ++ e')

instance : Applicative Checked where
  pure a := .ok a
  seq f x := app f (x ())

/-- Places the issues of a check below a name. -/
def below {α : Type} (name : Text) : Checked α → Checked α
  | .ok a => .ok a
  | .error e => .error (e.map fun f => { f with path := name :: f.path })

def filledText : Json → Checked Text
  | .string s => if s.isEmpty then found .emptyText else .ok s
  | v => found (.ofType "string".toList v)

def flag : Json → Checked Bool
  | .bool b => .ok b
  | v => found (.ofType "boolean".toList v)

/-- Checks elements from a place on, which names them in paths. -/
def elements {α : Type} (check : Json → Checked α) : Nat → List Json → Checked (List α)
  | _, [] => .ok []
  | i, v :: rest =>
    List.cons <$> below (Text.ofNat i) (check v) <*> elements check (i + 1) rest

def list {α : Type} (check : Json → Checked α) : Json → Checked (List α)
  | .array vs => elements check 0 vs
  | v => found (.ofType "array".toList v)

/-- One of some words. -/
def word {α : Type} (words : List Text) (ofName? : Text → Option α) : Json → Checked α
  | .string s =>
    match ofName? s with
    | some a => .ok a
    | none => found (.notAmong words s)
  | v => found (.noWord words v.typeName)

/-- A member that need not be there. -/
def optional {α : Type} (check : Json → Checked α) : Option Json → Checked (Option α)
  | none => .ok none
  | some v => some <$> check v

/-- A member that something else stands for when it is not there. -/
def orElse {α : Type} (other : α) (check : Json → Checked α) : Option Json → Checked α
  | none => .ok other
  | some v => check v

/-- Checks the member of a name. -/
def member {α : Type} (options : Json) (name : String) (check : Option Json → Checked α) :
    Checked α :=
  below name.toList (check (options.member? name.toList))

/-- Checks the members of an object; nothing else has members. -/
def object {α : Type} (check : Json → Checked α) : Json → Checked α
  | .object members => check (.object members)
  | v => found (.ofType "object".toList v)

end Checked

open Checked

/-! ## Options of every command -/

structure RepositoryOptions where
  /-- The location of the repository. -/
  repo : Text
  /-- The locations of the repositories it inherits from. -/
  masters : List Text
  /-- Whether the result is told as JSON. -/
  json : Bool
  deriving DecidableEq, Repr

def RepositoryOptions.check (v : Json) : Checked RepositoryOptions :=
  RepositoryOptions.mk
    <$> member v "repo" (orElse ['.'] filledText)
    <*> member v "master" (orElse [] (list filledText))
    <*> member v "json" (orElse false flag)

/-! ## Options of one command -/

structure RefreshOptions extends RepositoryOptions where
  /-- Whether existing caches are built anew. -/
  force : Bool
  deriving DecidableEq, Repr

def RefreshOptions.check : Json → Checked RefreshOptions := object fun v =>
  RefreshOptions.mk
    <$> RepositoryOptions.check v
    <*> member v "force" (orElse false flag)

def viewNames : List Text := View.all.map View.name

/-- The name of a view; a number is taken for a name that no view has. -/
def checkView : Json → Checked View
  | .number n => found (.notAmong viewNames n.text)
  | v => word viewNames View.ofName? v

def SortOrder.all : List SortOrder := [version, commit]

def SortOrder.ofName? (t : Text) : Option SortOrder := all.find? fun o => o.name = t

structure HistoryOptions extends RepositoryOptions where
  view : View
  category : Option Text
  package : Option Text
  atom : Option Text
  sort : SortOrder
  deriving DecidableEq, Repr

def HistoryOptions.check : Json → Checked HistoryOptions := object fun v =>
  HistoryOptions.mk
    <$> RepositoryOptions.check v
    <*> member v "view" (orElse .changed checkView)
    <*> member v "category" (optional filledText)
    <*> member v "package" (optional filledText)
    <*> member v "atom" (optional filledText)
    <*> member v "sort" (orElse .version
      (word (SortOrder.all.map SortOrder.name) SortOrder.ofName?))

structure CommitsOptions extends RepositoryOptions where
  /-- The view of the changes to show in place of the commits. -/
  view : Option View
  deriving DecidableEq, Repr

def CommitsOptions.check : Json → Checked CommitsOptions := object fun v =>
  CommitsOptions.mk
    <$> RepositoryOptions.check v
    <*> member v "view" (optional checkView)

structure ScopeOptions extends RepositoryOptions where
  /-- What the index is compared with. -/
  ref : Option Text
  /-- Whether changes are shelved while the scope is told. -/
  stash : Bool
  deriving DecidableEq, Repr

def ScopeOptions.check : Json → Checked ScopeOptions := object fun v =>
  ScopeOptions.mk
    <$> RepositoryOptions.check v
    <*> member v "ref" (optional filledText)
    <*> member v "stash" (orElse false flag)

end PackageHistory
