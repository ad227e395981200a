import PackageHistory.Cpv

/-! # Atoms: all versions of a package, or one -/

namespace PackageHistory

structure Atom where
  category : Text
  package : Text
  /-- The one version that is meant; none stands for all. -/
  fullver : Option Text
  deriving DecidableEq, Repr

namespace Atom

def key (a : Atom) : Text := Cpv.keyOf a.category a.package

/-- `category/package`, with the version if there is one. -/
def target (a : Atom) : Text :=
  match a.fullver with
  | none => a.key
  | some v => a.key ++ '-' :: v

/-- `category/package` or `=category/package-version`. -/
def text (a : Atom) : Text :=
  match a.fullver with
  | none => a.key
  | some _ => '=' :: a.target

/-- Atoms are the same when their texts are. -/
def isSame (a b : Atom) : Bool := a.text = b.text

def admits (a : Atom) (category package fullver : Text) : Bool :=
  a.category = category && a.package = package
    && match a.fullver with
      | none => true
      | some v => v = fullver

def isMatch (a : Atom) (c : Cpv) : Bool := a.admits c.category c.package c.fullver

def parse : Text → Except MalformedAtom Atom
  | '=' :: t => (Cpv.parse t).map fun c => ⟨c.category, c.package, some c.fullver⟩
  | t =>
    match t.splitOn '/' with
    | [category, package] =>
      if !isCategory category then .error ⟨t, .category category⟩
      else if !isPackageName package then .error ⟨t, .package package⟩
      else .ok ⟨category, package, none⟩
    | _ => .error ⟨t, .noCategoryPackage⟩

def parse? (t : Text) : Option Atom := (parse t).toOption

end Atom

end PackageHistory
