import PackageHistory.Text.Blank
import PackageHistory.Version.Order

/-! # Package versions: a category, a package name and a version -/

namespace PackageHistory

/-! ## Names -/

def isWordChar (c : Char) : Bool := c.isAlphanum || c = '_'

/-- A letter, digit or underscore, then also plus signs, dots and dashes. -/
def isCategory : Text → Bool
  | [] => false
  | c :: cs => isWordChar c && cs.all fun d => isWordChar d || d = '+' || d = '.' || d = '-'

/-- Whether some dash of the text is followed by a version that reaches to its end. -/
def endsInVersion : Text → Bool
  | [] => false
  | c :: cs => (c = '-' && Version.isValid cs) || endsInVersion cs

/-- A letter, digit or underscore, then also plus signs and dashes, and no version at the end. -/
def isPackageName (t : Text) : Bool :=
  (match t with
    | [] => false
    | c :: cs => isWordChar c && cs.all fun d => isWordChar d || d = '+' || d = '-')
  && !endsInVersion t

/-! ## Errors -/

namespace MalformedAtom

inductive Reason where
  | noCategoryPackageVersion
  | noCategoryPackage
  | noVersion
  | category (t : Text)
  | package (t : Text)
  | version (t : Text)
  /-- A reason in words of its own. -/
  | stated (t : Text)
  deriving DecidableEq, Repr

def Reason.text : Reason → Text
  | noCategoryPackageVersion => "expected category/package-version".toList
  | noCategoryPackage => "expected category/package".toList
  | noVersion => "missing or invalid version".toList
  | category t => "invalid category '".toList ++ t ++ "'".toList
  | package t => "invalid package name '".toList ++ t ++ "'".toList
  | version t => "invalid version '".toList ++ t ++ "'".toList
  | stated t => t

end MalformedAtom

/-- A text that names no package or package version. -/
structure MalformedAtom where
  atom : Text
  reason : MalformedAtom.Reason
  deriving DecidableEq, Repr

def MalformedAtom.message (e : MalformedAtom) : Text :=
  "invalid package atom '".toList ++ e.atom ++ "': ".toList ++ e.reason.text

/-! ## Package versions -/

structure Cpv where
  category : Text
  package : Text
  /-- The version with its revision. -/
  fullver : Text
  category_valid : isCategory category = true
  package_valid : isPackageName package = true
  fullver_valid : Version.isValid fullver = true
  deriving DecidableEq

namespace Cpv

def keyOf (category package : Text) : Text := category ++ '/' :: package

def textOf (category package fullver : Text) : Text :=
  category ++ '/' :: package ++ '-' :: fullver

/-- `category/package`. -/
def key (c : Cpv) : Text := keyOf c.category c.package

/-- `category/package-version`. -/
def text (c : Cpv) : Text := textOf c.category c.package c.fullver

/-- The version without its revision. -/
def version (c : Cpv) : Text := Version.withoutRevision c.fullver

/-- The number of the revision as it is written, where a binary64 number is rounded from `2 ^ 53` on. -/
def revision (c : Cpv) : Nat := Version.revisionOf c.fullver

/-- The version as it is ordered. -/
def parsed (c : Cpv) : Version := (Version.parse? c.fullver).get c.fullver_valid

def make (category package fullver : Text) : Except MalformedAtom Cpv :=
  let refuse (reason : MalformedAtom.Reason) : Except MalformedAtom Cpv :=
    .error ⟨textOf category package fullver, reason⟩
  if hc : isCategory category = true then
    if hp : isPackageName package = true then
      if hv : Version.isValid fullver = true then
        .ok ⟨category, package, fullver, hc, hp, hv⟩
      else refuse (.version fullver)
    else refuse (.package package)
  else refuse (.category category)

theorem eq_of_parts {a b : Cpv} (hcategory : a.category = b.category)
    (hpackage : a.package = b.package) (hfullver : a.fullver = b.fullver) : a = b := by
  cases a
  cases b
  simp_all

theorem make_eq_ok_iff {category package fullver : Text} {x : Cpv} :
    make category package fullver = .ok x ↔
      x.category = category ∧ x.package = package ∧ x.fullver = fullver := by
  unfold make
  constructor
  · intro h
    split at h
    · split at h
      · split at h
        · cases h
          exact ⟨rfl, rfl, rfl⟩
        · cases h
      · cases h
    · cases h
  · rintro ⟨rfl, rfl, rfl⟩
    rw [dif_pos x.category_valid, dif_pos x.package_valid, dif_pos x.fullver_valid]

theorem make_self (x : Cpv) : make x.category x.package x.fullver = .ok x :=
  make_eq_ok_iff.mpr ⟨rfl, rfl, rfl⟩

/-- Cuts a package name from the version at the first dash that a version follows. The name is not
empty and lies on one line. -/
def splitVersion? : Text → Option (Text × Text)
  | [] => none
  | c :: cs =>
    if isLineEnd c then none
    else
      let later := (splitVersion? cs).map fun r => (c :: r.1, r.2)
      match cs with
      | '-' :: v => if Version.isValid v then some ([c], v) else later
      | _ => later

def parse (t : Text) : Except MalformedAtom Cpv :=
  match t.splitOn '/' with
  | [category, rest] =>
    match splitVersion? rest with
    | some (package, fullver) => make category package fullver
    | none => .error ⟨t, .noVersion⟩
  | _ => .error ⟨t, .noCategoryPackageVersion⟩

/-- By category, then by package, then by version. -/
def compare (a b : Cpv) : Ordering :=
  (Text.compare a.category b.category).then <|
  (Text.compare a.package b.package).then <|
  Version.compare a.parsed b.parsed

end Cpv

end PackageHistory
