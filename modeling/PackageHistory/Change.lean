import PackageHistory.Commit
import PackageHistory.Cpv

/-!
# From file lines to changes of packages

A file line has its fields between tabs: a letter and a path, or a letter with a similarity and two
paths. Lines of any other form, and paths that name no package version, are passed over.
-/

namespace PackageHistory

/-! ## File lines -/

/-- The place of an ebuild: `category/folder/name.ebuild`. -/
structure EbuildPath where
  category : Text
  /-- Package name and version, as in the name of the file. -/
  name : Text
  deriving DecidableEq, Repr

def EbuildPath.parse? (t : Text) : Option EbuildPath :=
  match t.splitOn '/' with
  | [category, folder, file] =>
    match Text.stripEnd? ".ebuild".toList file with
    | some name =>
      if category.isEmpty || folder.isEmpty || name.isEmpty then none else some ⟨category, name⟩
    | none => none
  | _ => none

/-- The package version that a place stands for. -/
def EbuildPath.cpv? (p : EbuildPath) : Option Cpv :=
  (Cpv.parse (p.category ++ '/' :: p.name)).toOption

inductive FileChange where
  | added (path : EbuildPath)
  | deleted (path : EbuildPath)
  | modified (path : EbuildPath)
  /-- The similarity is as it is written, where a binary64 number is rounded from `2 ^ 53` on. -/
  | renamed (similarity : Nat) (source target : EbuildPath)
  deriving DecidableEq, Repr

def FileChange.parse? (line : Text) : Option FileChange :=
  match line.splitOn '\t' with
  | [['A'], path] => (EbuildPath.parse? path).map .added
  | [['D'], path] => (EbuildPath.parse? path).map .deleted
  | [['M'], path] => (EbuildPath.parse? path).map .modified
  | ['R' :: digits, source, target] =>
    if Text.isDigits digits then
      match EbuildPath.parse? source, EbuildPath.parse? target with
      | some source, some target => some (.renamed (Text.digitsValue digits) source target)
      | _, _ => none
    else none
  | _ => none

/-! ## Changes of packages -/

structure Change where
  cpv : Cpv
  status : Status
  commit : Commit
  /-- The place of the commit in its range. -/
  index : Nat
  /-- For the old side of a rename, the package versions it leads from and to. -/
  extra : Option (List (Text × Text))
  deriving DecidableEq

namespace Change

/-- What links the old side of a rename to the new one. -/
def renameLink (source target : Cpv) : List (Text × Text) :=
  [("oldAtom".toList, source.text), ("newAtom".toList, target.text)]

/-- The changes of one file. Among local commits a rename also counts for its old side. -/
def ofFile (isLocal : Bool) (commit : Commit) (index : Nat) (change : FileChange) : List Change :=
  let plain (status : Status) (path : EbuildPath) : List Change :=
    match path.cpv? with
    | some cpv => [⟨cpv, status, commit, index, none⟩]
    | none => []
  match change with
  | .added path => plain .added path
  | .deleted path => plain .deleted path
  | .modified path => plain .modified path
  | .renamed _ source target =>
    match target.cpv? with
    | none => []
    | some new =>
      ⟨new, .renamed, commit, index, none⟩ ::
        match if isLocal then source.cpv? else none with
        | some old => [⟨old, .renamed, commit, index, some (renameLink old new)⟩]
        | none => []

def ofLine (isLocal : Bool) (commit : Commit) (index : Nat) (line : Text) : List Change :=
  match FileChange.parse? line with
  | some change => ofFile isLocal commit index change
  | none => []

/-- The changes of a commit, in the order of its file lines. -/
def ofEntry (isLocal : Bool) (entry : LogEntry) : List Change :=
  entry.fileLines.flatMap (ofLine isLocal entry.commit entry.index)

end Change

end PackageHistory
