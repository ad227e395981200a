import PackageHistory.OrderedMap
import PackageHistory.Path

/-!
# A tree of files

The tree is a map from paths to what is there. Calls name paths by texts, which are resolved against
the working folder and shown in errors as they were given.
-/

namespace PackageHistory

/-- What may be done to the names in a folder. A folder that cannot be written to gives neither right. -/
structure Rights where
  /-- Names can be put into it: nodes can be made there and moved there. -/
  adding : Bool := true
  /-- Names can be taken out of it: what they stand for can be removed, replaced and moved away. -/
  removing : Bool := true
  deriving DecidableEq, Repr

namespace Rights

def all : Rights := {}

def none : Rights := ⟨false, false⟩

end Rights

inductive Node where
  /-- A locked file can be neither read nor overwritten. -/
  | file (content : Text) (locked : Bool)
  /-- The rights are those to what is directly in the folder. -/
  | folder (rights : Rights)
  deriving DecidableEq, Repr

structure Disk where
  nodes : OrderedMap Path Node
  cwd : Path
  deriving DecidableEq

namespace Disk

/-! ## Errors -/

inductive Code where
  | noEntry | notFolder | isFolder | fileExists | denied
  deriving DecidableEq, Repr

def Code.word : Code → Text
  | noEntry => "ENOENT".toList
  | notFolder => "ENOTDIR".toList
  | isFolder => "EISDIR".toList
  | fileExists => "EEXIST".toList
  | denied => "EACCES".toList

def Code.text : Code → Text
  | noEntry => "no such file or directory".toList
  | notFolder => "not a directory".toList
  | isFolder => "illegal operation on a directory".toList
  | fileExists => "file already exists".toList
  | denied => "permission denied".toList

/-- What was tried. -/
inductive Attempt where
  | opening (path : Text)
  | reading
  | listing (path : Text)
  | inspecting (path : Text)
  | makingFolder (path : Text)
  | moving (src dst : Text)
  | unlinking (path : Text)
  | removing (path : Text)
  | removingFolder (path : Text)
  deriving DecidableEq, Repr

def quoted (t : Text) : Text := '\'' :: t ++ ['\'']

def Attempt.text : Attempt → Text
  | opening path => "open ".toList ++ quoted path
  | reading => "read".toList
  | listing path => "scandir ".toList ++ quoted path
  | inspecting path => "stat ".toList ++ quoted path
  | makingFolder path => "mkdir ".toList ++ quoted path
  | moving src dst => "rename ".toList ++ quoted src ++ " -> ".toList ++ quoted dst
  | unlinking path => "unlink ".toList ++ quoted path
  | removing path => "lstat ".toList ++ quoted path
  | removingFolder path => "rmdir ".toList ++ quoted path

structure Error where
  code : Code
  attempt : Attempt
  deriving DecidableEq, Repr

def Error.message (e : Error) : Text :=
  e.code.word ++ ": ".toList ++ e.code.text ++ ", ".toList ++ e.attempt.text

/-! ## Looking -/

def get? (d : Disk) (p : Path) : Option Node := d.nodes.get? p

def set (d : Disk) (p : Path) (n : Node) : Disk := { d with nodes := d.nodes.insert p n }

def resolve (d : Disk) (t : Text) : Path := Path.resolve d.cwd t

/-- The proper ancestors of a path, from the root down. -/
def ancestors (p : Path) : List Path := (List.range p.length).map p.take

/-- Why a path cannot be reached: the first ancestor that is missing or a file. -/
def blocked? (d : Disk) (p : Path) : Option Code :=
  (ancestors p).findSome? fun q =>
    match d.get? q with
    | none => some .noEntry
    | some (.file _ _) => some .notFolder
    | some (.folder _) => none

/-- The rights to the names beside a path. -/
def parentRights (d : Disk) (p : Path) : Rights :=
  match d.get? p.dropLast with
  | some (.folder rights) => rights
  | _ => .all

def read (d : Disk) (path : Text) : Except Error Text :=
  let p := d.resolve path
  match d.blocked? p with
  | some code => .error ⟨code, .opening path⟩
  | none =>
    match d.get? p with
    | none => .error ⟨.noEntry, .opening path⟩
    | some (.folder _) => .error ⟨.isFolder, .reading⟩
    | some (.file _ true) => .error ⟨.denied, .opening path⟩
    | some (.file content false) => .ok content

/-- The names in a folder, with what they stand for. -/
def list (d : Disk) (path : Text) : Except Error (List (Text × Node)) :=
  let p := d.resolve path
  match d.blocked? p with
  | some code => .error ⟨code, .listing path⟩
  | none =>
    match d.get? p with
    | none => .error ⟨.noEntry, .listing path⟩
    | some (.file _ _) => .error ⟨.notFolder, .listing path⟩
    | some (.folder _) =>
      .ok <| d.nodes.entries.filterMap fun e =>
        if e.1 ≠ [] ∧ e.1.dropLast = p then some (e.1.baseName, e.2) else none

def inspect (d : Disk) (path : Text) : Except Error Node :=
  let p := d.resolve path
  match d.blocked? p with
  | some code => .error ⟨code, .inspecting path⟩
  | none =>
    match d.get? p with
    | none => .error ⟨.noEntry, .inspecting path⟩
    | some n => .ok n

/-- Every file with its content. -/
def files (d : Disk) : List (Path × Text) :=
  d.nodes.entries.filterMap fun e =>
    match e.2 with
    | .file content _ => some (e.1, content)
    | .folder _ => none

/-! ## Changing -/

inductive Edit where
  /-- Makes a folder and its missing parents. -/
  | makeFolders (path : Text)
  | write (path content : Text)
  | rename (src dst : Text)
  | unlink (path : Text)
  /-- Removes whatever is at a path, with all below it. -/
  | remove (path : Text)
  deriving DecidableEq, Repr

/-- Makes the folder at one path on the way to `whole`. -/
def makeFolder (whole : Path) (path : Text) (d : Disk) (p : Path) : Except Error Disk :=
  match d.get? p with
  | some (.folder _) => .ok d
  | some (.file _ _) =>
    .error ⟨if p = whole then .fileExists else .notFolder, .makingFolder path⟩
  | none =>
    if (d.parentRights p).adding then .ok (d.set p (.folder .all))
    else .error ⟨.denied, .makingFolder p.text⟩

/-- Makes the first folders on the way to a path, from the root down. -/
def makeFirst (d : Disk) (count : Nat) (path : Text) : Except Error Disk :=
  let p := d.resolve path
  ((ancestors p ++ [p]).take count).foldlM (makeFolder p path) d

def makeFolders (d : Disk) (path : Text) : Except Error Disk :=
  d.makeFirst ((d.resolve path).length + 1) path

def write (d : Disk) (path content : Text) : Except Error Disk :=
  let p := d.resolve path
  match d.blocked? p with
  | some code => .error ⟨code, .opening path⟩
  | none =>
    match d.get? p with
    | some (.folder _) => .error ⟨.isFolder, .opening path⟩
    | some (.file _ true) => .error ⟨.denied, .opening path⟩
    | some (.file _ false) => .ok (d.set p (.file content false))
    | none =>
      if (d.parentRights p).adding then .ok (d.set p (.file content false))
      else .error ⟨.denied, .opening path⟩

/-- Leaves out the nodes at some paths. -/
def leaveOut (d : Disk) (gone : Path → Bool) : Disk :=
  { d with nodes := d.nodes.filter fun q _ => !gone q }

/-- Leaves out the node of a path. -/
def erase (d : Disk) (p : Path) : Disk := d.leaveOut fun q => q = p

/-- Leaves out what is at a path and below it. -/
def without (d : Disk) (p : Path) : Disk := d.leaveOut p.isPrefixOf

/-- Whether their folders let a file be moved from one path to another, where it may replace a file. -/
def takesMove (d : Disk) (src dst : Path) : Bool :=
  (d.parentRights src).removing && (d.parentRights dst).adding &&
    ((d.get? dst).isNone || (d.parentRights dst).removing)

/-- Moves a file; a file at the new path is replaced. -/
def rename (d : Disk) (src dst : Text) : Except Error Disk :=
  let p := d.resolve src
  let q := d.resolve dst
  let refuse (code : Code) : Except Error Disk := .error ⟨code, .moving src dst⟩
  match d.blocked? p, d.blocked? q with
  | some code, _ => refuse code
  | none, some code => refuse code
  | none, none =>
    match d.get? p, d.get? q with
    | none, _ => refuse .noEntry
    | some (.folder _), _ => refuse .isFolder
    | some (.file _ _), some (.folder _) => refuse .isFolder
    | some (.file content locked), _ =>
      if d.takesMove p q then .ok ((d.erase p).set q (.file content locked)) else refuse .denied

def unlink (d : Disk) (path : Text) : Except Error Disk :=
  let p := d.resolve path
  match d.blocked? p with
  | some code => .error ⟨code, .unlinking path⟩
  | none =>
    match d.get? p with
    | none => .error ⟨.noEntry, .unlinking path⟩
    | some (.folder _) => .error ⟨.isFolder, .unlinking path⟩
    | some (.file _ _) =>
      if (d.parentRights p).removing then .ok (d.erase p) else .error ⟨.denied, .unlinking path⟩

/-- The first node at a path or below it that cannot be removed, if any. -/
def held? (d : Disk) (p : Path) : Option (Path × Node) :=
  d.nodes.entries.find? fun e => p.isPrefixOf e.1 && !(d.parentRights e.1).removing

/-- A removal that the rights forbid takes nothing away. One that has taken a part away when it fails is among those
that a world refuses. -/
def remove (d : Disk) (path : Text) : Except Error Disk :=
  let p := d.resolve path
  match d.blocked? p with
  | some .notFolder => .error ⟨.notFolder, .removing path⟩
  | some _ => .ok d
  | none =>
    match d.held? p with
    | none => .ok (d.without p)
    | some (q, n) =>
      let name := if q = p then path else q.text
      .error ⟨.denied, match n with
        | .file _ _ => .unlinking name
        | .folder _ => .removingFolder name⟩

def apply (d : Disk) : Edit → Except Error Disk
  | .makeFolders path => d.makeFolders path
  | .write path content => d.write path content
  | .rename src dst => d.rename src dst
  | .unlink path => d.unlink path
  | .remove path => d.remove path

/-- Why an edit fails though the tree would allow it, and what part of it was done. -/
structure Setback where
  error : Error
  /-- How many of the folders on a way were there or made. -/
  made : Nat := 0
  /-- What a write had put into its file. -/
  torn : Option Text := none
  /-- What a removal had taken away, with all that was below. -/
  lost : List Path := []
  deriving DecidableEq, Repr

/-- The tree that an edit leaves which fails. Moving and unlinking a file have no parts. -/
def tear (d : Disk) (s : Setback) : Edit → Disk
  | .makeFolders path => (d.makeFirst s.made path).toOption.getD d
  | .write path _ => (s.torn.bind fun t => (d.write path t).toOption).getD d
  | .rename _ _ => d
  | .unlink _ => d
  | .remove path =>
    d.leaveOut fun q => s.lost.any fun l => (d.resolve path).isPrefixOf l && l.isPrefixOf q

/-! ## Building -/

/-- Puts a node at a path, and folders where its ancestors are missing. -/
def put (d : Disk) (p : Path) (n : Node) : Disk :=
  let withParents := (ancestors p).foldl
    (fun d q => if (d.get? q).isSome then d else d.set q (.folder .all)) d
  withParents.set p n

/-- The tree that has just a working folder. -/
def empty (cwd : Path) : Disk := ({ nodes := .empty, cwd } : Disk).put cwd (.folder .all)

end Disk

end PackageHistory
