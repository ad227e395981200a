import PackageHistory.Text.Basic

/-! # Paths -/

namespace PackageHistory

/-- The names from the root down to a file or folder; the root itself has none. -/
abbrev Path := List Text

namespace Path

def dot : Text := ['.']
def dots : Text := ['.', '.']

def isAbsolute : Text → Bool
  | '/' :: _ => true
  | _ => false

/-! ## Resolved paths -/

/-- Goes on by one segment: a name leads down, two dots lead up, one dot and nothing stay. -/
def step (p : Path) (segment : Text) : Path :=
  if segment = [] ∨ segment = dot then p
  else if segment = dots then p.dropLast
  else p ++ [segment]

/-- The path that a text names from a folder. -/
def resolve (cwd : Path) (t : Text) : Path :=
  (t.splitOn '/').foldl step (if isAbsolute t then [] else cwd)

def text (p : Path) : Text := '/' :: Text.join ['/'] p

/-- The last name; the root has an empty one. -/
def baseName (p : Path) : Text := p.getLastD []

/-- How many names two paths share from the root. -/
def commonLength : Path → Path → Nat
  | a :: as, b :: bs => if a = b then commonLength as bs + 1 else 0
  | _, _ => 0

/-- The way from one path to another: up to the common folder, then down. -/
def relative (start target : Path) : Text :=
  let common := commonLength start target
  Text.join ['/'] (List.replicate (start.length - common) dots ++ target.drop common)

/-! ## Paths as texts -/

/-- Goes on by one segment in a path that may be relative: then leading double dots are kept. -/
def stepText (absolute : Bool) (p : List Text) (segment : Text) : List Text :=
  if segment = [] ∨ segment = dot then p
  else if segment = dots then
    if p = [] ∨ p.getLast? = some dots then if absolute then p else p ++ [dots]
    else p.dropLast
  else p ++ [segment]

/-- The shortest text of the same path; the path that stays is one dot. -/
def normalize (t : Text) : Text :=
  let absolute := isAbsolute t
  let body := Text.join ['/'] ((t.splitOn '/').foldl (stepText absolute) [])
  let slash := if t.getLast? = some '/' then ['/'] else []
  if absolute then '/' :: body ++ (if body = [] then [] else slash)
  else if body = [] then (if t = [] then dot else dot ++ slash)
  else body ++ slash

/-- The parts one below the other; empty parts are left out. -/
def join (parts : List Text) : Text :=
  normalize (Text.join ['/'] (parts.filter fun part => !part.isEmpty))

/-- The folder in which the text of a path stands. -/
def parentText : Text → Text
  | [] => dot
  | first :: rest =>
    let before := (rest.reverse.dropWhile (· = '/')).dropWhile (· ≠ '/')
    match before with
    | [] => if first = '/' then ['/'] else dot
    | _ :: more =>
      if first = '/' && more.isEmpty then ['/', '/'] else first :: more.reverse

end Path

end PackageHistory
