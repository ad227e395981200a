import PackageHistory.History.View
import PackageHistory.Json.Printer

/-! # The commands of the program and their options -/

namespace PackageHistory.CommandLine

def programName : Text := "ebuild-history".toList
def programVersion : Text := "0.1.0".toList
def programDescription : Text := "Package history of ebuild repositories, read from git".toList

/-! ## Options -/

inductive Arity where
  /-- Given or not. -/
  | flag
  /-- Takes a value, of several the last one counts. -/
  | value (placeholder : Text)
  /-- Takes a value each time it is given; all count. -/
  | collected (placeholder : Text)
  deriving DecidableEq, Repr

namespace Arity

def placeholder? : Arity → Option Text
  | flag => none
  | value p => some p
  | collected p => some p

def takesValue (a : Arity) : Bool := a.placeholder?.isSome

end Arity

structure OptionSpec where
  short : Option Char
  long : Text
  arity : Arity
  description : Text
  /-- What stands for the option when it is not given. -/
  default : Option Json

namespace OptionSpec

def longFlag (o : OptionSpec) : Text := '-' :: '-' :: o.long

def shortFlag? (o : OptionSpec) : Option Text := o.short.map fun c => ['-', c]

/-- How the option is named in help and in errors. -/
def term (o : OptionSpec) : Text :=
  (match o.shortFlag? with
    | some short => short ++ ", ".toList
    | none => [])
  ++ o.longFlag
  ++ match o.arity.placeholder? with
    | some p => " <".toList ++ p ++ ">".toList
    | none => []

/-- Whether a word names the option. -/
def isNamed (o : OptionSpec) (word : Text) : Bool :=
  o.longFlag = word || o.shortFlag? = some word

end OptionSpec

def plain (long : String) (description : String) (arity : Arity) : OptionSpec :=
  ⟨none, long.toList, arity, description.toList, none⟩

def withShort (c : Char) (o : OptionSpec) : OptionSpec := { o with short := some c }

def withDefault (v : Json) (o : OptionSpec) : OptionSpec := { o with default := some v }

def versionOption : OptionSpec :=
  withShort 'v' (plain "version" "Output the current version" .flag)

def helpOption : OptionSpec := withShort 'h' (plain "help" "display help for command" .flag)

def repoOption : OptionSpec :=
  withDefault (.string ['.']) <| withShort 'r' <|
    plain "repo" "Repository location" (.value "path".toList)

def masterOption : OptionSpec :=
  withDefault (.array []) <| withShort 'm' <|
    plain "master" "Master repository location (repeatable)" (.collected "path".toList)

def jsonOption : OptionSpec :=
  withDefault (.bool false) (plain "json" "Output result as JSON" .flag)

/-- The names of the views between commas. -/
def viewList : Text := Text.join ", ".toList (View.all.map View.name)

def viewOption (purpose : String) : OptionSpec where
  short := none
  long := "view".toList
  arity := .value "view".toList
  description := purpose.toList ++ " (".toList ++ viewList ++ ")".toList
  default := none

/-! ## Commands -/

inductive Command where
  | refresh | history | commits | scope
  deriving DecidableEq, Repr

namespace Command

def all : List Command := [refresh, history, commits, scope]

def name : Command → Text
  | refresh => "refresh".toList
  | history => "history".toList
  | commits => "commits".toList
  | scope => "scope".toList

def ofName? (t : Text) : Option Command := all.find? fun c => c.name = t

def description : Command → Text
  | refresh => "Update the cached history of a repository and its masters".toList
  | history => "Query the published history of a repository and its masters".toList
  | commits => "List local commits not yet published upstream".toList
  | scope => "Show the packages and eclasses changed relative to a reference".toList

/-- The options of the command alone. -/
def ownOptions : Command → List OptionSpec
  | refresh =>
    [withDefault (.bool false) <| withShort 'f' <|
      plain "force" "Discard existing caches and rebuild them" .flag]
  | history =>
    [withDefault (.string View.changed.name) (viewOption "Changes to show"),
      withShort 'c' <|
        plain "category" "Restrict to a category" (.value "category".toList),
      withShort 'p' <| plain "package" "Restrict to a package name" (.value "name".toList),
      withShort 'a' <| plain "atom" "Restrict to cat/pkg or =cat/pkg-ver" (.value "atom".toList),
      withDefault (.string "version".toList) <|
        plain "sort" "Sort by version or commit" (.value "order".toList)]
  | commits => [viewOption "Show package changes of the commits instead"]
  | scope =>
    [plain "ref" "Reference to diff the index against" (.value "ref".toList),
      withDefault (.bool false) <|
        plain "stash" "Shelve uncommitted changes while reporting the scope" .flag]

def options (c : Command) : List OptionSpec :=
  [repoOption, masterOption] ++ c.ownOptions ++ [jsonOption]

end Command

/-- The word that asks for help in place of a command. -/
def helpWord : Text := "help".toList

end PackageHistory.CommandLine
