import PackageHistory.CommandLine.Spec
import PackageHistory.Text.Units

/-!
# Help

A help text has a line of usage, a description and lists of terms. The descriptions of the terms
stand in a column of their own, and what does not fit into it goes on below.
-/

namespace PackageHistory.CommandLine.Help

/-! ## Columns -/

/-- How wide a help text is. -/
def pageWidth : Nat := 80

/-- Adds a word to the last line if the line stays within the width, else begins a line with it. -/
def addWord (width : Nat) (lines : List Text) (word : Text) : List Text :=
  match lines with
  | [] => [word]
  | line :: above =>
    if line.width + 1 + word.width ≤ width then (line ++ ' ' :: word) :: above
    else word :: line :: above

/-- Breaks a text between words into lines of some width; a longer word has a line for itself. -/
def wrap (width : Nat) (t : Text) : List Text :=
  ((t.splitOn ' ').foldl (addWord width) []).reverse

/-- A term of a list with its description. The column of descriptions begins two places behind the
longest term, and the last place of a line stays free. -/
def item (termWidth : Nat) (term description : Text) : Text :=
  let start := termWidth + 2
  let width := pageWidth - 2 - start - 1
  let below : Text := '\n' :: List.replicate (start + 2) ' '
  "  ".toList ++ term.padEnd start ++ Text.join below (wrap width description)

/-- A list of terms under its title. -/
def block (title : String) (termWidth : Nat) (items : List (Text × Text)) : List Text :=
  title.toList :: items.map (fun x => item termWidth x.1 x.2) ++ [[]]

/-! ## Texts -/

/-- The description of an option with its default. -/
def describe (o : OptionSpec) : Text :=
  o.description ++ match o.default with
    | some v => " (default: ".toList ++ v.compact ++ ")".toList
    | none => []

def optionItems (options : List OptionSpec) : List (Text × Text) :=
  options.map fun o => (o.term, describe o)

def longest (items : List (Text × Text)) : Nat := (items.map fun x => x.1.width).foldl max 0

def page (usage description : Text) (blocks : List (List Text)) : Text :=
  Text.join ['\n'] (["Usage: ".toList ++ usage, [], description, []] ++ blocks.flatten)

def ofCommand (c : Command) : Text :=
  let items := optionItems (c.options ++ [helpOption])
  page (programName ++ ' ' :: c.name ++ " [options]".toList) c.description
    [block "Options:" (longest items) items]

def commandItems : List (Text × Text) :=
  (Command.all.map fun c => (c.name ++ " [options]".toList, c.description))
    ++ [(helpWord ++ " [command]".toList, helpOption.description)]

def ofProgram : Text :=
  let options := optionItems [versionOption, helpOption]
  let termWidth := longest (options ++ commandItems)
  page (programName ++ " [options] [command]".toList) programDescription
    [block "Options:" termWidth options, block "Commands:" termWidth commandItems]

end PackageHistory.CommandLine.Help
