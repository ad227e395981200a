import PackageHistory.Settings

/-! # Coloured text -/

namespace PackageHistory

inductive Style where
  | bold | dim | red | yellow
  deriving DecidableEq, Repr

/-- The number that turns a style on. -/
def Style.code : Style → Text
  | bold => "1".toList
  | dim => "2".toList
  | red => "31".toList
  | yellow => "33".toList

/-- Where text is printed. -/
structure Terminal where
  coloured : Bool
  deriving DecidableEq, Repr

namespace Terminal

/-- Colours can be turned off and on by variables, whatever their values; off wins. Else they are on
when the output is a terminal. -/
def ofEnvironment (env : Environment) (isTerminal : Bool) : Terminal :=
  ⟨!env.contains "NO_COLOR".toList && (env.contains "FORCE_COLOR".toList || isTerminal)⟩

def escape (code : Text) : Text := '\x1b' :: '[' :: code ++ ['m']

def paint (terminal : Terminal) (s : Style) (t : Text) : Text :=
  if terminal.coloured then escape s.code ++ t ++ escape ['0'] else t

def bold (terminal : Terminal) (t : Text) : Text := terminal.paint .bold t
def dim (terminal : Terminal) (t : Text) : Text := terminal.paint .dim t
def red (terminal : Terminal) (t : Text) : Text := terminal.paint .red t
def yellow (terminal : Terminal) (t : Text) : Text := terminal.paint .yellow t

/-- The text of an error. -/
def error (terminal : Terminal) (message : Text) : Text :=
  terminal.red ['✗'] ++ ' ' :: terminal.red message

/-- The text of a warning. -/
def warning (terminal : Terminal) (message : Text) : Text :=
  terminal.yellow ['!'] ++ ' ' :: terminal.yellow message

end Terminal

end PackageHistory
