import PackageHistory.Json.Basic

/-!
# Looking into JSON values

Each look gives a default where the value is of another kind or the member is missing, for readers
that do not check what they read.
-/

namespace PackageHistory.Json

/-! ## Values -/

def asText : Json → Text
  | .string s => s
  | _ => []

def asNumber? : Json → Option Number
  | .number n => some n
  | _ => none

def asList : Json → List Json
  | .array vs => vs
  | _ => []

def asTexts (j : Json) : List Text := j.asList.map asText

def asMembers : Json → List (Text × Json)
  | .object ms => ms
  | _ => []

/-- The elements that are lists of two. -/
def asPairs (j : Json) : List (Json × Json) :=
  j.asList.filterMap fun
    | .array [a, b] => some (a, b)
    | _ => none

/-! ## Members of objects -/

/-- The member of a name, null when there is none. -/
def get (j : Json) (name : String) : Json := (j.member? name.toList).getD .null

def has (j : Json) (name : String) : Bool := (j.member? name.toList).isSome

def text? (j : Json) (name : String) : Option Text :=
  match j.get name with
  | .string s => some s
  | _ => none

def text (j : Json) (name : String) : Text := (j.get name).asText

def amount? (j : Json) (name : String) : Option Number := (j.get name).asNumber?

def amount (j : Json) (name : String) : Number := (j.amount? name).getD 0

def count? (j : Json) (name : String) : Option Nat := (j.amount? name).map Number.count

def list (j : Json) (name : String) : List Json := (j.get name).asList

def texts (j : Json) (name : String) : List Text := (j.get name).asTexts

/-- A switch, with what stands for it when it is not set. -/
def flag (j : Json) (name : String) (otherwise : Bool := false) : Bool :=
  match j.get name with
  | .bool b => b
  | _ => otherwise

end PackageHistory.Json
