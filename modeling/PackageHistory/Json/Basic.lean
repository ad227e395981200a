import PackageHistory.Number
import PackageHistory.OrderedMap

/-! # JSON values -/

namespace PackageHistory

inductive Json where
  | null
  | bool (b : Bool)
  | number (n : Number)
  | string (s : Text)
  | array (elements : List Json)
  | object (members : List (Text × Json))
  deriving Inhabited

namespace Json

def ofInt (n : Int) : Json := .number (.integer n)
def ofNat (n : Nat) : Json := .number (.integer n)

/-- The array index that a name spells: plain digits below `2 ^ 32 - 1`. -/
def indexOf? (name : Text) : Option Nat :=
  if Text.isDigits name && (name.head? != some '0' || name.length = 1) && name.length ≤ 10 then
    let n := Text.digitsValue name
    if n < 4294967295 then some n else none
  else none

/-- The order in which the members of an object are gone through: array indices first, ascending,
then the other names as they came. -/
def memberOrder {α : Type} (members : List (Text × α)) : List (Text × α) :=
  let indexed := members.filterMap fun m => (indexOf? m.1).map fun i => (i, m)
  (indexed.mergeSort fun a b => a.1 ≤ b.1).map Prod.snd
    ++ members.filter fun m => (indexOf? m.1).isNone

/-- An object from members as they are read; a repeated name keeps its first place and its last
value. -/
def ofMembers (members : List (Text × Json)) : Json :=
  .object (memberOrder (OrderedMap.ofList members).entries)

/-- The member of a name, when the value is an object that has it. -/
def member? (name : Text) : Json → Option Json
  | .object members => Entries.lookup name members
  | _ => none

/-- The word for the type of a value. -/
def typeName : Json → Text
  | .null => "null".toList
  | .bool _ => "boolean".toList
  | .number _ => "number".toList
  | .string _ => "string".toList
  | .array _ => "array".toList
  | .object _ => "object".toList

mutual

/-- How a message names a value: texts bare, arrays by their elements between commas. An object
cannot be named when it has a member of its own for the text it is to be named by. -/
def label? : Json → Option Text
  | .null => some "null".toList
  | .bool true => some "true".toList
  | .bool false => some "false".toList
  | .number n => some n.text
  | .string s => some s
  | .array elements => (labels? elements).map (Text.join [','])
  | .object members =>
    if members.any (·.1 = "toString".toList) then none else some "[object Object]".toList

/-- The labels of elements; the one of null is empty. -/
def labels? : List Json → Option (List Text)
  | [] => some []
  | .null :: rest => (labels? rest).map ([] :: ·)
  | v :: rest => (label? v).bind fun t => (labels? rest).map (t :: ·)

end

end Json

end PackageHistory
