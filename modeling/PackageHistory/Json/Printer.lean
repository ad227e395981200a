import PackageHistory.Json.Basic

/-! # Writing JSON, on one line or indented -/

namespace PackageHistory.Json

/-! ## Leaves -/

def hexDigit (n : Nat) : Char := "0123456789abcdef".toList.getD n '0'

/-- A character of a string: quotes, backslashes and controls are escaped, all else stands as it
is. -/
def escape (c : Char) : Text :=
  if c = '"' then "\\\"".toList
  else if c = '\\' then "\\\\".toList
  else if c = '\x08' then "\\b".toList
  else if c = '\x0c' then "\\f".toList
  else if c = '\n' then "\\n".toList
  else if c = '\r' then "\\r".toList
  else if c = '\t' then "\\t".toList
  else if c.toNat < 0x20 then "\\u00".toList ++ [hexDigit (c.toNat / 16), hexDigit (c.toNat % 16)]
  else [c]

def quote (s : Text) : Text := '"' :: s.flatMap escape ++ ['"']

/-- Infinity has no JSON text and is written as null. -/
def numberText : Number → Text
  | .infinite _ => "null".toList
  | n => n.text

/-! ## On one line -/

mutual

def compact : Json → Text
  | .null => "null".toList
  | .bool true => "true".toList
  | .bool false => "false".toList
  | .number n => numberText n
  | .string s => quote s
  | .array elements => '[' :: Text.join [','] (compactElements elements) ++ [']']
  | .object members => '{' :: Text.join [','] (compactMembers members) ++ ['}']

def compactElements : List Json → List Text
  | [] => []
  | v :: rest => compact v :: compactElements rest

def compactMembers : List (Text × Json) → List Text
  | [] => []
  | (name, v) :: rest => (quote name ++ ':' :: compact v) :: compactMembers rest

end

/-! ## Indented -/

/-- Items on lines of their own between brackets; no items, no lines. -/
def block (opening closing : Char) (depth : Nat) (items : List Text) : Text :=
  if items.isEmpty then [opening, closing]
  else
    let line (d : Nat) : Text := '\n' :: List.replicate (2 * d) ' '
    opening :: line (depth + 1) ++ Text.join (',' :: line (depth + 1)) items ++ line depth
      ++ [closing]

mutual

/-- The text of a value that stands `depth` levels deep, two spaces a level. -/
def indentedAt (depth : Nat) : Json → Text
  | .null => "null".toList
  | .bool true => "true".toList
  | .bool false => "false".toList
  | .number n => numberText n
  | .string s => quote s
  | .array elements => block '[' ']' depth (indentedElements (depth + 1) elements)
  | .object members => block '{' '}' depth (indentedMembers (depth + 1) members)

def indentedElements (depth : Nat) : List Json → List Text
  | [] => []
  | v :: rest => indentedAt depth v :: indentedElements depth rest

def indentedMembers (depth : Nat) : List (Text × Json) → List Text
  | [] => []
  | (name, v) :: rest =>
    (quote name ++ ':' :: ' ' :: indentedAt depth v) :: indentedMembers depth rest

end

def indented (v : Json) : Text := indentedAt 0 v

end PackageHistory.Json
