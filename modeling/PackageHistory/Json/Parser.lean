import PackageHistory.Json.Basic
/-!
# Reading JSON

Every reader takes the text from where it stands and gives what it read with the rest. The readers
of values call each other with less fuel each time; twice the length of the text and some is enough,
since at most two calls pass before a character is read.
-/

namespace PackageHistory.Json

/-! ## Leaves -/

def skipSpace : Text → Text :=
  List.dropWhile fun c => c = ' ' || c = '\t' || c = '\n' || c = '\r'

def hexUnit? (a b c d : Char) : Option Nat := do
  let digits ← [a, b, c, d].mapM Text.hexValue?
  return digits.foldl (fun n digit => 16 * n + digit) 0

/-- Two escaped units that are halves of one character. -/
def joinUnits? (lead trail : Nat) : Option Char :=
  if 0xd800 ≤ lead && lead < 0xdc00 && 0xdc00 ≤ trail && trail < 0xe000 then
    some (Char.ofNat (0x10000 + (lead - 0xd800) * 0x400 + (trail - 0xdc00)))
  else none

/-- The character of a unit; half a character alone is replaced. -/
def ofUnit (unit : Nat) : Char := if unit.isValidChar then Char.ofNat unit else '\ufffd'

def simpleEscape? : Char → Option Char
  | '"' => some '"'
  | '\\' => some '\\'
  | '/' => some '/'
  | 'b' => some '\x08'
  | 'f' => some '\x0c'
  | 'n' => some '\n'
  | 'r' => some '\r'
  | 't' => some '\t'
  | _ => none

/-- Reads up to the closing quote. -/
def readString : Text → Option (Text × Text)
  | [] => none
  | '"' :: t => some ([], t)
  | '\\' :: 'u' :: a :: b :: c :: d :: '\\' :: 'u' :: e :: f :: g :: h :: t => do
    let unit ← hexUnit? a b c d
    match hexUnit? e f g h with
    | none => none
    | some next =>
      match joinUnits? unit next with
      | some ch => (readString t).map fun r => (ch :: r.1, r.2)
      | none =>
        (readString ('\\' :: 'u' :: e :: f :: g :: h :: t)).map fun r => (ofUnit unit :: r.1, r.2)
  | '\\' :: 'u' :: a :: b :: c :: d :: t => do
    let unit ← hexUnit? a b c d
    (readString t).map fun r => (ofUnit unit :: r.1, r.2)
  | '\\' :: c :: t => do
    let ch ← simpleEscape? c
    (readString t).map fun r => (ch :: r.1, r.2)
  | c :: t =>
    if c.toNat < 0x20 || c = '\\' then none else (readString t).map fun r => (c :: r.1, r.2)
termination_by t => t.length

/-- The digits after a point; without a point there are none. -/
def readFraction : Text → Option (Text × Text)
  | '.' :: t =>
    let (digits, rest) := t.span Char.isDigit
    if digits.isEmpty then none else some (digits, rest)
  | t => some ([], t)

/-- The power of ten after `e` or `E`; without one it is zero. -/
def readPower (t : Text) : Option (Int × Text) :=
  let signed (negative : Bool) (t : Text) : Option (Int × Text) :=
    let (digits, rest) := t.span Char.isDigit
    if digits.isEmpty then none
    else
      let n : Int := Text.digitsValue digits
      some (if negative then -n else n, rest)
  match t with
  | c :: t' =>
    if c = 'e' || c = 'E' then
      match t' with
      | '+' :: t => signed false t
      | '-' :: t => signed true t
      | t => signed false t
    else some (0, t)
  | [] => some (0, t)

/-- A number; its whole part has no leading zeros. -/
def readNumber (t : Text) : Option (Number × Text) := do
  let (negative, t) := match t with
    | '-' :: t => (true, t)
    | t => (false, t)
  let (whole, t) := t.span Char.isDigit
  if whole.isEmpty || (whole.head? = some '0' && 1 < whole.length) then none
  else
    let (part, t) ← readFraction t
    let (power, t) ← readPower t
    return (Number.ofDecimal negative (whole ++ part) (power - part.length), t)

def readWord (t : Text) : Option (Json × Text) :=
  if let some rest := Text.stripStart? "null".toList t then some (.null, rest)
  else if let some rest := Text.stripStart? "true".toList t then some (.bool true, rest)
  else if let some rest := Text.stripStart? "false".toList t then some (.bool false, rest)
  else none

/-! ## Values -/

mutual

def readValue : Nat → Text → Option (Json × Text)
  | 0, _ => none
  | fuel + 1, t =>
    match skipSpace t with
    | '{' :: t =>
      match skipSpace t with
      | '}' :: t => some (.object [], t)
      | t => (readMembers fuel t).map fun r => (ofMembers r.1, r.2)
    | '[' :: t =>
      match skipSpace t with
      | ']' :: t => some (.array [], t)
      | t => (readElements fuel t).map fun r => (.array r.1, r.2)
    | '"' :: t => (readString t).map fun r => (.string r.1, r.2)
    | t =>
      match readWord t with
      | some r => some r
      | none => (readNumber t).map fun r => (.number r.1, r.2)

/-- One or more values up to the closing bracket. -/
def readElements : Nat → Text → Option (List Json × Text)
  | 0, _ => none
  | fuel + 1, t =>
    match readValue fuel t with
    | none => none
    | some (value, t) =>
      match skipSpace t with
      | ',' :: t => (readElements fuel t).map fun r => (value :: r.1, r.2)
      | ']' :: t => some ([value], t)
      | _ => none

/-- One or more members up to the closing brace. -/
def readMembers : Nat → Text → Option (List (Text × Json) × Text)
  | 0, _ => none
  | fuel + 1, t =>
    match skipSpace t with
    | '"' :: t =>
      match readString t with
      | none => none
      | some (name, t) =>
        match skipSpace t with
        | ':' :: t =>
          match readValue fuel t with
          | none => none
          | some (value, t) =>
            match skipSpace t with
            | ',' :: t => (readMembers fuel t).map fun r => ((name, value) :: r.1, r.2)
            | '}' :: t => some ([(name, value)], t)
            | _ => none
        | _ => none
    | _ => none

end

/-- The value of a JSON text; none when it is not one. -/
def parse? (t : Text) : Option Json :=
  match readValue (2 * t.length + 2) t with
  | some (value, rest) => if (skipSpace rest).isEmpty then some value else none
  | none => none

end PackageHistory.Json
