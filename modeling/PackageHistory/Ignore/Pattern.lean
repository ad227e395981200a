import PackageHistory.Regex.Reader

/-!
# Patterns of paths to ignore

A pattern stands for a regular expression. The text of that expression is made from the pattern step
by step: each step works on the text that the step before has left, so what one puts in, a later one
may change.
-/

namespace PackageHistory.Ignore

/-! ## White space -/

/-- White space at the end is dropped; behind a backslash one space of it stays. -/
def dropTrailingBlank (t : Text) : Text :=
  let body := t.trimEnd
  if body.length = t.length then t
  else
    let slashes := (body.reverse.takeWhile (· = '\\')).length
    if slashes % 2 = 1 then body.dropLast ++ [' '] else body

/-- White space behind backslashes becomes a plain space, which takes the place of the last
backslash when their number is odd. -/
def plainSpaces : Text → Text
  | '\\' :: '\\' :: c :: rest =>
    if isBlank c then '\\' :: '\\' :: ' ' :: plainSpaces rest
    else '\\' :: '\\' :: plainSpaces (c :: rest)
  | '\\' :: c :: rest =>
    if isBlank c then ' ' :: plainSpaces rest else '\\' :: plainSpaces (c :: rest)
  | c :: rest => c :: plainSpaces rest
  | [] => []

/-- Drops a byte order mark at the start and takes care of white space. -/
def prepare (t : Text) : Text :=
  plainSpaces (dropTrailingBlank (match t with
    | '\ufeff' :: rest => rest
    | t => t))

/-! ## Characters -/

/-- Characters that mean something in an expression but not in a pattern, but for the backslash. -/
def isSpecial (c : Char) : Bool := "$.|*+()\x7b^".toList.contains c

/-- Special characters and backslashes get a backslash in front. A question mark becomes any
character of a name. -/
def escapeSpecial (t : Text) : Text :=
  t.flatMap fun c =>
    if c = '\\' || isSpecial c then ['\\', c]
    else if c = '?' then "[^/]".toList
    else [c]

/-- The slash at the start becomes the start of the path; all others get a backslash in front. -/
def escapeSlashes (t : Text) : Text :=
  let escape (t : Text) : Text := t.flatMap fun c => if c = '/' then ['\\', '/'] else [c]
  match t with
  | '/' :: rest => '^' :: escape rest
  | t => escape t

/-- Three backslashes before a special character are those of an escaped backslash and of the
character; one is left. -/
def mergeBeforeSpecial : Text → Text
  | '\\' :: '\\' :: '\\' :: c :: rest =>
    if isSpecial c then '\\' :: mergeBeforeSpecial (c :: rest)
    else '\\' :: mergeBeforeSpecial ('\\' :: '\\' :: c :: rest)
  | c :: rest => c :: mergeBeforeSpecial rest
  | [] => []

/-- Of two backslashes one is left. -/
def mergePairs : Text → Text
  | '\\' :: '\\' :: rest => '\\' :: mergePairs rest
  | c :: rest => c :: mergePairs rest
  | [] => []

/-- A backslash of the pattern makes a special character plain, or another backslash. -/
def mergeBackslashes (t : Text) : Text := mergePairs (mergeBeforeSpecial t)

/-! ## Where a pattern begins -/

/-- Two stars and a slash at the start stand for any folders. -/
def leadingFolders (t : Text) : Text :=
  match Text.stripStart? "\\*\\*\\/".toList (t.dropWhile (· = '^')) with
  | some rest => "^(?:.*\\/)?".toList ++ rest
  | none => t

/-- A pattern with a slash that is not at its end is tied to the root; any other one begins at the
root or behind a slash. -/
def placeStart (tied : Bool) (t : Text) : Text :=
  match t with
  | [] => []
  | '^' :: rest => '^' :: rest
  | t => (if tied then "^".toList else "(?:^|\\/)".toList) ++ t

/-! ## Stars -/

/-- Two stars between slashes stand for any folders, at the end for all that lies below. -/
def innerFolders : Text → Text
  | [] => []
  | '\\' :: '/' :: '\\' :: '*' :: '\\' :: '*' :: rest =>
    match rest with
    | [] => "\\/.+".toList
    | '\\' :: '/' :: more => "(?:\\/[^\\/]+)*".toList ++ innerFolders ('\\' :: '/' :: more)
    | rest => '\\' :: innerFolders ('/' :: '\\' :: '*' :: '\\' :: '*' :: rest)
  | c :: rest => c :: innerFolders rest

/-- How many stars stand one after another, and what follows them. -/
def starRun : Text → Nat × Text
  | '\\' :: '*' :: rest => ((starRun rest).1 + 1, (starRun rest).2)
  | t => (0, t)

/-- Stars in a row with a character behind them, all of one line, stand for any part of a name. They
do so only when `free`, which means behind a character that is no backslash. -/
def innerStars : Nat → Bool → Text → Text
  | 0, _, _ | _, _, [] => []
  | fuel + 1, free, '\\' :: '*' :: rest =>
    let (n, behind) := starRun rest
    let name := "[^\\/]*".toList
    if !free then '\\' :: '*' :: innerStars fuel true rest
    else if behind.head?.any (!isLineEnd ·) then name ++ innerStars fuel false behind
    else if n = 0 then '\\' :: '*' :: innerStars fuel true rest
    else name ++ '\\' :: '*' :: innerStars fuel true behind
  | fuel + 1, _, c :: rest => c :: innerStars fuel (c ≠ '\\') rest

/-- A star at the end stands for the rest of a name, and for at least one character of it when it is
all there is of the name. -/
def endingStar (t : Text) : Text :=
  match Text.stripEnd? "\\*".toList t with
  | none => t
  | some before =>
    let whole := before.getLast? = some '^' || (Text.stripEnd? "\\/".toList before).isSome
    before ++ (if whole then "[^/]+".toList else "[^/]*".toList) ++ "(?=$|\\/$)".toList

/-! ## Brackets -/

/-- Drops ranges between digits and letters whose ends are in the wrong order. -/
def dropWrongRanges : Text → Text
  | a :: '-' :: b :: rest =>
    let isEnd (c : Char) : Bool := '0' ≤ c && c ≤ 'z'
    if isEnd a && isEnd b then
      (if a ≤ b then [a, '-', b] else []) ++ dropWrongRanges rest
    else a :: dropWrongRanges ('-' :: b :: rest)
  | c :: rest => c :: dropWrongRanges rest
  | [] => []

/-- The text of a bracket behind its opening: what is in it up to the backslashes at its end, those
backslashes, and whether it is closed. A set that is not closed, or closed behind a lone backslash,
holds nothing. Behind a backslash the brackets are plain characters. -/
def bracketText (plain : Bool) (content backslashes : Text) (closed : Bool) : Text :=
  let closing : Text := if closed then [']'] else []
  if plain then
    "\\[".toList ++ content ++ backslashes.drop (backslashes.length % 2) ++ closing
  else if closed && backslashes.length % 2 = 0 then
    '[' :: dropWrongRanges content ++ backslashes ++ closing
  else "[]".toList

/-- Mends the brackets that no slash comes within. -/
def mendBrackets : Nat → Text → Text
  | 0, _ | _, [] => []
  | fuel + 1, t =>
    let (plain, body) := match t with
      | '\\' :: '[' :: rest => (true, some rest)
      | '[' :: rest => (false, some rest)
      | _ => (false, none)
    let mended := body.bind fun body =>
      let (inside, rest) := body.span fun c => c ≠ ']' && c ≠ '/'
      if rest.head? = some '/' then none
      else
        let backslashes := inside.reverse.takeWhile (· = '\\')
        let content := inside.take (inside.length - backslashes.length)
        some (bracketText plain content backslashes !rest.isEmpty, rest.drop 1)
    match mended, t with
    | some (text, rest), _ => text ++ mendBrackets fuel rest
    | none, c :: rest => c :: mendBrackets fuel rest
    | none, [] => []

/-! ## Where a pattern ends -/

/-- A pattern ends where a path ends or before a last slash; a slash at its end matches folders
only. -/
def placeEnd (t : Text) : Text :=
  match t.getLast? with
  | some '*' | none => t
  | some '/' => t ++ ['$']
  | some _ => t ++ "(?=$|\\/$)".toList

/-! ## All together -/

/-- The text of the expression that a pattern stands for. -/
def expressionText (pattern : Text) : Text :=
  let tied := pattern.dropLast.contains '/'
  let t := escapeSlashes (escapeSpecial (prepare pattern))
  let t := innerFolders (placeStart tied (leadingFolders t))
  let t := mergeBackslashes (innerStars t.length true t)
  endingStar (placeEnd (mendBrackets t.length t))

end PackageHistory.Ignore
