import PackageHistory.Json.Basic

/-! # What is wrong with a value that was checked against a description -/

namespace PackageHistory

inductive Issue where
  /-- A member that must be there is missing. -/
  | required
  /-- A value of another type, both by name. -/
  | wrongType (expected received : Text)
  | emptyText
  | notInteger
  | negative
  | tooFew (least : Nat)
  | tooMany (most : Nat)
  | unknownMembers (names : List Text)
  /-- A text or number that is none of the words allowed. -/
  | notAmong (words : List Text) (received : Text)
  /-- A value that can be no word at all. -/
  | noWord (words : List Text) (received : Text)
  deriving DecidableEq, Repr

namespace Issue

def choices (words : List Text) : Text :=
  Text.join " | ".toList (words.map fun w => '\'' :: w ++ ['\''])

def message : Issue → Text
  | required => "Required".toList
  | wrongType expected received =>
    "Expected ".toList ++ expected ++ ", received ".toList ++ received
  | emptyText => "String must contain at least 1 character(s)".toList
  | notInteger => "Expected integer, received float".toList
  | negative => "Number must be greater than or equal to 0".toList
  | tooFew least =>
    "Array must contain at least ".toList ++ Text.ofNat least ++ " element(s)".toList
  | tooMany most => "Array must contain at most ".toList ++ Text.ofNat most ++ " element(s)".toList
  | unknownMembers names =>
    "Unrecognized key(s) in object: ".toList
      ++ Text.join ", ".toList (names.map fun n => '\'' :: n ++ ['\''])
  | notAmong words received =>
    "Invalid enum value. Expected ".toList ++ choices words ++ ", received '".toList ++ received
      ++ "'".toList
  | noWord words received =>
    "Expected ".toList ++ choices words ++ ", received ".toList ++ received

/-- The issue of a value that had to be of some type. -/
def ofType (expected : Text) (v : Json) : Issue := .wrongType expected v.typeName

end Issue

end PackageHistory
