import PackageHistory.Cpv
import PackageHistory.Disk
import PackageHistory.Ignore.Rules
import PackageHistory.Issue

/-! # What can go wrong -/

namespace PackageHistory

/-! ## Git commands -/

/-- A git command that did not start or did not succeed. -/
structure GitFailure where
  args : List Text
  exitCode : Option Number
  stderr : Text
  deriving DecidableEq, Repr

namespace GitFailure

def message (e : GitFailure) : Text :=
  let told := e.stderr.firstLine
  let detail := if told.isEmpty then
      "exit code ".toList ++ (match e.exitCode with
        | some code => code.text
        | none => "unknown".toList)
    else told
  "git ".toList ++ e.args.headD [] ++ " failed: ".toList ++ detail

/-- The first line of what git said; without one, the message. -/
def diagnostic (e : GitFailure) : Text :=
  let told := e.stderr.firstLine
  if told.isEmpty then e.message else told

end GitFailure

/-! ## Stored caches -/

/-- What a stored cache can have wrong, for which it is discarded and built anew. -/
inductive CorruptReason where
  | unreadable (e : Disk.Error)
  | notJson
  | noSchemaVersion
  | layout (issue : Issue)
  | stated (t : Text)
  deriving DecidableEq, Repr

def CorruptReason.text : CorruptReason → Text
  | unreadable e => e.message
  | notJson => "<invalid JSON>".toList
  | noSchemaVersion => "missing schema version".toList
  | layout issue => issue.message
  | stated t => t

/-- Why a cache could not be written. -/
inductive PersistReason where
  | disk (e : Disk.Error)
  | stated (t : Text)
  deriving DecidableEq, Repr

def PersistReason.text : PersistReason → Text
  | disk e => e.message
  | stated t => t

/-! ## Shelved changes -/

inductive ShelfOperation where
  | stash | restore
  deriving DecidableEq, Repr

def ShelfOperation.name : ShelfOperation → Text
  | stash => "stash".toList
  | restore => "restore".toList

def ShelfOperation.activity : ShelfOperation → Text
  | stash => "stashing files".toList
  | restore => "applying stash".toList

structure ShelfFailure where
  operation : ShelfOperation
  diagnostic : Text
  /-- What the user has to do to recover. -/
  remediation : Text
  deriving DecidableEq, Repr

def ShelfFailure.message (e : ShelfFailure) : Text :=
  "git failed ".toList ++ e.operation.activity ++ ": ".toList ++ e.diagnostic

/-! ## All failures -/

inductive Failure where
  | malformedAtom (e : MalformedAtom)
  | incomparable (e : Version.Incomparable)
  | disk (e : Disk.Error)
  | gitCommand (e : GitFailure)
  /-- Git is not installed, and was needed for a purpose. -/
  | gitUnavailable (purpose : Text)
  /-- A ref that names no commit. -/
  | gitRef (ref location : Text)
  | cacheCorrupt (path : Text) (reason : CorruptReason)
  /-- A cache of another schema version; `found` is how the file names its own. -/
  | cacheVersion (path found : Text) (expected : Number)
  /-- A value that a message cannot name. -/
  | noLabel
  | cachePersist (path : Text) (reason : PersistReason)
  | shelf (e : ShelfFailure)
  /-- The comparison with a ref that was to find what changed. -/
  | scopeResolution (ref diagnostic : Text)
  /-- A log that ends within a header or message. -/
  | truncatedLog (hash : Text)
  /-- Something that is not there, such as the filter of an unknown view; `wanted` is the first
  thing looked for in it. -/
  | missing (wanted : Text)
  /-- Ignore rules that cannot be read. -/
  | badPattern (e : Ignore.BadPattern)
  /-- A path that is not relative to the folder of the ignore rules. -/
  | notRelative (path : Text)
  | negativeWidth (width : Number)
  /-- A text longer than texts can be. -/
  | tooLong
  /-- Anything else, in its own words. -/
  | other (message : Text)

namespace Failure

def message : Failure → Text
  | malformedAtom e => e.message
  | incomparable e => e.message
  | disk e => e.message
  | gitCommand e => e.message
  | gitUnavailable purpose => "git not available to ".toList ++ purpose
  | gitRef ref location =>
    "failed retrieving commit hash for ".toList ++ ref ++ " in git repo: ".toList ++ location
  | cacheCorrupt path reason =>
    "corrupt history cache ".toList ++ path ++ ": ".toList ++ reason.text
  | cacheVersion path found expected =>
    "outdated history cache ".toList ++ path ++ ": version ".toList ++ found
      ++ ", expected ".toList ++ expected.text
  | noLabel => "Cannot convert object to primitive value".toList
  | cachePersist path reason =>
    "failed dumping history cache: ".toList ++ path ++ ": ".toList ++ reason.text
  | shelf e => e.message
  | scopeResolution _ diagnostic => "failed running git: ".toList ++ diagnostic
  | truncatedLog hash =>
    "git log output ended inside the message of commit ".toList
      ++ (if hash.isEmpty then "<unknown>".toList else hash)
  | missing wanted =>
    "Cannot read properties of undefined (reading '".toList ++ wanted ++ "')".toList
  | badPattern e => e.message
  | notRelative path =>
    "path should be a \x60path.relative()\x60d string, but got \"".toList ++ path ++ "\"".toList
  | negativeWidth width => "Invalid count value: ".toList ++ width.text
  | tooLong => "Invalid string length".toList
  | other message => message

/-- The failure of a cache that names another version than is expected, or none at all. -/
def outdated (path : Text) (found : Option Json) (expected : Number) : Failure :=
  match found with
  | none => cacheVersion path "undefined".toList expected
  | some v =>
    match v.label? with
    | some label => cacheVersion path label expected
    | none => noLabel

/-- Failures of loading for which a stored cache is discarded. -/
def isCacheInvalid : Failure → Bool
  | cacheCorrupt _ _ | cacheVersion _ _ _ => true
  | _ => false

end Failure

end PackageHistory
