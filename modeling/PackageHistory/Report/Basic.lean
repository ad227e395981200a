import PackageHistory.Cache.Layout
import PackageHistory.History.Query
import PackageHistory.Options
import PackageHistory.Report.Table
import PackageHistory.Scope

/-! # What commands tell: lists for readers and JSON for programs -/

namespace PackageHistory.Report

/-! ## Historical packages -/

def packageColumns : List (Column × (HistoricalPackage → Text)) :=
  [(⟨"PACKAGE".toList, 40, .left⟩, fun p => p.cpv.text),
    (⟨"STATUS".toList, 8, .left⟩, fun p => p.status.text),
    (⟨"DATE".toList, 10, .left⟩, fun p => p.date),
    (⟨"COMMIT".toList, 12, .left⟩, fun p => p.commit.hashOf),
    (⟨"REPO".toList, 16, .left⟩, fun p => p.repoId)]

/-- A table of items, each column with what it shows of one. -/
def table {α : Type} (terminal : Terminal) (columns : List (Column × (α → Text)))
    (items : List α) : Text :=
  Table.render terminal (columns.map Prod.fst) (items.map fun a => columns.map fun c => c.2 a)

def packages (terminal : Terminal) (ps : List HistoricalPackage) : Text :=
  if ps.isEmpty then terminal.dim "No history found.".toList
  else table terminal packageColumns ps

/-- Names and texts as an object. -/
def textMembers (pairs : List (Text × Text)) : Json :=
  Json.ofMembers (pairs.map fun e => (e.1, .string e.2))

def packageJson (p : HistoricalPackage) : Json :=
  .object <|
    [("cpv".toList, .string p.cpv.text), ("category".toList, .string p.cpv.category),
      ("package".toList, .string p.cpv.package), ("version".toList, .string p.cpv.version),
      ("fullver".toList, .string p.cpv.fullver), ("status".toList, .string p.status.text),
      ("date".toList, .string p.date), ("commit".toList, .string p.commit.hashOf),
      ("repo".toList, .string p.repoId)]
    ++ if p.extra.isEmpty then [] else [("extra".toList, textMembers p.extra)]

def packagesJson (ps : List HistoricalPackage) : Json := .array (ps.map packageJson)

/-! ## Commits -/

/-- Hash, date, author and the first line of the message. -/
def commitLine (terminal : Terminal) (c : Commit) : Text :=
  (Text.join [' '] [terminal.yellow c.hash, c.date, terminal.dim c.author,
    c.message.headD []]).trimEnd

def commits (terminal : Terminal) (cs : List Commit) : Text :=
  if cs.isEmpty then terminal.dim "No local commits.".toList
  else Text.join ['\n'] (cs.map (commitLine terminal))

def commitJson (c : Commit) : Json :=
  .object [("hash".toList, .string c.hash), ("commitDate".toList, .string c.date),
    ("author".toList, .string c.author), ("committer".toList, .string c.committer),
    ("message".toList, .array (c.message.map .string))]

def commitsJson (cs : List Commit) : Json := .array (cs.map commitJson)

/-! ## Scopes -/

/-- A title and the indented lines below it; no lines, no title. -/
def titled (terminal : Terminal) (title : String) (lines : List Text) : List Text :=
  if lines.isEmpty then []
  else terminal.bold title.toList :: lines.map fun line => ' ' :: ' ' :: line

def scope (terminal : Terminal) : Scope → Text
  | .empty ref =>
    terminal.dim ("No changes relative to ".toList ++ ref ++ ".".toList)
  | .changed _ targets =>
    Text.join ['\n'] (titled terminal "Packages:" (targets.packages.map Atom.key)
      ++ titled terminal "Eclasses:" targets.eclasses)

def scopeJson (s : Scope) : Json :=
  let targets : ScopeTargets := match s with
    | .empty _ => ⟨[], []⟩
    | .changed _ targets => targets
  .object [("ref".toList, .string s.ref),
    ("packages".toList, .array (targets.packages.map fun a => .string a.key)),
    ("eclasses".toList, .array (targets.eclasses.map .string))]

/-! ## Caches -/

/-- The cache of one tree after a refresh. -/
structure CacheSummary where
  repoId : Text
  location : Text
  /-- The commit the history reaches to; none without a history. -/
  head : Option Text
  /-- How many packages the history tells of. -/
  packages : Number
  deriving DecidableEq, Repr

def CacheSummary.of (tree : Repository) (entry : Option Cache.Entry) : CacheSummary where
  repoId := tree.id
  location := tree.location
  head := entry.map (·.head)
  packages := match entry with
    | some e => .integer e.history.packageCount
    | none => 0

def summaryColumns : List (Column × (CacheSummary → Text)) :=
  [(⟨"REPO".toList, 16, .left⟩, fun s => s.repoId),
    (⟨"HEAD".toList, 12, .left⟩, fun s => match s.head with
      | some head => head.takeUnits 12
      | none => ['-']),
    (⟨"PACKAGES".toList, 8, .right⟩, fun s => s.packages.text),
    (⟨"LOCATION".toList, 48, .left⟩, fun s => s.location)]

def caches (terminal : Terminal) (summaries : List CacheSummary) : Text :=
  if summaries.isEmpty then terminal.dim "No repositories.".toList
  else table terminal summaryColumns summaries

def cacheJson (s : CacheSummary) : Json :=
  .object [("repoId".toList, .string s.repoId), ("location".toList, .string s.location),
    ("head".toList, match s.head with
      | some head => .string head
      | none => .null),
    ("packages".toList, .number s.packages)]

def cachesJson (summaries : List CacheSummary) : Json := .array (summaries.map cacheJson)

/-! ## Options that were refused -/

/-- A place, which may be empty, and what is wrong there. -/
def refusal (terminal : Terminal) (place message : Text) : Text :=
  "  ".toList ++ terminal.red ['•'] ++ ' ' ::
    (if place.isEmpty then [] else terminal.bold place ++ ": ".toList) ++ message

def refusals (terminal : Terminal) (found : List (Text × Text)) : Text :=
  Text.join ['\n'] <|
    terminal.error "Validation failed:".toList :: found.map fun f => refusal terminal f.1 f.2

/-- The place and the message of a finding. -/
def findingTexts (f : Finding) : Text × Text := (Text.join ['.'] f.path, f.issue.message)

end PackageHistory.Report
