import PackageHistory.Proofs.Log.Printing

/-!
# Printed logs

A log in the requested format is read as the commits that it was printed from, in their order and each with the
lines of its message and its files. What stands before the first commit and blank lines among the files leave
no trace.
-/

namespace PackageHistory.Log

variable {commits : List (Commit × List Text)} {x : Commit × List Text} {lines : List Text}

/-! ## What is printed -/

/-- The lines of the format. -/
def fields : List Text := [beginMarker] ++ headerFields ++ ["%B".toList, messageEnd]

/-- What git prints for a line of the format. A message ends with a line end of its own. -/
def printField (c : Commit) (field : Text) : List Text :=
  if field = "%h".toList then [c.hash]
  else if field = "%cd".toList then [c.date]
  else if field = "%an <%ae>".toList then [c.author]
  else if field = "%cn <%ce>".toList then [c.committer]
  else if field = "%B".toList then c.message ++ [[]]
  else [field]

def isBlankLine (line : Text) : Bool := line.trim.isEmpty

/-- Lines of a commit: the format, then its files with blank lines anywhere among them. -/
def IsPrintOf (x : Commit × List Text) (lines : List Text) : Prop :=
  ∃ files, files.filter (fun line => !isBlankLine line) = x.2 ∧
    lines = fields.flatMap (printField x.1) ++ files

/-- Lines of a log: anything but a begin marker, then the commits. -/
def IsPrintOfAll (commits : List (Commit × List Text)) (lines : List Text) : Prop :=
  ∃ preamble pieces, beginMarker ∉ preamble ∧ List.Forall₂ IsPrintOf commits pieces ∧
    lines = preamble ++ pieces.flatten

/-- A commit and its files as git knows them: without white space around headers and files, and with no marker
in the place that it ends. -/
structure IsTidy (x : Commit × List Text) : Prop where
  header : ∀ line ∈ [x.1.hash, x.1.date, x.1.author, x.1.committer], line.Trimmed
  message : messageEnd ∉ x.1.message
  files : ∀ line ∈ x.2, line.Trimmed ∧ line ≠ [] ∧ line ≠ beginMarker

/-! ## The layout of printed lines -/

theorem flatMap_printField (c : Commit) : fields.flatMap (printField c) =
    beginMarker :: ([c.hash, c.date, c.author, c.committer] ++ (c.message ++ [[]])) ++ [messageEnd] := by
  rfl

theorem begin_not_mem_of_filter (hx : IsTidy x) {files : List Text}
    (hfiles : files.filter (fun line => !isBlankLine line) = x.2) : beginMarker ∉ files := by
  intro hmem
  have hfilled : beginMarker ∈ x.2 := by
    rw [← hfiles, List.mem_filter]
    exact ⟨hmem, by decide +kernel⟩
  exact (hx.files _ hfilled).2.2 rfl

theorem trimFiles_of_filter (hx : IsTidy x) {files : List Text}
    (hfiles : files.filter (fun line => !isBlankLine line) = x.2) : trimFiles files = x.2 := by
  have htrim : trimFiles files = (files.filter fun line => !isBlankLine line).map Text.trim := by
    rw [trimFiles, List.filter_map]
    rfl
  rw [htrim, hfiles, List.map_congr_left fun line hline => (hx.files line hline).1]
  exact List.map_id' x.2

theorem trimHeader_of_isTidy (hx : IsTidy x) : trimHeader x.1 = x.1 := by
  obtain ⟨hhash, hdate, hauthor, hcommitter⟩ : x.1.hash.trim = x.1.hash ∧ x.1.date.trim = x.1.date ∧
      x.1.author.trim = x.1.author ∧ x.1.committer.trim = x.1.committer := by
    simpa [Text.Trimmed] using hx.header
  rw [trimHeader, hhash, hdate, hauthor, hcommitter]

theorem IsPrintOf.exists_section (hx : IsTidy x) (h : IsPrintOf x lines) :
    ∃ s : Section, s.lines = lines ∧ s.told = x := by
  obtain ⟨files, hfiles, rfl⟩ := h
  have hbegin := begin_not_mem_of_filter hx hfiles
  refine ⟨.ofCommit x.1 files hx.message hbegin, ?_, ?_⟩
  · rw [flatMap_printField, Section.lines_ofCommit hx.message hbegin, List.append_assoc]
    rfl
  · rw [Section.told_ofCommit hx.message hbegin, trimHeader_of_isTidy hx, trimFiles_of_filter hx hfiles]

theorem IsPrintOfAll.entriesOf (hcommits : ∀ x ∈ commits, IsTidy x) (h : IsPrintOfAll commits lines) :
    (Log.entriesOf ⟨lines, none⟩).items = LogEntry.enumerate commits ∧
      (Log.entriesOf ⟨lines, none⟩).failure = none := by
  obtain ⟨preamble, pieces, hpreamble, hpieces, rfl⟩ := h
  have htidy := (List.forall₂_and_left commits pieces).mpr ⟨hcommits, hpieces⟩
  exact Layout.entriesOf_pieces hpreamble (htidy.imp fun x piece hx => hx.2.exists_section hx.1)

/-- A log that is printed as its template asks reads back as the commits that were printed, numbered as they
came. -/
theorem entries_of_printed (hcommits : ∀ x ∈ commits, IsTidy x) (hprinted : IsPrintOfAll commits lines)
    (location range : Text) (w : World)
    (hstream : w.git.stream w.calls ⟨.lines, args range, location⟩ = ⟨lines, none⟩) :
    template = Text.join "%n".toList fields ∧
    ∃ r, (entries location range w).1 = .ok r ∧ r.items.map LogEntry.content = commits ∧
      r.items.map LogEntry.index = List.range commits.length ∧ r.failure = none ∧ r.warning = none := by
  refine ⟨rfl, ?_⟩
  obtain ⟨hitems, hfailure⟩ := hprinted.entriesOf hcommits
  refine ⟨entriesOf ⟨lines, none⟩, ?_, ?_, ?_, hfailure, warning_entriesOf lines⟩
  · rw [← hstream]
    rfl
  · rw [hitems, LogEntry.map_content_enumerate]
  · rw [hitems, LogEntry.map_index_enumerate]

/-- A commit with an empty message and no files, and one whose message has blank lines at both ends and looks
like a commit of its own. -/
def marginalCommits : List (Commit × List Text) :=
  [(⟨"c1".toList, "2024-01-01".toList, [], [], []⟩, []),
    (⟨"c2".toList, "2024-01-02".toList, beginMarker, messageEnd, [[], beginMarker, "x ".toList, []]⟩,
      ["A\tdev-libs/foo/foo-1.ebuild".toList, messageEnd])]

def marginalLines : List Text :=
  ["warning".toList, messageEnd,
    beginMarker, "c1".toList, "2024-01-01".toList, [], [], [], messageEnd,
    beginMarker, "c2".toList, "2024-01-02".toList, beginMarker, messageEnd,
    [], beginMarker, "x ".toList, [], [], messageEnd,
    [], "A\tdev-libs/foo/foo-1.ebuild".toList, " ".toList, messageEnd, []]

theorem entries_of_marginalLines :
    ∃ r, (entries [] [] (streamingWorld marginalLines none)).1 = .ok r ∧
      r.items.map LogEntry.content = marginalCommits ∧ r.items.map LogEntry.index = [0, 1] := by
  have hcommits : ∀ x ∈ marginalCommits, IsTidy x := by
    intro x hx
    rcases List.mem_cons.mp hx with rfl | hx
    · exact ⟨by decide +kernel, by decide +kernel, by decide +kernel⟩
    · rw [List.mem_singleton.mp hx]
      exact ⟨by decide +kernel, by decide +kernel, by decide +kernel⟩
  have hprinted : IsPrintOfAll marginalCommits marginalLines := by
    refine ⟨["warning".toList, messageEnd], _, by decide +kernel, .cons ⟨[], rfl, rfl⟩
      (.cons ⟨[[], "A\tdev-libs/foo/foo-1.ebuild".toList, " ".toList, messageEnd, []], ?_, rfl⟩ .nil), ?_⟩
    · decide +kernel
    · decide +kernel
  obtain ⟨-, r, hr, hcontent, hindex, -⟩ :=
    entries_of_printed hcommits hprinted [] [] (streamingWorld marginalLines none) rfl
  exact ⟨r, hr, hcontent, hindex⟩

end PackageHistory.Log
