import PackageHistory.Proofs.Log.Layout

/-!
# Reading what was printed

A printed commit is read as it was, with its header trimmed and its file lines trimmed and without
blank ones, unless its message holds the end marker or its files the begin marker.
-/

namespace PackageHistory.Log

open LogEntry (enumerate)

/-! ## Lines as they are read -/

/-- A header as it is read. -/
def trimHeader (c : Commit) : Commit :=
  ⟨c.hash.trim, c.date.trim, c.author.trim, c.committer.trim, c.message⟩

def trimmed (x : Commit × List Text) : Commit × List Text := (trimHeader x.1, trimFiles x.2)

/-- Commits that none of the markers stands in the way of. -/
structure IsPrintable (commits : List (Commit × List Text)) : Prop where
  messages : ∀ x ∈ commits, messageEnd ∉ x.1.message
  files : ∀ x ∈ commits, beginMarker ∉ x.2

/-! ## One commit -/

theorem dropLastBlank_append (message : List Text) : dropLastBlank (message ++ [[]]) = message := by
  simp [dropLastBlank]

namespace Section

variable {c : Commit} {files : List Text}

/-- A commit as it stands in a log. -/
def ofCommit (c : Commit) (files : List Text) (hmessage : messageEnd ∉ c.message)
    (hfiles : beginMarker ∉ files) : Section where
  opening := ⟨[c.hash, c.date, c.author, c.committer], c.message ++ [[]], le_rfl, nofun, by
    rw [List.mem_append, List.mem_singleton, not_or]
    exact ⟨hmessage, by decide⟩⟩
  files := files
  header_whole := rfl
  begin_not_mem := hfiles

theorem told_ofCommit (hmessage : messageEnd ∉ c.message) (hfiles : beginMarker ∉ files) :
    (ofCommit c files hmessage hfiles).told = (trimHeader c, trimFiles files) := by
  simp [told, ofCommit, commitOf, dropLastBlank_append, trimHeader]

theorem lines_ofCommit (hmessage : messageEnd ∉ c.message) (hfiles : beginMarker ∉ files) :
    (ofCommit c files hmessage hfiles).lines = beginMarker ::
      ([c.hash, c.date, c.author, c.committer] ++ (c.message ++ [[]])) ++ messageEnd :: files := rfl

end Section

theorem exists_section_of_printCommit {c : Commit} {files : List Text} (hmessage : messageEnd ∉ c.message)
    (hfiles : beginMarker ∉ files) :
    ∃ s : Section, s.lines = printCommit c files ∧ s.told = (trimHeader c, trimFiles files) := by
  have hblank : beginMarker ∉ [] :: files := by
    rw [List.mem_cons, not_or]
    exact ⟨by decide, hfiles⟩
  refine ⟨.ofCommit c ([] :: files) hmessage hblank, rfl, ?_⟩
  rw [Section.told_ofCommit]
  rfl

/-! ## All commits -/

theorem entriesOf_print {commits : List (Commit × List Text)} (h : IsPrintable commits) :
    (entriesOf ⟨print commits, none⟩).items = enumerate (commits.map trimmed) ∧
      (entriesOf ⟨print commits, none⟩).failure = none := by
  have hpieces : List.Forall₂ (fun x piece => ∃ s : Section, s.lines = piece ∧ s.told = x)
      (commits.map trimmed) (commits.map fun x => printCommit x.1 x.2) := by
    rw [List.forall₂_map_left_iff, List.forall₂_map_right_iff, List.forall₂_same]
    exact fun x hx => exists_section_of_printCommit (h.messages x hx) (h.files x hx)
  exact Layout.entriesOf_pieces List.not_mem_nil hpieces

theorem failure_print {commits : List (Commit × List Text)} (h : IsPrintable commits) :
    (entriesOf ⟨print commits, none⟩).failure = none :=
  (entriesOf_print h).2

theorem itemsOf_print {commits : List (Commit × List Text)} (h : IsPrintable commits) :
    itemsOf (print commits) = enumerate (commits.map trimmed) :=
  (entriesOf_print h).1

end PackageHistory.Log
