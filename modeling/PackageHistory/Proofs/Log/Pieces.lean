import PackageHistory.Log.Reader

/-!
# Logs that are cut between two commits

A reader that meets a begin marker outside of headers and messages goes on as if it had just
started, only that its entries come behind those before. So the two parts of a log that is cut there
are read as the whole is.
-/

namespace PackageHistory

namespace LogEntry

/-- The entry with `n` more commits before it. -/
def shift (n : Nat) (e : LogEntry) : LogEntry := { e with index := n + e.index }

/-- What a log says of a commit. -/
def content (e : LogEntry) : Commit × List Text := (e.commit, e.fileLines)

/-- The entries of commits that make up a range. -/
def enumerate (commits : List (Commit × List Text)) : List LogEntry :=
  commits.zipIdx.map fun x => ⟨x.1.1, x.2, x.1.2⟩

@[simp] theorem length_enumerate (commits : List (Commit × List Text)) :
    (enumerate commits).length = commits.length := by
  simp [enumerate]

@[simp] theorem map_content_enumerate (commits : List (Commit × List Text)) :
    (enumerate commits).map content = commits := by
  rw [enumerate, List.map_map]
  exact List.zipIdx_map_fst 0 commits

@[simp] theorem map_index_enumerate (commits : List (Commit × List Text)) :
    (enumerate commits).map index = List.range commits.length := by
  rw [enumerate, List.map_map, List.range_eq_range']
  exact List.zipIdx_map_snd 0 commits

theorem zipIdx_map_entry (commits : List (Commit × List Text)) (n : Nat) :
    (commits.zipIdx n).map (fun x => (⟨x.1.1, x.2, x.1.2⟩ : LogEntry)) =
      (enumerate commits).map (shift n) := by
  rw [enumerate, List.zipIdx_eq_map_add, List.map_map, List.map_map]
  apply List.map_congr_left
  intro x _
  simp [shift]

theorem enumerate_append (xs ys : List (Commit × List Text)) :
    enumerate (xs ++ ys) = enumerate xs ++ (enumerate ys).map (shift xs.length) := by
  rw [← zipIdx_map_entry ys, enumerate, List.zipIdx_append, List.map_append, Nat.zero_add]
  rfl

theorem mem_enumerate {commits : List (Commit × List Text)} {e : LogEntry} :
    e ∈ enumerate commits ↔ commits[e.index]? = some e.content := by
  simp only [enumerate, List.mem_map, Prod.exists, List.mem_zipIdx_iff_getElem?]
  constructor
  · rintro ⟨c, lines, i, h, rfl⟩
    exact h
  · intro h
    exact ⟨e.commit, e.fileLines, e.index, h, rfl⟩

end LogEntry

namespace Log

/-! ## Readers that stand behind other entries -/

namespace Reader

open LogEntry (shift enumerate content)

/-- The reader with other entries closed before its own. -/
def behind (prior : List LogEntry) (r : Reader) : Reader :=
  ⟨prior ++ r.closed.map (shift prior.length), r.position⟩

theorem close_behind (prior : List LogEntry) (r : Reader) (c : Commit) (lines : List Text) :
    (r.behind prior).close c lines = prior ++ (r.close c lines).map (shift prior.length) := by
  simp [close, behind, shift]

theorem feed_behind (prior : List LogEntry) (r : Reader) (line : Text) :
    (r.behind prior).feed line = (r.feed line).behind prior := by
  obtain ⟨closed, position⟩ := r
  cases position with
  | seeking => simp only [feed, behind]; split <;> rfl
  | header lines => rfl
  | message header lines => simp only [feed, behind]; split <;> rfl
  | files commit lines =>
    have hclose := close_behind prior ⟨closed, .files commit lines⟩ commit lines
    simp only [behind] at hclose
    simp only [feed, behind]
    split
    · rw [hclose]
    · split <;> rfl

theorem feedAll_behind (prior : List LogEntry) (r : Reader) (lines : List Text) :
    (r.behind prior).feedAll lines = (r.feedAll lines).behind prior := by
  induction lines generalizing r with
  | nil => rfl
  | cons line rest ih =>
    show ((r.behind prior).feed line).feedAll rest = ((r.feed line).feedAll rest).behind prior
    rw [feed_behind, ih]

theorem finish_behind (prior : List LogEntry) (r : Reader) :
    (r.behind prior).finish =
      (prior ++ r.finish.1.map (shift prior.length), r.finish.2) := by
  obtain ⟨closed, position⟩ := r
  cases position with
  | files commit lines => exact congrArg (·, none) (close_behind prior ⟨closed, _⟩ commit lines)
  | _ => rfl

/-- A begin marker outside of headers and messages starts the reader anew. -/
theorem feed_beginMarker {r : Reader} (h : r.finish.2 = none) :
    r.feed beginMarker = (start.feed beginMarker).behind r.finish.1 := by
  obtain ⟨closed, position⟩ := r
  cases position with
  | seeking => simp [feed, behind, finish, start]
  | header lines => simp [finish] at h
  | message header lines => simp [finish] at h
  | files commit lines => simp [feed, behind, finish, start]

theorem finish_append {s t : List Text} (hs : (start.feedAll s).finish.2 = none)
    (ht : t.head? = some beginMarker) :
    (start.feedAll (s ++ t)).finish =
      ((start.feedAll s).finish.1 ++
          (start.feedAll t).finish.1.map (shift (start.feedAll s).finish.1.length),
        (start.feedAll t).finish.2) := by
  obtain ⟨rest, rfl⟩ : ∃ rest, t = beginMarker :: rest := by
    cases t with
    | nil => simp at ht
    | cons line rest => exact ⟨rest, by simp_all⟩
  rw [feedAll_append]
  show (((start.feedAll s).feed beginMarker).feedAll rest).finish = _
  rw [feed_beginMarker hs, feedAll_behind, finish_behind]
  rfl

/-! ## The places of entries -/

/-- The closed entries are numbered as they came. -/
def Ordered (r : Reader) : Prop := r.closed = enumerate (r.closed.map content)

theorem ordered_close {r : Reader} (h : r.Ordered) (c : Commit) (lines : List Text) :
    r.close c lines = enumerate ((r.close c lines).map content) := by
  rw [close, List.map_append, LogEntry.enumerate_append, ← h]
  simp [enumerate, content, shift]

theorem ordered_feed {r : Reader} (h : r.Ordered) (line : Text) : (r.feed line).Ordered := by
  obtain ⟨closed, position⟩ := r
  cases position with
  | seeking => simp only [feed]; split <;> exact h
  | header lines => exact h
  | message header lines => simp only [feed]; split <;> exact h
  | files commit lines =>
    simp only [feed]
    split
    · exact ordered_close h commit lines
    · split <;> exact h

theorem ordered_feedAll (lines : List Text) : (start.feedAll lines).Ordered := by
  have hrun : ∀ (r : Reader), r.Ordered → (r.feedAll lines).Ordered := by
    induction lines with
    | nil => exact fun _ h => h
    | cons line rest ih => exact fun r h => ih _ (ordered_feed h line)
  exact hrun start rfl

theorem ordered_finish {r : Reader} (h : r.Ordered) :
    r.finish.1 = enumerate (r.finish.1.map content) := by
  obtain ⟨closed, position⟩ := r
  cases position with
  | files commit lines => exact ordered_close h commit lines
  | _ => exact h

end Reader

/-! ## Readings of whole logs -/

open LogEntry (shift enumerate content)

theorem items_entriesOf (lines : List Text) :
    (entriesOf ⟨lines, none⟩).items = (Reader.start.feedAll lines).finish.1 := by
  rw [entriesOf]
  cases h : (Reader.start.feedAll lines).finish with
  | mk items hash => cases hash <;> simp

theorem failure_entriesOf (lines : List Text) :
    (entriesOf ⟨lines, none⟩).failure =
      (Reader.start.feedAll lines).finish.2.map .truncatedLog := by
  rw [entriesOf]
  cases h : (Reader.start.feedAll lines).finish with
  | mk items hash => cases hash <;> simp

theorem warning_entriesOf (lines : List Text) : (entriesOf ⟨lines, none⟩).warning = none := by
  rw [entriesOf]
  cases h : (Reader.start.feedAll lines).finish with
  | mk items hash => cases hash <;> simp

/-- However a log is read, its entries are numbered as they came. -/
theorem items_eq_enumerate (source : LineSource) :
    (entriesOf source).items = enumerate ((entriesOf source).items.map content) := by
  obtain ⟨lines, failure⟩ := source
  have hr := Reader.ordered_feedAll lines
  cases failure with
  | none => rw [items_entriesOf]; exact Reader.ordered_finish hr
  | some e =>
    cases e with
    | gitCommand e =>
      simp only [entriesOf]
      split
      · rfl
      · exact hr
    | _ => exact hr

theorem entriesOf_append {s t : List Text} (hs : (entriesOf ⟨s, none⟩).failure = none)
    (ht : t.head? = some beginMarker) (hf : (entriesOf ⟨t, none⟩).failure = none) :
    (entriesOf ⟨s ++ t, none⟩).failure = none ∧
      (entriesOf ⟨s ++ t, none⟩).items =
        (entriesOf ⟨s, none⟩).items ++
          (entriesOf ⟨t, none⟩).items.map (shift (entriesOf ⟨s, none⟩).items.length) := by
  simp only [failure_entriesOf, Option.map_eq_none_iff] at hs hf ⊢
  simp only [items_entriesOf]
  rw [Reader.finish_append hs ht]
  exact ⟨hf, rfl⟩

/-! ## Cuts -/

/-- The commits of a log that is read to its end. -/
def itemsOf (lines : List Text) : List LogEntry := (entriesOf ⟨lines, none⟩).items

/-- Pieces of a log that was cut where a commit begins. -/
structure IsCut (pieces : List (List Text)) : Prop where
  read : ∀ piece ∈ pieces, (entriesOf ⟨piece, none⟩).failure = none
  marked : ∀ piece ∈ pieces.tail, piece.head? = some beginMarker

namespace IsCut

variable {piece : List Text} {rest : List (List Text)}

theorem tail (h : IsCut (piece :: rest)) : IsCut rest where
  read p hp := h.read p (List.mem_cons_of_mem _ hp)
  marked p hp := h.marked p (List.mem_of_mem_tail hp)

theorem head?_flatten (h : IsCut (piece :: rest)) (hne : rest ≠ []) :
    rest.flatten.head? = some beginMarker := by
  cases rest with
  | nil => exact absurd rfl hne
  | cons next rest =>
    have hnext := h.marked next List.mem_cons_self
    cases next with
    | nil => simp at hnext
    | cons line lines => simpa using hnext

theorem failure_flatten {pieces : List (List Text)} (h : IsCut pieces) :
    (entriesOf ⟨pieces.flatten, none⟩).failure = none := by
  induction pieces with
  | nil => rfl
  | cons piece rest ih =>
    have hpiece := h.read piece List.mem_cons_self
    by_cases hne : rest = []
    · subst hne
      simpa using hpiece
    · exact (entriesOf_append hpiece (h.head?_flatten hne) (ih h.tail)).1

theorem itemsOf_flatten (h : IsCut (piece :: rest)) :
    itemsOf (piece :: rest).flatten =
      itemsOf piece ++ (itemsOf rest.flatten).map (shift (itemsOf piece).length) := by
  have hpiece := h.read piece List.mem_cons_self
  by_cases hne : rest = []
  · subst hne
    simp [itemsOf, entriesOf, Reader.feedAll, Reader.start, Reader.finish]
  · exact (entriesOf_append hpiece (h.head?_flatten hne) h.tail.failure_flatten).2

end IsCut

end Log

end PackageHistory
