import PackageHistory.Proofs.Cache.Update
import PackageHistory.Proofs.Log.Layout

/-!
# What messages can do to a log

A message is read up to its first end marker. What comes before does not matter to published history, and
what comes after is read as file lines. So logs that differ in their messages are merged alike as long as
the messages agree from the first end marker on.
-/

namespace PackageHistory

/-! ## Without messages -/

namespace Commit

/-- The commit with nothing to say. -/
def mute (c : Commit) : Commit := { c with message := [] }

end Commit

namespace LogEntry

def mute (e : LogEntry) : LogEntry := { e with commit := e.commit.mute }

@[simp] theorem mute_mute (e : LogEntry) : e.mute.mute = e.mute := rfl

end LogEntry

namespace Change

def mute (change : Change) : Change := { change with commit := change.commit.mute }

theorem ofEntry_mute (isLocal : Bool) (e : LogEntry) :
    ofEntry isLocal e.mute = (ofEntry isLocal e).map mute := by
  simp only [ofEntry, LogEntry.mute, List.map_flatMap]
  refine List.flatMap_congr fun line _ => ?_
  rw [ofLine_restamped isLocal line e.commit e.commit.mute e.index e.index]
  refine List.map_congr_left fun x hx => ?_
  obtain ⟨hcommit, hindex⟩ := of_mem_ofLine hx
  rw [mute, hcommit, hindex]

end Change

namespace History

/-- Published history keeps nothing of a message. -/
theorem merge_mute (h : History) (entries : List LogEntry) :
    h.merge false (entries.map LogEntry.mute) = h.merge false entries := by
  have hentry (t : Tree Marked) (e : LogEntry) :
      mergeEntry false h t e.mute = mergeEntry false h t e := by
    simp only [mergeEntry, Change.ofEntry_mute, List.foldl_map]
    rfl
  simp only [merge, List.length_map, List.foldl_map, hentry]

end History

/-! ## Readers that do not listen -/

namespace Log

namespace Position

def mute : Position → Position
  | seeking => seeking
  | header lines => header lines
  | message fields _ => message fields []
  | files commit lines => files commit.mute lines

end Position

namespace Reader

def mute (r : Reader) : Reader := ⟨r.closed.map LogEntry.mute, r.position.mute⟩

theorem mute_close (r : Reader) (commit : Commit) (lines : List Text) :
    (r.close commit lines).map LogEntry.mute = (r.mute.close commit.mute lines).map LogEntry.mute := by
  simp [close, mute, LogEntry.mute, Commit.mute]

theorem mute_feed (r : Reader) (line : Text) : (r.feed line).mute = (r.mute.feed line).mute := by
  obtain ⟨closed, position⟩ := r
  cases position with
  | seeking =>
    simp only [feed, mute, Position.mute]
    split <;> simp
  | header lines => simp [feed, mute, Position.mute]
  | message header lines =>
    simp only [feed, mute, Position.mute]
    split <;> simp [Commit.mute, commitOf]
  | files commit lines =>
    have hclose := mute_close ⟨closed, .files commit lines⟩ commit lines
    simp only [feed, mute, Position.mute] at hclose ⊢
    split
    · rw [hclose]
    · split <;> simp [Commit.mute]

variable {r s : Reader}

theorem feedAll_congr (h : r.mute = s.mute) (lines : List Text) :
    (r.feedAll lines).mute = (s.feedAll lines).mute := by
  induction lines generalizing r s with
  | nil => exact h
  | cons line rest ih =>
    refine ih ?_
    rw [mute_feed, h, ← mute_feed]

theorem finish_mute (r : Reader) :
    r.mute.finish.1.map LogEntry.mute = r.finish.1.map LogEntry.mute ∧
      r.mute.finish.2 = r.finish.2 := by
  obtain ⟨closed, position⟩ := r
  cases position with
  | files commit lines => exact ⟨(mute_close ⟨closed, .files commit lines⟩ commit lines).symm, rfl⟩
  | _ => exact ⟨by simp [finish, mute, Position.mute], rfl⟩

theorem finish_congr (h : r.mute = s.mute) :
    r.finish.1.map LogEntry.mute = s.finish.1.map LogEntry.mute ∧ r.finish.2 = s.finish.2 := by
  obtain ⟨hitems, hhash⟩ := r.finish_mute
  obtain ⟨hitems', hhash'⟩ := s.finish_mute
  rw [← hitems, ← hhash, h]
  exact ⟨hitems', hhash'⟩

/-! ## Lines of a message -/

/-- The reader is in a message. -/
def InMessage (r : Reader) : Prop := ∃ fields lines, r.position = .message fields lines

/-- Lines of a message without an end marker leave no trace. -/
theorem mute_feedAll_of_inMessage (hr : r.InMessage) {lines : List Text} (h : messageEnd ∉ lines) :
    (r.feedAll lines).mute = r.mute := by
  obtain ⟨closed, position⟩ := r
  obtain ⟨fields, read, rfl⟩ := hr
  rw [feedAll_message h]
  rfl

/-- A header that is long enough leads into the message, unless the end marker is in it. -/
theorem inMessage_feedAll {lines : List Text} (hend : messageEnd ∉ lines)
    (hr : (∃ fields, r.position = .header fields ∧ 4 ≤ fields.length + lines.length ∧ lines ≠ []) ∨
      r.InMessage) : (r.feedAll lines).InMessage := by
  induction lines generalizing r with
  | nil =>
    rcases hr with ⟨_, _, _, hne⟩ | hr
    · exact absurd rfl hne
    · exact hr
  | cons line rest ih =>
    obtain ⟨hline, hrest⟩ := not_or.mp (fun hm => hend (List.mem_cons.mpr hm))
    refine ih hrest ?_
    obtain ⟨closed, position⟩ := r
    rcases hr with ⟨fields, rfl, hlong, -⟩ | ⟨fields, read, rfl⟩
    · simp only [feed]
      split
      case isTrue hshort =>
        refine .inl ⟨_, rfl, ?_, ?_⟩
        · simp only [List.length_append, List.length_cons, List.length_nil] at hlong ⊢
          omega
        · rintro rfl
          simp only [List.length_append, List.length_cons, List.length_nil] at hlong hshort
          omega
      case isFalse => exact .inr ⟨_, _, rfl⟩
    · refine .inr ⟨fields, read ++ [line], ?_⟩
      simp only [feed]
      rw [if_neg fun e => hline e.symm]

end Reader

/-- The lines of a header. -/
def headerOf (c : Commit) : List Text := [c.hash, c.date, c.author, c.committer]

/-- A begin marker and a header lead into the message from wherever a log stands. -/
theorem Reader.inMessage_header (r : Reader) {c : Commit} (h : messageEnd ∉ headerOf c) :
    (r.feedAll (beginMarker :: headerOf c)).InMessage := by
  have hmarked : messageEnd ∉ beginMarker :: headerOf c := by
    rw [List.mem_cons, not_or]
    exact ⟨by decide +kernel, h⟩
  obtain ⟨closed, position⟩ := r
  have hbegun (es : List LogEntry) : (feedAll ⟨es, .header []⟩ (headerOf c)).InMessage :=
    inMessage_feedAll h (.inl ⟨[], rfl, by simp [headerOf], by simp [headerOf]⟩)
  cases position with
  | seeking => simpa [feedAll, feed] using hbegun closed
  | header fields => exact inMessage_feedAll hmarked (.inl ⟨fields, rfl, by simp [headerOf], by simp⟩)
  | message fields read => exact inMessage_feedAll hmarked (.inr ⟨fields, read, rfl⟩)
  | files commit lines =>
    simpa [feedAll, feed] using hbegun (close ⟨closed, .files commit lines⟩ commit lines)

/-! ## Logs that differ in their messages -/

/-- What is left of a message at its first end marker: the marker, and what is read as file lines. -/
def overrun (message : List Text) : List Text := message.dropWhile (· ≠ messageEnd)

/-- Two commits with their files that differ in what their messages say before an end marker. Hashes,
dates and names are not end markers. -/
structure DiffersInMessage (x y : Commit × List Text) : Prop where
  commit : x.1.mute = y.1.mute
  files : x.2 = y.2
  overrun : overrun x.1.message = overrun y.1.message
  header : messageEnd ∉ headerOf x.1

/-- Of a message only what is left at an end marker counts. -/
theorem Reader.feedAll_overrun {r : Reader} (hr : r.InMessage) (message : List Text) :
    (r.feedAll message).mute = (r.feedAll (overrun message)).mute := by
  have hquiet : messageEnd ∉ message.takeWhile (· ≠ messageEnd) := fun hmem => by
    simpa using List.mem_takeWhile_imp hmem
  calc (r.feedAll message).mute
      = ((r.feedAll (message.takeWhile (· ≠ messageEnd))).feedAll (overrun message)).mute := by
        rw [← feedAll_append, overrun, List.takeWhile_append_dropWhile]
    _ = (r.feedAll (overrun message)).mute := feedAll_congr (mute_feedAll_of_inMessage hr hquiet) _

theorem printCommit_eq (c : Commit) (fileLines : List Text) :
    printCommit c fileLines =
      (beginMarker :: headerOf c) ++ c.message ++ ([] :: messageEnd :: [] :: fileLines) := by
  simp [printCommit, headerOf]

theorem Reader.feedAll_printCommit_congr {r s : Reader} (h : r.mute = s.mute)
    {x y : Commit × List Text} (hxy : DiffersInMessage x y) :
    (r.feedAll (printCommit x.1 x.2)).mute = (s.feedAll (printCommit y.1 y.2)).mute := by
  have hheader : headerOf x.1 = headerOf y.1 := by
    show headerOf x.1.mute = headerOf y.1.mute
    rw [hxy.commit]
  have hopened := feedAll_congr h (beginMarker :: headerOf x.1)
  have hin := r.inMessage_header hxy.header
  have hin' := s.inMessage_header hxy.header
  rw [printCommit_eq, printCommit_eq, ← hheader, ← hxy.files]
  simp only [feedAll_append]
  refine feedAll_congr ?_ _
  -- Both readers are inside of a message when the texts part, wherever the logs stood before.
  rw [feedAll_overrun hin, feedAll_overrun hin', hxy.overrun]
  exact feedAll_congr hopened _

theorem Reader.feedAll_print_congr {xs ys : List (Commit × List Text)}
    (hsame : List.Forall₂ DiffersInMessage xs ys) {r s : Reader} (h : r.mute = s.mute) :
    (r.feedAll (print xs)).mute = (s.feedAll (print ys)).mute := by
  induction hsame generalizing r s with
  | nil => exact h
  | cons hxy _ ih =>
    simp only [print, List.flatMap_cons, feedAll_append]
    exact ih (feedAll_printCommit_congr h hxy)

end Log

namespace Cache.Spot

variable {spot : Spot} {range : Text} {h : History} {w w' : World}
  {xs ys : List (Commit × List Text)}

/-- Messages do not influence published history: logs that differ in what messages say before an end
marker are merged to the same result, or fail alike. -/
theorem update_ignores_messages (hsame : List.Forall₂ Log.DiffersInMessage xs ys)
    (hlog : spot.logOf range w = ⟨Log.print xs, none⟩)
    (hlog' : spot.logOf range w' = ⟨Log.print ys, none⟩) :
    (spot.update range h false w).1 = (spot.update range h false w').1 := by
  obtain ⟨hitems, hhash⟩ := Log.Reader.finish_congr
    (Log.Reader.feedAll_print_congr hsame (rfl : Log.Reader.start.mute = Log.Reader.start.mute))
  rw [← Log.items_entriesOf, ← Log.items_entriesOf] at hitems
  have hfailure : (Log.entriesOf ⟨Log.print xs, none⟩).failure =
      (Log.entriesOf ⟨Log.print ys, none⟩).failure := by
    rw [Log.failure_entriesOf, Log.failure_entriesOf, hhash]
  cases hread : (Log.entriesOf ⟨Log.print xs, none⟩).failure with
  | some e =>
    have hread' := hfailure ▸ hread
    rw [update_of_failure (by rw [hlog, hread]), update_of_failure (by rw [hlog', hread'])]
  | none =>
    have hread' := hfailure ▸ hread
    rw [update_of_read (by rw [hlog, hread]), update_of_read (by rw [hlog', hread']), hlog, hlog',
      Log.warning_entriesOf, Log.warning_entriesOf, ← History.merge_mute, hitems, History.merge_mute]

def plainSpot : Spot where
  location := "/repo".toList
  file := "/c".toList
  schemaVersion := 1

/-- A world where git prints a log of these commits. -/
def printingWorld (commits : List (Commit × List Text)) : World where
  git := ⟨fun _ _ => .ok [], fun _ _ => ⟨Log.print commits, none⟩, true⟩
  disk := Disk.empty []
  stamp := "1".toList

/-- A commit that adds a package, with a message. -/
def addingFoo (message : List Text) : Commit × List Text :=
  (⟨"c1".toList, "2024-01-01".toList, "A <a>".toList, "A <a>".toList, message⟩,
    ["A\tdev-libs/foo/foo-1.ebuild".toList])

/-- A message that ends itself and goes on with a file line. -/
def forgedMessage : List Text := [Log.messageEnd, "A\tdev-libs/evil/evil-1.ebuild".toList]

/-- The text of a message can make a package appear that no commit has touched. -/
theorem update_forgedMessage :
    (addingFoo forgedMessage).1.mute = (addingFoo []).1.mute ∧
      ∃ h h', (plainSpot.update [] .empty false (printingWorld [addingFoo []])).1 = .ok (h, none) ∧
        (plainSpot.update [] .empty false (printingWorld [addingFoo forgedMessage])).1 =
          .ok (h', none) ∧
        (h.records.list "dev-libs".toList "evil".toList .added).length = 0 ∧
        (h'.records.list "dev-libs".toList "evil".toList .added).length = 1 := by
  refine ⟨rfl, _, _, rfl, rfl, ?_, ?_⟩
  · decide +kernel
  · decide +kernel

theorem update_ignores_wordyMessage :
    (plainSpot.update [] .empty false (printingWorld [addingFoo []])).1 =
      (plainSpot.update [] .empty false
        (printingWorld [addingFoo [Log.beginMarker, "A\tdev-libs/evil/evil-1.ebuild".toList]])).1 := by
  refine update_ignores_messages (.cons ?_ .nil) rfl rfl
  exact ⟨rfl, rfl, by decide +kernel, by decide +kernel⟩

end Cache.Spot

end PackageHistory
