import Mathlib.Data.List.Forall2
import Mathlib.Data.List.TakeWhile
import PackageHistory.Proofs.Action
import PackageHistory.Proofs.Log.Pieces

/-!
# How a log is laid out

Any lines are in one way a preamble, commits with all their parts, and perhaps a commit that breaks off. When
their source ends well, the whole commits are read and the broken one is a failure; when it fails itself, a
commit only counts if a further begin marker closes it.
-/

namespace PackageHistory.Log

open LogEntry (enumerate content)

/-! ## Parts of a log -/

/-- File lines as they are read. -/
def trimFiles (lines : List Text) : List Text := (lines.map Text.trim).filter fun t => !t.isEmpty

/-- The beginning of a commit: lines of its header and, once the header is whole, of its message. -/
@[ext] structure Opening where
  header : List Text
  message : List Text
  header_length : header.length ≤ 4
  message_of_short : header.length < 4 → message = []
  end_not_mem : messageEnd ∉ message

/-- A commit with all its parts; its files go on to the next begin marker. -/
@[ext] structure Section where
  opening : Opening
  files : List Text
  header_whole : opening.header.length = 4
  begin_not_mem : beginMarker ∉ files

/-- Lines before the first commit, whole commits, and the one that is broken off at the end, if any. -/
@[ext] structure Layout where
  preamble : List Text
  sections : List Section
  broken : Option Opening
  begin_not_mem : beginMarker ∉ preamble

namespace Opening

def lines (o : Opening) : List Text := beginMarker :: (o.header ++ o.message)

/-- The hash as far as it was read. -/
def hash (o : Opening) : Text := (o.header.headD []).trim

end Opening

namespace Section

def lines (s : Section) : List Text := s.opening.lines ++ messageEnd :: s.files

/-- The commit and its files as they are read. -/
def told (s : Section) : Commit × List Text :=
  (commitOf s.opening.header s.opening.message, trimFiles s.files)

end Section

namespace Layout

/-- The lines from the first begin marker on. -/
def tail (sections : List Section) (broken : Option Opening) : List Text :=
  sections.flatMap Section.lines ++ broken.elim [] Opening.lines

def lines (l : Layout) : List Text := l.preamble ++ tail l.sections l.broken

/-- The commits that a further begin marker closes. -/
def closed (l : Layout) : List Section :=
  if l.broken.isSome then l.sections else l.sections.dropLast

end Layout

/-! ## One layout for any lines -/

theorem eq_of_first {m : Text} {s s' t t' : List Text} (h : s ++ t = s' ++ t') (hs : m ∉ s) (hs' : m ∉ s')
    (ht : ∀ x ∈ t.head?, x = m) (ht' : ∀ x ∈ t'.head?, x = m) : s = s' ∧ t = t' := by
  have hfirst {s t : List Text} (hs : m ∉ s) (ht : ∀ x ∈ t.head?, x = m) :
      (s ++ t).takeWhile (· ≠ m) = s := by
    rw [List.takeWhile_append_of_pos fun x hx => by simpa using ne_of_mem_of_not_mem hx hs]
    cases t with
    | nil => simp
    | cons x rest => simp [ht x rfl]
  have heq : s = s' := by rw [← hfirst hs ht, h, hfirst hs' ht']
  subst heq
  exact ⟨rfl, List.append_cancel_left h⟩

namespace Opening

/-- Behind an opening stands nothing, or the end marker of a message that has a whole header. -/
def Precedes (o : Opening) (rest : List Text) : Prop :=
  rest = [] ∨ o.header.length = 4 ∧ ∃ more, rest = messageEnd :: more

theorem exists_precedes (lines : List Text) : ∃ (o : Opening) (rest : List Text),
    lines = o.header ++ o.message ++ rest ∧ o.Precedes rest := by
  by_cases hshort : lines.length < 4
  · exact ⟨⟨lines, [], by omega, fun _ => rfl, by simp⟩, [], by simp, .inl rfl⟩
  have hlength : (lines.take 4).length = 4 := by
    rw [List.length_take]
    omega
  have hwhole (message : List Text) : (lines.take 4).length < 4 → message = [] := by omega
  by_cases hend : messageEnd ∈ lines.drop 4
  · obtain ⟨message, more, hdrop, hmessage⟩ := List.eq_append_cons_of_mem hend
    refine ⟨⟨lines.take 4, message, hlength.le, hwhole _, hmessage⟩, messageEnd :: more, ?_,
      .inr ⟨hlength, more, rfl⟩⟩
    rw [List.append_assoc, ← hdrop, List.take_append_drop]
  · refine ⟨⟨lines.take 4, lines.drop 4, hlength.le, hwhole _, hend⟩, [], ?_, .inl rfl⟩
    rw [List.append_nil, List.take_append_drop]

theorem eq_of_precedes {o o' : Opening} {rest rest' : List Text} (ho : o.Precedes rest)
    (ho' : o'.Precedes rest') (h : o.lines ++ rest = o'.lines ++ rest') : o = o' ∧ rest = rest' := by
  have hhead {o : Opening} {rest : List Text} (ho : o.Precedes rest) :
      (o.header ++ (o.message ++ rest)).take 4 = o.header := by
    rcases ho with rfl | ⟨hlength, -⟩
    · by_cases hshort : o.header.length < 4
      · simp [o.message_of_short hshort, List.take_of_length_le o.header_length]
      · rw [← show o.header.length = 4 by have := o.header_length; omega, List.take_left]
    · rw [← hlength, List.take_left]
  have hmarked {o : Opening} {rest : List Text} (ho : o.Precedes rest) :
      ∀ x ∈ rest.head?, x = messageEnd := by
    rcases ho with rfl | ⟨-, more, rfl⟩
    · nofun
    · exact fun x hx => (Option.some.inj hx).symm
  have hlines : o.header ++ (o.message ++ rest) = o'.header ++ (o'.message ++ rest') := by
    simpa [lines] using h
  have hheader : o.header = o'.header := by rw [← hhead ho, hlines, hhead ho']
  rw [hheader] at hlines
  obtain ⟨hmessage, hrest⟩ := eq_of_first (List.append_cancel_left hlines) o.end_not_mem o'.end_not_mem
    (hmarked ho) (hmarked ho')
  exact ⟨Opening.ext hheader hmessage, hrest⟩

end Opening

namespace Layout

variable {sections sections' : List Section} {broken broken' : Option Opening}

theorem tail_cons (s : Section) (sections : List Section) (broken : Option Opening) :
    tail (s :: sections) broken = s.opening.lines ++ messageEnd :: (s.files ++ tail sections broken) := by
  simp [tail, Section.lines]

theorem eq_of_mem_head?_tail : ∀ x ∈ (tail sections broken).head?, x = beginMarker := by
  cases sections with
  | nil =>
    cases broken with
    | none => nofun
    | some o => exact fun x hx => (Option.some.inj hx).symm
  | cons s sections => exact fun x hx => (Option.some.inj hx).symm

theorem tail_injective (h : tail sections broken = tail sections' broken') :
    sections = sections' ∧ broken = broken' := by
  have hwhole (s : Section) (rest : List Text) : s.opening.Precedes (messageEnd :: rest) :=
    .inr ⟨s.header_whole, rest, rfl⟩
  have hbroken (o : Opening) : o.Precedes [] := .inl rfl
  have hends (o : Opening) : tail [] (some o) = o.lines ++ [] := by simp [tail]
  -- Commit by commit: what follows an opening tells whether it is that of a whole commit or the broken one.
  induction sections generalizing sections' with
  | nil =>
    cases broken with
    | none =>
      cases sections' with
      | nil => cases broken' with
        | none => exact ⟨rfl, rfl⟩
        | some o' => cases h
      | cons s' rest' => cases h
    | some o =>
      cases sections' with
      | nil => cases broken' with
        | none => cases h
        | some o' =>
          rw [hends, hends] at h
          exact ⟨rfl, congrArg some (Opening.eq_of_precedes (hbroken o) (hbroken o') h).1⟩
      | cons s' rest' =>
        rw [hends, tail_cons] at h
        cases (Opening.eq_of_precedes (hbroken o) (hwhole s' _) h).2
  | cons s rest ih =>
    rw [tail_cons] at h
    cases sections' with
    | nil => cases broken' with
      | none => cases h
      | some o' =>
        rw [hends] at h
        cases (Opening.eq_of_precedes (hwhole s _) (hbroken o') h).2
    | cons s' rest' =>
      rw [tail_cons] at h
      obtain ⟨hopening, hbehind⟩ := Opening.eq_of_precedes (hwhole s _) (hwhole s' _) h
      obtain ⟨hfiles, htail⟩ := eq_of_first (List.cons.inj hbehind).2 s.begin_not_mem s'.begin_not_mem
        eq_of_mem_head?_tail eq_of_mem_head?_tail
      obtain ⟨rfl, hsame⟩ := ih htail
      exact ⟨by rw [Section.ext hopening hfiles], hsame⟩

theorem lines_injective : Function.Injective lines := by
  intro l l' h
  obtain ⟨hpreamble, htail⟩ := eq_of_first h l.begin_not_mem l'.begin_not_mem eq_of_mem_head?_tail
    eq_of_mem_head?_tail
  obtain ⟨hsections, hbroken⟩ := tail_injective htail
  exact Layout.ext hpreamble hsections hbroken

theorem exists_tail (rest : List Text) :
    ∃ sections broken, tail sections broken = beginMarker :: rest := by
  -- What stands behind a whole commit is shorter than what the commit stands in.
  induction hn : rest.length using Nat.strong_induction_on generalizing rest with
  | _ n ih =>
    obtain ⟨o, behind, hrest, rfl | ⟨hwhole, more, rfl⟩⟩ := Opening.exists_precedes rest
    · exact ⟨[], some o, by simp [tail, Opening.lines, hrest]⟩
    · by_cases hmarker : beginMarker ∈ more
      · obtain ⟨files, later, hmore, hfiles⟩ := List.eq_append_cons_of_mem hmarker
        obtain ⟨sections, broken, htail⟩ := ih later.length (by simp [← hn, hrest, hmore]; omega) later rfl
        exact ⟨⟨o, files, hwhole, hfiles⟩ :: sections, broken, by
          simp [tail_cons, htail, Opening.lines, hrest, hmore]⟩
      · exact ⟨[⟨o, more, hwhole, hmarker⟩], none, by simp [tail, Section.lines, Opening.lines, hrest]⟩

theorem lines_surjective : Function.Surjective lines := by
  intro lines
  by_cases hmarker : beginMarker ∈ lines
  · obtain ⟨preamble, rest, rfl, hpreamble⟩ := List.eq_append_cons_of_mem hmarker
    obtain ⟨sections, broken, htail⟩ := exists_tail rest
    exact ⟨⟨preamble, sections, broken, hpreamble⟩, congrArg (preamble ++ ·) htail⟩
  · exact ⟨⟨lines, [], none, hmarker⟩, List.append_nil lines⟩

end Layout

/-! ## Reading a layout -/

namespace Reader

variable {r : Reader}

theorem feedAll_preamble {lines : List Text} (h : beginMarker ∉ lines) : start.feedAll lines = start := by
  induction lines with
  | nil => rfl
  | cons line rest ih =>
    obtain ⟨hline, hrest⟩ := not_or.mp (fun hm => h (List.mem_cons.mpr hm))
    have hfeed : start.feed line = start := by
      simp only [feed, start]
      rw [if_neg fun e => hline e.symm]
    show (start.feed line).feedAll rest = start
    rw [hfeed, ih hrest]

theorem feedAll_header {closed : List LogEntry} {header : List Text} (h : header.length ≤ 4) :
    feedAll ⟨closed, .header []⟩ header =
      ⟨closed, if header.length < 4 then .header header else .message header []⟩ := by
  match header, h with
  | [], _ | [_], _ | [_, _], _ | [_, _, _], _ | [_, _, _, _], _ => rfl

theorem feedAll_message {closed : List LogEntry} {header read lines : List Text} (h : messageEnd ∉ lines) :
    feedAll ⟨closed, .message header read⟩ lines = ⟨closed, .message header (read ++ lines)⟩ := by
  induction lines generalizing read with
  | nil => simp [feedAll]
  | cons line rest ih =>
    obtain ⟨hline, hrest⟩ := not_or.mp (fun hm => h (List.mem_cons.mpr hm))
    have hfeed : feed ⟨closed, .message header read⟩ line =
        ⟨closed, .message header (read ++ [line])⟩ := by
      simp only [feed]
      rw [if_neg fun e => hline e.symm]
    show feedAll (feed ⟨closed, .message header read⟩ line) rest = _
    rw [hfeed, ih hrest, List.append_assoc, List.singleton_append]

theorem feedAll_files {closed : List LogEntry} {commit : Commit} {read lines : List Text}
    (h : beginMarker ∉ lines) : feedAll ⟨closed, .files commit read⟩ lines =
      ⟨closed, .files commit (read ++ trimFiles lines)⟩ := by
  induction lines generalizing read with
  | nil => simp [feedAll, trimFiles]
  | cons line rest ih =>
    obtain ⟨hline, hrest⟩ := not_or.mp (fun hm => h (List.mem_cons.mpr hm))
    show feedAll (feed ⟨closed, .files commit read⟩ line) rest = _
    simp only [feed]
    rw [if_neg fun e => hline e.symm]
    cases hblank : line.trim.isEmpty with
    | true =>
      rw [if_pos rfl, ih hrest]
      simp [trimFiles, hblank]
    | false =>
      rw [if_neg (by decide), ih hrest]
      simp [trimFiles, hblank]

/-- Where no commit is open, a begin marker closes the last one and opens the next. -/
theorem feedAll_opening (h : r.finish.2 = none) (o : Opening) :
    r.feedAll o.lines = ⟨r.finish.1,
      if o.header.length < 4 then .header o.header else .message o.header o.message⟩ := by
  have hbegun : r.feed beginMarker = ⟨r.finish.1, .header []⟩ := by
    rw [feed_beginMarker h]
    simp [behind, feed, start]
  show (r.feed beginMarker).feedAll (o.header ++ o.message) = _
  rw [hbegun, feedAll_append, feedAll_header o.header_length]
  split
  · next hshort => rw [o.message_of_short hshort]; rfl
  · rw [feedAll_message o.end_not_mem, List.nil_append]

theorem feedAll_section (h : r.finish.2 = none) (s : Section) :
    r.feedAll s.lines = ⟨r.finish.1, .files s.told.1 s.told.2⟩ := by
  have hmarker : feedAll ⟨r.finish.1, .message s.opening.header s.opening.message⟩ [messageEnd] =
      ⟨r.finish.1, .files s.told.1 []⟩ := by
    simp [feedAll, feed, Section.told]
  rw [Section.lines, ← List.singleton_append, feedAll_append, feedAll_append, feedAll_opening h,
    if_neg s.header_whole.not_lt, hmarker, feedAll_files s.begin_not_mem, List.nil_append]
  rfl

theorem feedAll_sections (h : r.finish.2 = none) (sections : List Section) :
    (r.feedAll (sections.flatMap Section.lines)).finish.1.map content =
        r.finish.1.map content ++ sections.map Section.told ∧
      (r.feedAll (sections.flatMap Section.lines)).finish.2 = none := by
  induction sections generalizing r with
  | nil => simp [feedAll, h]
  | cons s rest ih =>
    have hs := feedAll_section h s
    obtain ⟨hitems, hopen⟩ := ih (r := r.feedAll s.lines) (by rw [hs]; rfl)
    rw [List.flatMap_cons, feedAll_append]
    refine ⟨?_, hopen⟩
    rw [hitems, hs]
    simp [finish, close, content]

end Reader

theorem Opening.hash_commitOf (o : Opening) : (commitOf o.header []).hash = o.hash := by
  unfold Opening.hash
  cases o.header <;> rfl

namespace Layout

variable {l : Layout} {lines : List Text} {ending : Option Failure} {r : Reading LogEntry}

theorem feedAll_lines (l : Layout) : Reader.start.feedAll l.lines =
    (Reader.start.feedAll (l.sections.flatMap Section.lines)).feedAll
      (l.broken.elim [] Opening.lines) := by
  rw [Layout.lines, tail, Reader.feedAll_append, Reader.feedAll_preamble l.begin_not_mem,
    Reader.feedAll_append]

theorem finish_feedAll (l : Layout) :
    (Reader.start.feedAll l.lines).finish.1.map content = l.sections.map Section.told ∧
      (Reader.start.feedAll l.lines).finish.2 = l.broken.map Opening.hash := by
  obtain ⟨hitems, hopen⟩ := Reader.feedAll_sections (r := Reader.start) rfl l.sections
  rw [feedAll_lines]
  cases l.broken with
  | none => exact ⟨hitems, hopen⟩
  | some o =>
    rw [Option.elim_some, Reader.feedAll_opening hopen, Option.map_some, ← o.hash_commitOf]
    split <;> exact ⟨hitems, rfl⟩

theorem closed_feedAll (l : Layout) :
    (Reader.start.feedAll l.lines).closed.map content = l.closed.map Section.told := by
  have hsections (sections : List Section) :
      (Reader.start.feedAll (sections.flatMap Section.lines)).finish.1.map content =
          sections.map Section.told ∧
        (Reader.start.feedAll (sections.flatMap Section.lines)).finish.2 = none :=
    Reader.feedAll_sections rfl sections
  rw [feedAll_lines, closed]
  cases l.broken with
  | some o =>
    rw [Option.elim_some, Reader.feedAll_opening (hsections l.sections).2]
    exact (hsections l.sections).1
  | none =>
    rcases List.eq_nil_or_concat l.sections with hnone | ⟨before, last, heq⟩
    · rw [hnone]
      rfl
    · rw [heq, List.concat_eq_append, List.flatMap_append, Reader.feedAll_append, List.flatMap_singleton,
        Reader.feedAll_section (hsections before).2]
      simp only [Option.isSome_none, Bool.false_eq_true, if_false, List.dropLast_concat]
      exact (hsections before).1

/-! ## What is read, however the source ends -/

/-- What a reader makes of a log, by how the source of its lines ends. -/
structure IsRead (l : Layout) (ending : Option Failure) (r : Reading LogEntry) : Prop where
  /-- All whole commits are read, and a broken one is a failure. -/
  ended : ending = none → r.items = enumerate (l.sections.map Section.told) ∧
    r.failure = l.broken.map (fun o => .truncatedLog o.hash) ∧ r.warning = none
  /-- The commits that are closed are read, and the failure is passed on. -/
  failed : ∀ e, ending = some e → (l.lines = [] → ∀ g, e ≠ .gitCommand g) →
    r.items = enumerate (l.closed.map Section.told) ∧ r.failure = some e ∧ r.warning = none
  /-- When git fails before it says anything, there is nothing but its diagnostic. -/
  refused : ∀ g, ending = some (.gitCommand g) → l.lines = [] →
    r.items = [] ∧ r.failure = none ∧ r.warning = some g.diagnostic

theorem isRead_entriesOf (l : Layout) (ending : Option Failure) :
    l.IsRead ending (entriesOf ⟨l.lines, ending⟩) where
  ended := by
    rintro rfl
    obtain ⟨hitems, hhash⟩ := l.finish_feedAll
    refine ⟨?_, ?_, warning_entriesOf _⟩
    · rw [items_entriesOf, Reader.ordered_finish (Reader.ordered_feedAll _), hitems]
    · rw [failure_entriesOf, hhash, Option.map_map]
      rfl
  failed e he hspoke := by
    subst he
    have hitems : (Reader.start.feedAll l.lines).closed = enumerate (l.closed.map Section.told) := by
      rw [← closed_feedAll]
      exact Reader.ordered_feedAll _
    cases e with
    | gitCommand g =>
      have hlines : l.lines.isEmpty = false := by
        rw [List.isEmpty_eq_false_iff]
        exact fun hnone => hspoke hnone g rfl
      simp [entriesOf, hlines, hitems]
    | _ => exact ⟨hitems, rfl, rfl⟩
  refused g hg hnone := by
    subst hg
    simp [entriesOf, hnone]

/-- Lines that come as whole commits are read as these. -/
theorem entriesOf_pieces {preamble : List Text} {commits : List (Commit × List Text)}
    {pieces : List (List Text)} (hpreamble : beginMarker ∉ preamble)
    (h : List.Forall₂ (fun x piece => ∃ s : Section, s.lines = piece ∧ s.told = x) commits pieces) :
    (entriesOf ⟨preamble ++ pieces.flatten, none⟩).items = enumerate commits ∧
      (entriesOf ⟨preamble ++ pieces.flatten, none⟩).failure = none := by
  obtain ⟨sections, hlines, htold⟩ : ∃ sections : List Section,
      sections.flatMap Section.lines = pieces.flatten ∧ sections.map Section.told = commits := by
    induction h with
    | nil => exact ⟨[], rfl, rfl⟩
    | cons hx _ ih =>
      obtain ⟨s, rfl, rfl⟩ := hx
      obtain ⟨sections, hlines, htold⟩ := ih
      exact ⟨s :: sections, by simp [hlines], by simp [htold]⟩
  have hread := (isRead_entriesOf ⟨preamble, sections, none, hpreamble⟩ none).ended rfl
  simp only [lines, tail, Option.elim_none, List.append_nil, hlines, htold] at hread
  exact ⟨hread.1, hread.2.1⟩

end Layout

/-- A failing log never yields a part of a commit. Any lines are laid out in one way, and by that layout and the
way their source ends it is known which commits are read, with which failure or warning. -/
theorem entries_by_layout (lines : List Text) :
    (∃! l : Layout, l.lines = lines) ∧
    ∀ (location range : Text) (ending : Option Failure) (w : World),
      w.git.stream w.calls ⟨.lines, args range, location⟩ = ⟨lines, ending⟩ →
        ∃ r, (entries location range w).1 = .ok r ∧ ∀ l : Layout, l.lines = lines → l.IsRead ending r := by
  constructor
  · obtain ⟨l, rfl⟩ := Layout.lines_surjective lines
    exact ⟨l, rfl, fun l' h => Layout.lines_injective h⟩
  · intro location range ending w hstream
    refine ⟨entriesOf ⟨lines, ending⟩, ?_, ?_⟩
    · rw [← hstream]
      rfl
    · rintro l rfl
      exact l.isRead_entriesOf ending

def streamingWorld (lines : List Text) (ending : Option Failure) : World where
  git := ⟨fun _ _ => .ok [], fun _ _ => ⟨lines, ending⟩, true⟩
  disk := Disk.empty []
  stamp := []

/-- A whole commit, and a second one that ends in its header. -/
def brokenLayout : Layout where
  preamble := []
  sections := [⟨⟨["c1".toList, [], [], []], ["add".toList, []], by decide, by decide, by decide⟩,
    [[], "A\tdev-libs/foo/foo-1.ebuild".toList], by decide, by decide⟩]
  broken := some ⟨["c2 ".toList], [], by decide, fun _ => rfl, by decide⟩
  begin_not_mem := by decide

/-- The second commit closes the first, and it is not read itself, whether git fails or the log just ends. -/
theorem entries_by_brokenLayout :
    (∃ r, (entries [] [] (streamingWorld brokenLayout.lines none)).1 = .ok r ∧
      r.items.map (·.commit.hash) = ["c1".toList] ∧ r.failure = some (.truncatedLog "c2".toList)) ∧
    ∃ r, (entries [] [] (streamingWorld brokenLayout.lines (some (.other [])))).1 = .ok r ∧
      r.items.map (·.commit.hash) = ["c1".toList] ∧ r.failure = some (.other []) := by
  obtain ⟨-, hread⟩ := entries_by_layout brokenLayout.lines
  constructor
  · obtain ⟨r, hr, hlayout⟩ := hread [] [] none (streamingWorld _ none) rfl
    obtain ⟨hitems, hfailure, -⟩ := (hlayout brokenLayout rfl).ended rfl
    exact ⟨r, hr, by rw [hitems]; decide, by rw [hfailure]; rfl⟩
  · obtain ⟨r, hr, hlayout⟩ := hread [] [] (some (.other [])) (streamingWorld _ _) rfl
    obtain ⟨hitems, hfailure, -⟩ := (hlayout brokenLayout rfl).failed _ rfl nofun
    exact ⟨r, hr, by rw [hitems]; decide, hfailure⟩

end PackageHistory.Log
