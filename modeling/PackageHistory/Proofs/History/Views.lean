import PackageHistory.Proofs.Cache.Update
import PackageHistory.Proofs.History.Distinct
import PackageHistory.Proofs.History.Events
import PackageHistory.Proofs.History.Sorting
import PackageHistory.Proofs.Log.Printing

/-!
# Views are the history

What the views answer of a history that was merged at once from a printed log is told by the commits
alone: which file lines name a package version, and which of them come last.
-/

namespace PackageHistory

/-! ## What file lines tell -/

namespace FileChange

/-- The package version and the status that a change of a file counts for. -/
def told? : FileChange → Option (Cpv × Status)
  | added path => path.cpv?.map fun cpv => (cpv, .added)
  | deleted path => path.cpv?.map fun cpv => (cpv, .deleted)
  | modified path => path.cpv?.map fun cpv => (cpv, .modified)
  | renamed _ _ target => target.cpv?.map fun cpv => (cpv, .renamed)

/-- What a file line tells, blanks around it aside. -/
def toldBy? (line : Text) : Option (Cpv × Status) := (parse? line.trim).bind told?

end FileChange

theorem FileChange.toldBy?_blank {line : Text} (h : line.trim = []) :
    FileChange.toldBy? line = none := by
  rw [toldBy?, h]
  rfl

namespace Change

def ofTold (commit : Commit) (index : Nat) (x : Cpv × Status) : Change :=
  ⟨x.1, x.2, commit, index, none⟩

theorem ofFile_eq (commit : Commit) (index : Nat) (file : FileChange) :
    ofFile false commit index file = (file.told?.map (ofTold commit index)).toList := by
  cases file with
  | renamed n source target =>
    simp only [ofFile, FileChange.told?]
    cases target.cpv? <;> rfl
  | added path => simp only [ofFile, FileChange.told?]; cases path.cpv? <;> rfl
  | deleted path => simp only [ofFile, FileChange.told?]; cases path.cpv? <;> rfl
  | modified path => simp only [ofFile, FileChange.told?]; cases path.cpv? <;> rfl

theorem ofLine_trim (commit : Commit) (index : Nat) (line : Text) :
    ofLine false commit index line.trim =
      ((FileChange.toldBy? line).map (ofTold commit index)).toList := by
  unfold ofLine FileChange.toldBy?
  cases FileChange.parse? line.trim with
  | none => rfl
  | some file => exact ofFile_eq commit index file

theorem mem_ofEntry_trimmed {commit : Commit} {index : Nat} {lines : List Text} {change : Change} :
    change ∈ ofEntry false ⟨Log.trimHeader commit, index, Log.trimFiles lines⟩ ↔
      ∃ line ∈ lines, ∃ x, FileChange.toldBy? line = some x ∧
        change = ofTold (Log.trimHeader commit) index x := by
  simp only [ofEntry, Log.trimFiles, List.mem_flatMap, List.mem_filter, List.mem_map]
  constructor
  · rintro ⟨-, ⟨⟨line, hline, rfl⟩, -⟩, hchange⟩
    rw [ofLine_trim, Option.mem_toList, Option.map_eq_some_iff] at hchange
    obtain ⟨x, hx, rfl⟩ := hchange
    exact ⟨line, hline, x, hx, rfl⟩
  · rintro ⟨line, hline, x, hx, rfl⟩
    refine ⟨line.trim, ⟨⟨line, hline, rfl⟩, ?_⟩, ?_⟩
    · cases hblank : line.trim with
      | nil => rw [FileChange.toldBy?_blank hblank] at hx; cases hx
      | cons c cs => rfl
    · rw [ofLine_trim, hx]
      exact List.mem_singleton_self _

end Change

/-- The commit at a place tells, by one of its file lines, of a change of a package version. -/
def Tells (commits : List (Commit × List Text)) (i : Nat) (commit : Commit) (cpv : Cpv)
    (s : Status) : Prop :=
  ∃ lines, commits[i]? = some (commit, lines) ∧
    ∃ line ∈ lines, FileChange.toldBy? line = some (cpv, s)

def toldRecord (i : Nat) (commit : Commit) (cpv : Cpv) : Record :=
  ⟨cpv.fullver, commit.date.trim, .integer i, .hash commit.hash.trim, none⟩

/-- The package of what a commit tells. -/
def toldPackage (id : Text) (i : Nat) (commit : Commit) (cpv : Cpv) (s : Status) :
    HistoricalPackage :=
  ⟨cpv, s, commit.date.trim, .integer i, .hash commit.hash.trim, [], id⟩

namespace History

variable {commits : List (Commit × List Text)} {c p : Text} {s s' : Status} {r r' : Record}
variable {cpv : Cpv}

theorem isEventOf_trimmed :
    IsEventOf (commits.map Log.trimmed) c p s r ↔
      ∃ i commit cpv, cpv.category = c ∧ cpv.package = p ∧ Tells commits i commit cpv s ∧
        r = toldRecord i commit cpv := by
  simp only [IsEventOf, List.getElem?_map, Option.map_eq_some_iff, Prod.exists]
  constructor
  · rintro ⟨i, commit', lines', change, ⟨commit, lines, hi, heq⟩, hmem, hat, rfl⟩
    obtain ⟨rfl, rfl⟩ := Prod.mk.inj heq
    obtain ⟨line, hline, x, hx, rfl⟩ := Change.mem_ofEntry_trimmed.mp hmem
    obtain ⟨hc, hp, rfl⟩ := Change.isAt_iff.mp hat
    exact ⟨i, commit, x.1, hc, hp, ⟨lines, hi, line, hline, hx⟩, rfl⟩
  · rintro ⟨i, commit, cpv, hc, hp, ⟨lines, hi, line, hline, hx⟩, rfl⟩
    refine ⟨i, _, _, _, ⟨commit, lines, hi, rfl⟩,
      Change.mem_ofEntry_trimmed.mpr ⟨line, hline, (cpv, s), hx, rfl⟩, ?_, rfl⟩
    exact Change.isAt_iff.mpr ⟨hc, hp, rfl⟩

theorem ofRecord_told (id : Text) (i : Nat) (commit : Commit) (cpv : Cpv) (s : Status) :
    HistoricalPackage.ofRecord id cpv.category cpv.package s (toldRecord i commit cpv) =
      .ok (toldPackage id i commit cpv s) := by
  show (Cpv.make cpv.category cpv.package cpv.fullver).bind _ = _
  rw [Cpv.make_self]
  rfl

/-! ## The last commits that tell -/

/-- The last commit that tells of a change. -/
def IsLastTold (commits : List (Commit × List Text)) (i : Nat) (commit : Commit) (cpv : Cpv)
    (s : Status) : Prop :=
  Tells commits i commit cpv s ∧ ∀ j commit', Tells commits j commit' cpv s → j ≤ i

/-- The commit by which a package version was last removed and not touched after. -/
def IsRemovedBy (commits : List (Commit × List Text)) (i : Nat) (commit : Commit) (cpv : Cpv) :
    Prop :=
  Tells commits i commit cpv .deleted ∧ ∀ j commit' s, Tells commits j commit' cpv s → j ≤ i

/-- No commit tells of changes of one package version to two statuses. -/
def IsPlain (commits : List (Commit × List Text)) : Prop :=
  ∀ i commit cpv s s', Tells commits i commit cpv s → Tells commits i commit cpv s' → s = s'

variable {i j : Nat} {commit commit' : Commit}

theorem commit_eq_of_tells {cpv' : Cpv} (h : Tells commits i commit cpv s)
    (h' : Tells commits i commit' cpv' s') : commit = commit' := by
  obtain ⟨lines, hi, -⟩ := h
  obtain ⟨lines', hi', -⟩ := h'
  rw [hi, Option.some.injEq] at hi'
  exact (Prod.mk.inj hi').1

section Last

variable (hshort : commits.length ≤ 2 ^ 53)
include hshort

theorem mem_eventsOf_trimmed :
    r ∈ eventsOf (commits.map Log.trimmed) c p s ↔
      ∃ i commit cpv, cpv.category = c ∧ cpv.package = p ∧ Tells commits i commit cpv s ∧
        r = toldRecord i commit cpv := by
  rw [mem_eventsOf (by rw [List.length_map]; exact hshort), isEventOf_trimmed]

theorem mem_last_iff :
    r ∈ lastOfEach (eventsOf (commits.map Log.trimmed) c p s) ↔
      ∃ i commit cpv, cpv.category = c ∧ cpv.package = p ∧ IsLastTold commits i commit cpv s ∧
        r = toldRecord i commit cpv := by
  have hlength : (commits.map Log.trimmed).length ≤ 2 ^ 53 := by
    rw [List.length_map]
    exact hshort
  constructor
  · intro hr
    obtain ⟨i, commit, cpv, rfl, rfl, htells, rfl⟩ :=
      (mem_eventsOf_trimmed hshort).mp ((lastOfEach_sublist _).mem hr)
    refine ⟨i, commit, cpv, rfl, rfl, ⟨htells, fun j commit' h => ?_⟩, rfl⟩
    have hle := le_last hlength hr
      ((mem_eventsOf_trimmed hshort).mpr ⟨j, commit', cpv, rfl, rfl, h, rfl⟩) rfl
    have := Number.integer_le_integer.mp hle
    omega
  · rintro ⟨i, commit, cpv, rfl, rfl, ⟨htells, hlast⟩, rfl⟩
    have hin := (mem_eventsOf_trimmed hshort).mpr ⟨i, commit, cpv, rfl, rfl, htells, rfl⟩
    obtain ⟨r', hr', hversion⟩ := exists_mem_lastOfEach hin
    obtain ⟨j, commit', cpv', hc, hp, htells', rfl⟩ :=
      (mem_eventsOf_trimmed hshort).mp ((lastOfEach_sublist _).mem hr')
    obtain rfl : cpv' = cpv := Cpv.eq_of_parts hc hp hversion
    have hle := Number.integer_le_integer.mp (le_last hlength hr' hin rfl)
    have hge := hlast j commit' htells'
    obtain rfl : i = j := by omega
    rw [commit_eq_of_tells htells htells']
    exact hr'

theorem exists_isLastTold (h : Tells commits i commit cpv s) :
    ∃ j commit', IsLastTold commits j commit' cpv s := by
  have hin := (mem_eventsOf_trimmed hshort).mpr ⟨i, commit, cpv, rfl, rfl, h, rfl⟩
  obtain ⟨r, hr, hversion⟩ := exists_mem_lastOfEach hin
  obtain ⟨j, commit', cpv', hc, hp, hlast, rfl⟩ := (mem_last_iff hshort).mp hr
  obtain rfl : cpv' = cpv := Cpv.eq_of_parts hc hp hversion
  exact ⟨j, commit', hlast⟩

end Last

/-! ## What is shown -/

/-- A history that holds, of what commits tell, the last record of each version. -/
def HoldsLast (h : History) (commits : List (Commit × List Text)) : Prop :=
  ∀ c p s, h.records.list c p s = lastOfEach (eventsOf (commits.map Log.trimmed) c p s)

namespace HoldsLast

variable {h : History} {o : SortOrder} {id : Text} {x : HistoricalPackage}

theorem mem_list_iff (hh : h.HoldsLast commits) (hshort : commits.length ≤ 2 ^ 53) :
    r ∈ h.records.list c p s ↔
      ∃ i commit cpv, cpv.category = c ∧ cpv.package = p ∧ IsLastTold commits i commit cpv s ∧
        r = toldRecord i commit cpv := by
  rw [hh, mem_last_iff hshort]

theorem isDistinct (hh : h.HoldsLast commits) (hshort : commits.length ≤ 2 ^ 53)
    (hplain : IsPlain commits) : IsDistinct h.records := by
  intro c p s s' r r' hr hr' hversion hle hge
  obtain ⟨i, commit, cpv, rfl, rfl, htells, rfl⟩ := (hh.mem_list_iff hshort).mp hr
  obtain ⟨j, commit', cpv', hc, hp, htells', rfl⟩ := (hh.mem_list_iff hshort).mp hr'
  obtain rfl : cpv' = cpv := Cpv.eq_of_parts hc hp hversion.symm
  have h1 := Number.integer_le_integer.mp hle
  have h2 := Number.integer_le_integer.mp hge
  obtain rfl : i = j := by omega
  obtain rfl := commit_eq_of_tells htells.1 htells'.1
  exact ⟨hplain i commit cpv' s s' htells.1 htells'.1, rfl⟩

theorem nodup_query (hh : h.HoldsLast commits) (v : View) (q : Query) :
    ((h.query v id q).map HistoricalPackage.event).Nodup := by
  apply History.nodup_query
  intro c p s
  rw [hh]
  exact lastOfEach_pairwise _

theorem mem_query_iff (hh : h.HoldsLast commits) (hshort : commits.length ≤ 2 ^ 53) {v : View}
    (hdistinct : v.latestOnly = true → IsDistinct h.records) :
    x ∈ h.query v id { sort := o } ↔
      ∃ i commit cpv s, IsLastTold commits i commit cpv s ∧
        Shows h.records v cpv.category cpv.package s (toldRecord i commit cpv) ∧
        x = toldPackage id i commit cpv s := by
  rw [mem_query_iff_shows hdistinct]
  constructor
  · rintro ⟨-, c, p, s, r, -, hshows, hforms⟩
    obtain ⟨i, commit, cpv, rfl, rfl, htells, rfl⟩ := (hh.mem_list_iff hshort).mp hshows.2.1
    rw [Forms, ofRecord_told, Except.ok.injEq] at hforms
    exact ⟨i, commit, cpv, s, htells, hshows, hforms.symm⟩
  · rintro ⟨i, commit, cpv, s, htells, hshows, rfl⟩
    have hwanted : IsWanted { sort := o } cpv.category cpv.package := by
      constructor
      · intro c' hc
        cases hc
      · intro p' hp
        cases hp
    exact ⟨rfl, cpv.category, cpv.package, s, _, hwanted, hshows, ofRecord_told id i commit cpv s⟩

end HoldsLast

/-- One package for each change that is told of, from the last commit that tells of it. -/
structure ShowsChanges (commits : List (Commit × List Text)) (id : Text)
    (shown : List HistoricalPackage) : Prop where
  once : (shown.map fun x => (x.cpv, x.status)).Nodup
  all : ∀ cpv s, (∃ x ∈ shown, x.cpv = cpv ∧ x.status = s) ↔ ∃ i commit, Tells commits i commit cpv s
  last : ∀ x ∈ shown, ∃ i commit, IsLastTold commits i commit x.cpv x.status ∧
    x = toldPackage id i commit x.cpv x.status

/-- One package for each version that was removed at last, from the commit that removed it. -/
structure ShowsRemovals (commits : List (Commit × List Text)) (id : Text)
    (shown : List HistoricalPackage) : Prop where
  once : (shown.map HistoricalPackage.cpv).Nodup
  all : ∀ cpv, (∃ x ∈ shown, x.cpv = cpv) ↔ ∃ i commit, IsRemovedBy commits i commit cpv
  last : ∀ x ∈ shown, ∃ i commit, IsRemovedBy commits i commit x.cpv ∧
    x = toldPackage id i commit x.cpv .deleted

namespace HoldsLast

variable {h : History} {o : SortOrder} {id : Text} {x : HistoricalPackage}

theorem mem_changed_iff (hh : h.HoldsLast commits) (hshort : commits.length ≤ 2 ^ 53) :
    x ∈ h.query .changed id { sort := o } ↔
      ∃ i commit cpv s, IsLastTold commits i commit cpv s ∧ x = toldPackage id i commit cpv s := by
  rw [hh.mem_query_iff hshort (v := .changed) nofun]
  constructor
  · rintro ⟨i, commit, cpv, s, htells, -, hx⟩
    exact ⟨i, commit, cpv, s, htells, hx⟩
  · rintro ⟨i, commit, cpv, s, htells, hx⟩
    have hall : s ∈ View.changed.statuses := by cases s <;> decide
    have hr := (hh.mem_list_iff hshort).mpr ⟨i, commit, cpv, rfl, rfl, htells, rfl⟩
    exact ⟨i, commit, cpv, s, htells, ⟨hall, hr, nofun⟩, hx⟩

theorem showsChanges (hh : h.HoldsLast commits) (hshort : commits.length ≤ 2 ^ 53) :
    ShowsChanges commits id (h.query .changed id { sort := o }) where
  once := hh.nodup_query .changed _
  all cpv s := by
    constructor
    · rintro ⟨x, hx, rfl, rfl⟩
      obtain ⟨i, commit, cpv, s, htells, rfl⟩ := (hh.mem_changed_iff hshort).mp hx
      exact ⟨i, commit, htells.1⟩
    · rintro ⟨i, commit, htells⟩
      obtain ⟨j, commit', hlast⟩ := exists_isLastTold hshort htells
      refine ⟨toldPackage id j commit' cpv s, ?_, rfl, rfl⟩
      exact (hh.mem_changed_iff hshort).mpr ⟨j, commit', cpv, s, hlast, rfl⟩
  last x hx := by
    obtain ⟨i, commit, cpv, s, htells, rfl⟩ := (hh.mem_changed_iff hshort).mp hx
    exact ⟨i, commit, htells, rfl⟩

theorem shows_removed_iff (hh : h.HoldsLast commits) (hshort : commits.length ≤ 2 ^ 53)
    {i : Nat} {commit : Commit} :
    Shows h.records .removed cpv.category cpv.package s (toldRecord i commit cpv) ∧
        IsLastTold commits i commit cpv s ↔
      s = .deleted ∧ IsRemovedBy commits i commit cpv := by
  constructor
  · rintro ⟨⟨hs, hr, hmax⟩, htells⟩
    obtain rfl : s = .deleted := List.mem_singleton.mp hs
    refine ⟨rfl, htells.1, fun j commit' s' h' => ?_⟩
    -- The last commit that tells of this is in the tree, so it is not after the removal.
    obtain ⟨k, commit'', hlast⟩ := exists_isLastTold hshort h'
    have hin := (hh.mem_list_iff hshort).mpr ⟨k, commit'', cpv, rfl, rfl, hlast, rfl⟩
    have hle := Number.integer_le_integer.mp (hmax rfl s' _ hin rfl)
    have hjk := hlast.2 j commit' h'
    omega
  · rintro ⟨rfl, htells, hmax⟩
    have hlast : IsLastTold commits i commit cpv .deleted := ⟨htells, fun j commit' => hmax j commit' _⟩
    have hr := (hh.mem_list_iff hshort).mpr ⟨i, commit, cpv, rfl, rfl, hlast, rfl⟩
    refine ⟨⟨List.mem_singleton.mpr rfl, hr, fun _ s' r' hr' hversion => ?_⟩, hlast⟩
    obtain ⟨j, commit', cpv', hc, hp, htells', rfl⟩ := (hh.mem_list_iff hshort).mp hr'
    obtain rfl : cpv' = cpv := Cpv.eq_of_parts hc hp hversion
    have hji := hmax j commit' s' htells'.1
    exact Number.integer_le_integer.mpr (by omega)

theorem mem_removed_iff (hh : h.HoldsLast commits) (hshort : commits.length ≤ 2 ^ 53)
    (hplain : IsPlain commits) :
    x ∈ h.query .removed id { sort := o } ↔
      ∃ i commit cpv, IsRemovedBy commits i commit cpv ∧
        x = toldPackage id i commit cpv .deleted := by
  rw [hh.mem_query_iff hshort fun _ => hh.isDistinct hshort hplain]
  constructor
  · rintro ⟨i, commit, cpv, s, htells, hshows, hx⟩
    obtain ⟨rfl, hremoved⟩ := (hh.shows_removed_iff hshort).mp ⟨hshows, htells⟩
    exact ⟨i, commit, cpv, hremoved, hx⟩
  · rintro ⟨i, commit, cpv, hremoved, hx⟩
    obtain ⟨hshows, htells⟩ := (hh.shows_removed_iff hshort).mpr ⟨rfl, hremoved⟩
    exact ⟨i, commit, cpv, .deleted, htells, hshows, hx⟩

theorem showsRemovals (hh : h.HoldsLast commits) (hshort : commits.length ≤ 2 ^ 53)
    (hplain : IsPlain commits) :
    ShowsRemovals commits id (h.query .removed id { sort := o }) where
  once := by
    apply HistoricalPackage.nodup_cpv (hh.nodup_query _ _) (s := .deleted)
    intro x hx
    obtain ⟨i, commit, cpv, -, rfl⟩ := (hh.mem_removed_iff hshort hplain).mp hx
    rfl
  all cpv := by
    constructor
    · rintro ⟨x, hx, rfl⟩
      obtain ⟨i, commit, cpv, hremoved, rfl⟩ := (hh.mem_removed_iff hshort hplain).mp hx
      exact ⟨i, commit, hremoved⟩
    · rintro ⟨i, commit, hremoved⟩
      exact ⟨_, (hh.mem_removed_iff hshort hplain).mpr ⟨i, commit, cpv, hremoved, rfl⟩, rfl⟩
  last x hx := by
    obtain ⟨i, commit, cpv, hremoved, rfl⟩ := (hh.mem_removed_iff hshort hplain).mp hx
    exact ⟨i, commit, hremoved, rfl⟩

end HoldsLast

theorem holdsLast_print (hprintable : Log.IsPrintable commits) :
    (empty.mergeLog false (Log.print commits)).HoldsLast commits := by
  intro c p s
  exact list_merge_empty (Log.itemsOf_print hprintable) c p s

/-! ## From the log to the views -/

/-- A printed log that is merged from nothing is told whole by the views: every change is shown once,
with the data of its last commit, and what was removed at last is shown as removed. Places of commits
are numbers, which count up to `2 ^ 53`. -/
theorem views_of_printed_log (hprintable : Log.IsPrintable commits)
    (hshort : commits.length ≤ 2 ^ 53) :
    ∃ h, (∀ (spot : Cache.Spot) (range : Text) (w : World),
        spot.logOf range w = ⟨Log.print commits, none⟩ →
          (spot.update range .empty false w).1 = .ok (h, none)) ∧
      ∀ id o, ∃ changed modified added removed,
        HistoryRepo.query ⟨id, View.changed.name, h⟩ { sort := o } = .ok changed ∧
        HistoryRepo.query ⟨id, View.modified.name, h⟩ { sort := o } = .ok modified ∧
        HistoryRepo.query ⟨id, View.added.name, h⟩ { sort := o } = .ok added ∧
        HistoryRepo.query ⟨id, View.removed.name, h⟩ { sort := o } = .ok removed ∧
        ShowsChanges commits id changed ∧
        modified = changed.filter (fun x => x.status ∈ [Status.added, .renamed, .modified]) ∧
        added = changed.filter (fun x => x.status ∈ [Status.added, .renamed]) ∧
        (IsPlain commits → ShowsRemovals commits id removed) := by
  have hh := holdsLast_print hprintable
  refine ⟨empty.mergeLog false (Log.print commits), fun spot range w hlog => ?_, fun id o => ?_⟩
  · rw [Cache.Spot.update_of_log hlog (Log.failure_print hprintable)]
  · refine ⟨_, _, _, _, HistoryRepo.query_view id .changed _ _, HistoryRepo.query_view id .modified _ _,
      HistoryRepo.query_view id .added _ _, HistoryRepo.query_view id .removed _ _,
      hh.showsChanges hshort, ?_, ?_, hh.showsRemovals hshort⟩
    · rw [query_of_statuses rfl]
      refine List.filter_congr fun x _ => ?_
      cases x.status <;> rfl
    · rw [query_of_statuses rfl]
      refine List.filter_congr fun x _ => ?_
      cases x.status <;> rfl

/-- A package version that comes, is renamed to a revision of it and goes. -/
def lifecycle : List (Commit × List Text) :=
  [(⟨"1a".toList, "2024-01-01".toList, [], [], []⟩, ["A\tdev-libs/a/a-1.ebuild".toList]),
    (⟨"2b".toList, "2024-01-02".toList, [], [], ["bump".toList]⟩,
      ["R086\tdev-libs/a/a-1.ebuild\tdev-libs/a/a-1-r1.ebuild".toList]),
    (⟨"3c".toList, "2024-01-03".toList, [], [], []⟩, ["D\tdev-libs/a/a-1-r1.ebuild".toList])]

def goneVersion : Cpv where
  category := "dev-libs".toList
  package := "a".toList
  fullver := "1-r1".toList
  category_valid := by decide
  package_valid := by decide +kernel
  fullver_valid := by decide +kernel

theorem tells_lifecycle {i : Nat} {commit : Commit} {cpv : Cpv} {s : Status}
    (h : Tells lifecycle i commit cpv s) : i < 3 ∧ ∃ line, (lifecycle[i]?).map Prod.snd = some [line] ∧
      FileChange.toldBy? line = some (cpv, s) := by
  obtain ⟨lines, hi, line, hline, htold⟩ := h
  obtain ⟨hlength, -⟩ := List.getElem?_eq_some_iff.mp hi
  have hlines : ∀ x ∈ lifecycle, x.2.length = 1 := by decide
  obtain ⟨only, honly⟩ := List.length_eq_one_iff.mp (hlines _ (List.mem_of_getElem? hi))
  dsimp only at honly
  subst honly
  rw [List.mem_singleton] at hline
  subst hline
  exact ⟨hlength, line, by rw [hi]; rfl, htold⟩

theorem isPlain_lifecycle : IsPlain lifecycle := by
  intro i commit cpv s s' h h'
  obtain ⟨-, line, hline, htold⟩ := tells_lifecycle h
  obtain ⟨-, line', hline', htold'⟩ := tells_lifecycle h'
  rw [hline] at hline'
  obtain rfl : line = line' := by simpa using hline'
  rw [htold] at htold'
  exact (Prod.mk.inj (Option.some.inj htold')).2

theorem views_of_lifecycle :
    Log.IsPrintable lifecycle ∧ ∃ h removed,
      HistoryRepo.query ⟨[], View.removed.name, h⟩ { sort := .version } = .ok removed ∧
      ∃ x ∈ removed, x.cpv = goneVersion := by
  have hprintable : Log.IsPrintable lifecycle := ⟨by decide, by decide⟩
  obtain ⟨h, -, hviews⟩ := views_of_printed_log hprintable (by decide)
  obtain ⟨_, _, _, removed, -, -, -, hremoved, -, -, -, hremovals⟩ := hviews [] .version
  refine ⟨hprintable, h, removed, hremoved, ((hremovals isPlain_lifecycle).all goneVersion).mpr ?_⟩
  refine ⟨2, _, ⟨_, rfl, _, List.mem_singleton_self _, by decide +kernel⟩, fun j commit s htells => ?_⟩
  have hlt := (tells_lifecycle htells).1
  omega

end History

end PackageHistory
