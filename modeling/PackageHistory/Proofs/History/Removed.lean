import PackageHistory.Proofs.History.Scan

/-!
# Versions that are gone

The view of removals answers for each version by its latest record: a version is shown when that record is a
removal, and not when something was recorded of it later.
-/

namespace PackageHistory

/-- A record of a package version under a status. -/
def Tree.Has (t : Tree Record) (cpv : Cpv) (s : Status) (r : Record) : Prop :=
  r ∈ t.list cpv.category cpv.package s ∧ r.version = cpv.fullver

/-- What is answered are the removals that no record of the version is later than. -/
structure ShowsGone (t : Tree Record) (id : Text) (q : Query) (shown : List HistoricalPackage) :
    Prop where
  once : (shown.map HistoricalPackage.cpv).Nodup
  latest : ∀ x ∈ shown, ∃ r, t.Has x.cpv .deleted r ∧
    History.Forms id x.cpv.category x.cpv.package .deleted r x ∧
    ∀ s r', t.Has x.cpv s r' → r'.seq ≤ r.seq
  overtaken : ∀ cpv s r, s ≠ .deleted → t.Has cpv s r →
    (∀ d, t.Has cpv .deleted d → d.seq < r.seq) → ∀ x ∈ shown, x.cpv ≠ cpv
  all : ∀ cpv d, q.accepts cpv = true → t.Has cpv .deleted d →
    (∀ s r, s ≠ .deleted → t.Has cpv s r → r.seq < d.seq) → ∃ x ∈ shown, x.cpv = cpv

namespace History

variable {h : History} {q : Query} {id : Text} {x : HistoricalPackage}

theorem mem_open {v : View} {o : SortOrder} :
    x ∈ h.query v id { sort := o } ↔ ∃ c p statuses s r, h.records.statuses? c p = some statuses ∧
      (s, r) ∈ v.select statuses ∧ Forms id c p s r x := by
  have hadmits : Query.admits { sort := o } x = true := rfl
  have hwanted (c p : Text) : IsWanted { sort := o } c p ↔ True :=
    iff_true_intro ⟨nofun, nofun⟩
  simp only [mem_query, hadmits, hwanted, true_and]

theorem mem_select_removed {statuses : OrderedMap Status (List Record)} {y : Status × Record} :
    y ∈ View.removed.select statuses ↔
      ((View.flatten statuses).foldl View.keepLatest .empty).get? y.2.version = some y ∧
        y.1 = .deleted := by
  have hlatest : View.removed.latestOnly = true := rfl
  rw [View.mem_select, if_pos hlatest, View.mem_latestRecords, View.statuses, List.mem_singleton]

theorem latest_of_removed (hx : x ∈ h.query .removed id q) :
    ∃ r, h.records.Has x.cpv .deleted r ∧ Forms id x.cpv.category x.cpv.package .deleted r x ∧
      ∀ s r', h.records.Has x.cpv s r' → r'.seq ≤ r.seq := by
  rw [mem_query_accepts, mem_open] at hx
  obtain ⟨⟨c, p, statuses, s, r, hstatuses, hselect, hforms⟩, -⟩ := hx
  obtain ⟨hkept, hs⟩ := mem_select_removed.mp hselect
  obtain rfl : s = .deleted := hs
  obtain ⟨-, hmem, hmax⟩ := View.isLatest_of_kept hkept
  obtain ⟨rfl, rfl, hversion, -⟩ := HistoricalPackage.of_ofRecord hforms
  refine ⟨r, ⟨(mem_flatten_iff hstatuses).mp hmem, hversion.symm⟩, hforms, fun s r' hr' => ?_⟩
  exact hmax (s, r') ((mem_flatten_iff hstatuses).mpr hr'.1) (hr'.2.trans hversion)

theorem exists_removed {cpv : Cpv} {d : Record} (haccepts : q.accepts cpv = true)
    (hd : h.records.Has cpv .deleted d)
    (hlast : ∀ s r, s ≠ .deleted → h.records.Has cpv s r → r.seq < d.seq) :
    ∃ x ∈ h.query .removed id q, x.cpv = cpv := by
  cases hstatuses : h.records.statuses? cpv.category cpv.package with
  | none =>
    have hmem := hd.1
    simp [Tree.list, hstatuses] at hmem
  | some statuses =>
    have hflat : (Status.deleted, d) ∈ View.flatten statuses := (mem_flatten_iff hstatuses).mpr hd.1
    obtain ⟨⟨s, r⟩, hkept⟩ := View.exists_kept hflat
    obtain ⟨hversion, hmem, hmax⟩ := View.isLatest_of_kept hkept
    have hr : h.records.Has cpv s r := ⟨(mem_flatten_iff hstatuses).mp hmem, hversion.trans hd.2⟩
    -- What is kept is not older than the removal, so it is one itself.
    have hs : s = .deleted := by
      by_contra hne
      have hle : d.seq ≤ r.seq := hmax _ hflat hversion.symm
      exact Number.not_lt.mpr hle (hlast s r hne hr)
    subst hs
    rw [← hversion] at hkept
    obtain ⟨x, hforms, hx⟩ : ∃ x, Forms id cpv.category cpv.package .deleted r x ∧ x.cpv = cpv := by
      refine ⟨⟨cpv, .deleted, r.date, r.seq, r.commit, r.extra.getD [], id⟩, ?_, rfl⟩
      show (Cpv.make cpv.category cpv.package r.version).bind _ = _
      rw [hr.2, Cpv.make_self]
      rfl
    refine ⟨x, ?_, hx⟩
    rw [mem_query_accepts, mem_open, hx]
    exact ⟨⟨_, _, statuses, _, r, hstatuses, mem_select_removed.mpr ⟨hkept, rfl⟩, hforms⟩, haccepts⟩

theorem status_of_removed (hx : x ∈ h.query .removed id q) : x.status = .deleted := by
  obtain ⟨r, -, hforms, -⟩ := latest_of_removed hx
  exact (HistoricalPackage.of_ofRecord hforms).2.2.2

theorem showsGone (h : History) (id : Text) (q : Query) :
    ShowsGone h.records id q (h.query .removed id q) where
  once := by
    apply HistoricalPackage.nodup_cpv (s := .deleted)
    · exact nodup_query_of_marks fun _ _ statuses _ => View.nodup_select_of_latest rfl statuses
    · exact fun x hx => status_of_removed hx
  latest x hx := latest_of_removed hx
  overtaken cpv s r hs hr hlater x hx := by
    rintro rfl
    obtain ⟨d, hd, -, hmax⟩ := latest_of_removed hx
    exact Number.not_lt.mpr (hmax s r hr) (hlater d hd)
  all cpv d haccepts hd hlast := exists_removed haccepts hd hlast

end History

/-- The view of removals shows a version once, and only if its latest record is a removal. -/
theorem HistoryRepo.query_removed (id : Text) (h : History) (q : Query) :
    ∃ shown, HistoryRepo.query ⟨id, View.removed.name, h⟩ q = .ok shown ∧
      ShowsGone h.records id q shown :=
  ⟨_, query_view id .removed h q, h.showsGone id q⟩

/-! ## A version that came back -/

namespace History

def sample (version : String) (n : Nat) : Record :=
  ⟨version.toList, "2024-01-01".toList, .integer n, .hash [], none⟩

/-- Both versions came and went, and the second one came back. Lists are not in order of time. -/
def cameBack : History where
  commitCount := 5
  records := .ofList [("dev-util".toList, .ofList [("b".toList, .ofList
    [(.deleted, [sample "2" 2, sample "1" 3]), (.added, [sample "2" 4, sample "1" 0, sample "2" 1])])])]

def versionOfB (version : String) (h : Version.isValid version.toList = true) : Cpv where
  category := "dev-util".toList
  package := "b".toList
  fullver := version.toList
  category_valid := by decide
  package_valid := by decide +kernel
  fullver_valid := h

theorem list_cameBack (s : Status) : cameBack.records.list "dev-util".toList "b".toList s =
    if s = .deleted then [sample "2" 2, sample "1" 3]
    else if s = .added then [sample "2" 4, sample "1" 0, sample "2" 1] else [] := by
  cases s <;> rfl

theorem query_removed_cameBack :
    ∃ shown, HistoryRepo.query ⟨[], View.removed.name, cameBack⟩ {} = .ok shown ∧
      (∃ x ∈ shown, x.cpv = versionOfB "1" (by decide)) ∧
      ∀ x ∈ shown, x.cpv ≠ versionOfB "2" (by decide) := by
  obtain ⟨shown, hshown, hgone⟩ := HistoryRepo.query_removed [] cameBack {}
  refine ⟨shown, hshown, ?_, ?_⟩
  · refine hgone.all _ (sample "1" 3) rfl ⟨by decide +kernel, rfl⟩ fun s r hs hr => ?_
    obtain ⟨hmem, hversion⟩ : r ∈ cameBack.records.list "dev-util".toList "b".toList s ∧
      r.version = "1".toList := hr
    rw [list_cameBack, if_neg hs] at hmem
    split at hmem
    · simp only [List.mem_cons, List.not_mem_nil, or_false] at hmem
      rcases hmem with rfl | rfl | rfl
      · exact absurd hversion (by decide)
      · exact Number.integer_lt_integer.mpr (by decide)
      · exact absurd hversion (by decide)
    · cases hmem
  · refine hgone.overtaken _ .added (sample "2" 4) (by decide) ⟨by decide +kernel, rfl⟩ fun d hd => ?_
    obtain ⟨hmem, hversion⟩ : d ∈ cameBack.records.list "dev-util".toList "b".toList .deleted ∧
      d.version = "2".toList := hd
    rw [list_cameBack, if_pos rfl] at hmem
    simp only [List.mem_cons, List.not_mem_nil, or_false] at hmem
    rcases hmem with rfl | rfl
    · exact Number.integer_lt_integer.mpr (by decide)
    · exact absurd hversion (by decide)

end History

end PackageHistory
