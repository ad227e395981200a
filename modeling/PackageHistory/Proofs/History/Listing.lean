import PackageHistory.Proofs.Cache.RoundTrip
import PackageHistory.Proofs.History.Several
import PackageHistory.Proofs.History.WellFormed

/-!
# Listings and queries

A place is listed when the view selects a record of it, and a query finds something there when a selected record
names a package version. So what is found is listed, and in a history that was built the two are the same. A
file may hold records whose versions are none: a place that has no others is listed and nothing is found there.
-/

namespace PackageHistory

namespace History

variable {h : History} {v : View} {id c p : Text} {q : Query}

/-- The view selects a record of the package. -/
def Selects (h : History) (v : View) (c p : Text) : Prop :=
  ∃ statuses, h.records.statuses? c p = some statuses ∧ v.select statuses ≠ []

/-- The view selects a record of the package that names a package version. -/
def Finds (h : History) (v : View) (c p : Text) : Prop :=
  ∃ statuses s r cpv, h.records.statuses? c p = some statuses ∧ (s, r) ∈ v.select statuses ∧
    Cpv.make c p r.version = .ok cpv

/-- The view selects records of the package, none of which names a package version. -/
def SelectsInVain (h : History) (v : View) (c p : Text) : Prop := h.Selects v c p ∧ ¬ h.Finds v c p

theorem Finds.selects (hfinds : h.Finds v c p) : h.Selects v c p := by
  obtain ⟨statuses, s, r, -, hstatuses, hselect, -⟩ := hfinds
  exact ⟨statuses, hstatuses, List.ne_nil_of_mem hselect⟩

theorem selects_iff : h.Selects v c p ↔ h.Finds v c p ∨ h.SelectsInVain v c p := by
  constructor
  · intro hselects
    by_cases hfinds : h.Finds v c p
    · exact .inl hfinds
    · exact .inr ⟨hselects, hfinds⟩
  · rintro (hfinds | hvain)
    · exact hfinds.selects
    · exact hvain.1

/-! ## Listings -/

theorem mem_packageNames : p ∈ h.packageNames v c ↔ h.Selects v c p := by
  unfold packageNames Selects Tree.statuses?
  cases hc : h.records.get? c with
  | none => simp
  | some packages =>
    simp only [Option.bind_some, List.mem_mergeSort, List.mem_map, List.mem_filter, Prod.exists,
      OrderedMap.mem_entries_iff, Bool.not_eq_true', List.isEmpty_eq_false_iff]
    constructor
    · rintro ⟨p', statuses, ⟨hp, hselect⟩, rfl⟩
      exact ⟨statuses, hp, hselect⟩
    · rintro ⟨statuses, hp, hselect⟩
      exact ⟨p, statuses, ⟨hp, hselect⟩, rfl⟩

theorem pairwise_packageNames (h : History) (v : View) (c : Text) :
    (h.packageNames v c).Pairwise fun s t => Text.compare s t = .lt := by
  unfold packageNames
  split
  · exact .nil
  · next packages _ =>
    exact Text.pairwise_mergeSort (packages.nodup.sublist (List.filter_sublist.map _))

theorem mem_categoryNames : c ∈ h.categoryNames v ↔ ∃ p, h.Selects v c p := by
  have hpackages : h.packageNames v c ≠ [] ↔ ∃ p, h.Selects v c p := by
    rw [← List.isEmpty_eq_false_iff, List.isEmpty_eq_false_iff_exists_mem]
    exact exists_congr fun p => mem_packageNames
  rw [categoryNames, List.mem_mergeSort, List.mem_filter, ← hpackages]
  simp only [Bool.not_eq_true', List.isEmpty_eq_false_iff, and_iff_right_iff_imp]
  intro hne
  rw [OrderedMap.keys, ← Entries.lookup_isSome_iff]
  -- A category without an entry has no packages to list.
  cases hc : h.records.get? c with
  | none => exact absurd (by rw [packageNames, hc]) hne
  | some packages => exact Option.isSome_iff_exists.mpr ⟨packages, hc⟩

theorem pairwise_categoryNames (h : History) (v : View) :
    (h.categoryNames v).Pairwise fun s t => Text.compare s t = .lt :=
  Text.pairwise_mergeSort (h.records.nodup.sublist List.filter_sublist)

/-! ## Queries -/

theorem query_ne_nil_iff (hatom : q.atom = none) :
    h.query v id q ≠ [] ↔ ∃ c p, IsWanted q c p ∧ h.Finds v c p := by
  have hadmits (x : HistoricalPackage) : q.admits x = true := by
    rw [Query.admits, hatom]
  rw [← List.isEmpty_eq_false_iff, List.isEmpty_eq_false_iff_exists_mem]
  constructor
  · rintro ⟨x, hx⟩
    obtain ⟨-, c, p, statuses, s, r, hstatuses, hwanted, hselect, hforms⟩ := mem_query.mp hx
    obtain ⟨cpv, hcpv, -⟩ := bind_eq_ok hforms
    exact ⟨c, p, hwanted, statuses, s, r, cpv, hstatuses, hselect, hcpv⟩
  · rintro ⟨c, p, hwanted, statuses, s, r, cpv, hstatuses, hselect, hcpv⟩
    refine ⟨⟨cpv, s, r.date, r.seq, r.commit, r.extra.getD [], id⟩, mem_query.mpr ⟨hadmits _, ?_⟩⟩
    refine ⟨c, p, statuses, s, r, hstatuses, hwanted, hselect, ?_⟩
    rw [Forms, HistoricalPackage.ofRecord, hcpv]
    rfl

theorem query_category_ne_nil_iff :
    h.query v id { category := some c } ≠ [] ↔ ∃ p, h.Finds v c p := by
  rw [query_ne_nil_iff rfl]
  constructor
  · rintro ⟨c', p, hwanted, hfinds⟩
    rw [hwanted.1 c rfl] at hfinds
    exact ⟨p, hfinds⟩
  · rintro ⟨p, hfinds⟩
    exact ⟨c, p, ⟨fun c' hc' => Option.some.inj hc', nofun⟩, hfinds⟩

theorem query_package_ne_nil_iff :
    h.query v id { category := some c, package := some p } ≠ [] ↔ h.Finds v c p := by
  rw [query_ne_nil_iff rfl]
  constructor
  · rintro ⟨c', p', hwanted, hfinds⟩
    rwa [hwanted.1 c rfl, hwanted.2 p rfl] at hfinds
  · intro hfinds
    exact ⟨c, p, ⟨fun c' hc' => Option.some.inj hc', fun p' hp' => Option.some.inj hp'⟩, hfinds⟩

end History

/-! ## Agreement -/

/-- Both listings are in strictly ascending order. A category, and a package of one, is listed just where the
query for it answers something or the view selects records of it in vain. -/
theorem HistoryRepo.listings_agree (id : Text) (v : View) (h : History) :
    ∃ categories, HistoryRepo.categories ⟨id, v.name, h⟩ = .ok categories ∧
      (categories.Pairwise fun s t => Text.compare s t = .lt) ∧
      ∀ c, ∃ packages found, HistoryRepo.packages ⟨id, v.name, h⟩ c = .ok packages ∧
        (packages.Pairwise fun s t => Text.compare s t = .lt) ∧
        HistoryRepo.query ⟨id, v.name, h⟩ { category := some c } = .ok found ∧
        (c ∈ categories ↔ found ≠ [] ∨ ∃ p, h.SelectsInVain v c p) ∧
        ∀ p, ∃ found,
          HistoryRepo.query ⟨id, v.name, h⟩ { category := some c, package := some p } = .ok found ∧
          (p ∈ packages ↔ found ≠ [] ∨ h.SelectsInVain v c p) := by
  have hview : HasView ⟨id, v.name, h⟩ := ⟨v, rfl⟩
  have hv : view ⟨id, v.name, h⟩ = v := by cases v <;> rfl
  refine ⟨h.categoryNames v, ?_, h.pairwise_categoryNames v, fun c => ?_⟩
  · rw [categories_of_view hview, hv]
  refine ⟨h.packageNames v c, _, ?_, h.pairwise_packageNames v c, query_view id v h _, ?_, fun p => ?_⟩
  · rw [packages_of_view hview, hv]
  · rw [History.mem_categoryNames, History.query_category_ne_nil_iff, ← exists_or]
    exact exists_congr fun p => History.selects_iff
  · refine ⟨_, query_view id v h _, ?_⟩
    rw [History.mem_packageNames, History.query_package_ne_nil_iff]
    exact History.selects_iff

/-- Where every record names a package version nothing is selected in vain. -/
theorem History.WellFormed.finds_of_selects {h : History} (hh : h.WellFormed) {v : View} {c p : Text}
    (hselects : h.Selects v c p) : h.Finds v c p := by
  obtain ⟨statuses, hstatuses, hselect⟩ := hselects
  obtain ⟨⟨s, r⟩, hr⟩ := List.exists_mem_of_ne_nil _ hselect
  have hlist : r ∈ h.records.list c p s :=
    (mem_flatten_iff hstatuses).mp (View.mem_flatten_of_mem_select hr)
  obtain ⟨cpv, hcpv⟩ := hh.valid c p s r hlist
  exact ⟨statuses, s, r, cpv, hstatuses, hr, hcpv⟩

/-! ## A record without a version -/

namespace Cache

/-- The one record names no package version. -/
def unnamedEntry : Entry :=
  ⟨1, "1a".toList, ⟨1, Tree.append .empty "app-misc".toList "foo".toList .added
    ⟨"not-a-version".toList, "2024-01-01".toList, 0, .hash "1a".toList, none⟩⟩⟩

def unnamedWorld : World :=
  { blankWorld with disk := (Disk.empty []).put ["c".toList] (.file (content unnamedEntry) false) }

theorem storable_unnamedEntry : Storable unnamedEntry := by
  refine ⟨⟨1, .of_lt (by decide), rfl⟩, by decide, ⟨1, .of_lt (by decide), rfl⟩, fun c p s r hr => ?_⟩
  rw [show unnamedEntry.history.records.list c p s = _ from list_append .empty ..] at hr
  split at hr
  · rw [List.mem_singleton.mp hr]
    exact ⟨0, .of_lt (by decide), rfl⟩
  · cases hr

/-- The file is read, and what it holds is listed, but no query finds it. -/
theorem listed_without_version :
    ∃ e categories packages, (read "/c".toList 1 unnamedWorld).1 = .ok (some e) ∧
      HistoryRepo.categories ⟨[], View.changed.name, e.history⟩ = .ok categories ∧
      "app-misc".toList ∈ categories ∧
      HistoryRepo.query ⟨[], View.changed.name, e.history⟩ { category := some "app-misc".toList } =
        .ok [] ∧
      HistoryRepo.packages ⟨[], View.changed.name, e.history⟩ "app-misc".toList = .ok packages ∧
      "foo".toList ∈ packages ∧
      HistoryRepo.query ⟨[], View.changed.name, e.history⟩
        { category := some "app-misc".toList, package := some "foo".toList } = .ok [] := by
  have hread : (read "/c".toList 1 unnamedWorld).1 = .ok (some (reload unnamedEntry)) :=
    read_of_stored storable_unnamedEntry rfl rfl
  have hstatuses :
      ((reload unnamedEntry).history.records.statuses? "app-misc".toList "foo".toList).isSome := by
    decide +kernel
  have hselects : (reload unnamedEntry).history.Selects .changed "app-misc".toList "foo".toList :=
    ⟨_, (Option.some_get hstatuses).symm, by decide +kernel +revert⟩
  refine ⟨_, _, _, hread, HistoryRepo.categories_of_view ⟨.changed, rfl⟩, ?_, ?_,
    HistoryRepo.packages_of_view ⟨.changed, rfl⟩ _, ?_, ?_⟩
  · exact History.mem_categoryNames.mpr ⟨_, hselects⟩
  · rw [HistoryRepo.query_view, Except.ok.injEq, History.query_of_ordered rfl (by decide +kernel)]
    decide +kernel
  · exact History.mem_packageNames.mpr hselects
  · rw [HistoryRepo.query_view, Except.ok.injEq, History.query_of_ordered rfl (by decide +kernel)]
    decide +kernel

end Cache

end PackageHistory
