import PackageHistory.Proofs.History.Scan

/-!
# Several repositories as one

Answers of several repositories are joined and sorted. The order does not look at repositories and the sort is stable,
so the packages of each one are left as it answers them.
-/

namespace PackageHistory

namespace HistoryRepo

variable {r : HistoryRepo}

/-! ## Repositories that answer -/

def HasView (r : HistoryRepo) : Prop := ∃ v : View, r.viewName = v.name

def view (r : HistoryRepo) : View := (View.ofName? r.viewName).getD .changed

theorem answer_of_view (hv : r.HasView) {α : Type} (lookedAt : List (OrderedMap Status (List Record)))
    (ask : View → α) (nothing : α) : r.answer lookedAt ask nothing = .ok (ask r.view) := by
  obtain ⟨id, name, h⟩ := r
  obtain ⟨v, rfl⟩ : ∃ v : View, name = v.name := hv
  cases v <;> rfl

theorem query_of_view (hv : r.HasView) (q : Query) :
    r.query q = .ok (r.history.query r.view r.id q) := answer_of_view hv _ _ _

theorem categories_of_view (hv : r.HasView) :
    r.categories = .ok (r.history.categoryNames r.view) := answer_of_view hv _ _ _

theorem packages_of_view (hv : r.HasView) (category : Text) :
    r.packages category = .ok (r.history.packageNames r.view category) := answer_of_view hv _ _ _

theorem repoId_of_mem {h : History} {v : View} {id : Text} {q : Query} {x : HistoricalPackage}
    (hx : x ∈ h.query v id q) : x.repoId = id := by
  obtain ⟨-, c, p, statuses, s, record, -, -, -, hforms⟩ := History.mem_query.mp hx
  obtain ⟨hc, hp, hv, rfl⟩ := HistoricalPackage.ofRecord_eq_ok hforms
  rfl

end HistoryRepo

/-! ## Joined answers -/

section Joined

variable {rs : List HistoryRepo} {α : Type}

theorem mapM_answers {ask : HistoryRepo → Except Failure α} {own : HistoryRepo → α}
    (h : ∀ r ∈ rs, ask r = .ok (own r)) : rs.mapM ask = .ok (rs.map own) := by
  have hmap := mapM_map (e := id) h
  rwa [List.map_id] at hmap

/-- Of what repositories have, what is marked as one's own is what it has. -/
theorem filter_flatMap_own {own : HistoryRepo → List HistoricalPackage}
    (hids : (rs.map HistoryRepo.id).Nodup) (hown : ∀ r, ∀ x ∈ own r, x.repoId = r.id)
    {r : HistoryRepo} (hr : r ∈ rs) :
    (rs.flatMap own).filter (fun x => x.repoId = r.id) = own r := by
  have hkeys : (Entries.keys (rs.map fun r => (r.id, r))).Nodup := by
    rw [Entries.keys, List.map_map]
    exact hids
  have hlookup : Entries.lookup r.id (rs.map fun r => (r.id, r)) = some r :=
    (Entries.lookup_eq_some_iff hkeys).mpr (List.mem_map.mpr ⟨r, hr, rfl⟩)
  have hfound := Entries.flatMap_lookup r.id own hkeys
  rw [hlookup, List.flatMap_map] at hfound
  rw [List.filter_flatMap]
  refine Eq.trans ?_ hfound
  congr 1
  funext r'
  split
  · next heq =>
    refine List.filter_eq_self.mpr fun x hx => ?_
    rw [hown r' x hx]
    exact decide_eq_true heq
  · next hne =>
    refine List.filter_eq_nil_iff.mpr fun x hx => ?_
    rw [hown r' x hx]
    simpa using hne

end Joined

/-- Names in strictly ascending order, each of which some repository answers. -/
structure IsUnion (rs : List HistoryRepo) (ask : HistoryRepo → Except Failure (List Text))
    (names : List Text) : Prop where
  answered : ∀ r ∈ rs, ∃ own, ask r = .ok own
  ascending : names.Pairwise fun s t => Text.compare s t = .lt
  mem_iff : ∀ t, t ∈ names ↔ ∃ r ∈ rs, ∃ own, ask r = .ok own ∧ t ∈ own

/-- Packages of all repositories in one order, those of each one as it answers them. -/
structure IsMerged (rs : List HistoryRepo) (q : Query) (shown : List HistoricalPackage) : Prop where
  ordered : shown.Pairwise q.sort.Precedes
  known : ∀ x ∈ shown, ∃ r ∈ rs, x.repoId = r.id
  own : ∀ r ∈ rs, r.query q = .ok (shown.filter fun x => x.repoId = r.id)

namespace AnyRepo

variable {rs : List HistoryRepo}

theorem isUnion_sortDistinct {ask : HistoryRepo → Except Failure (List Text)}
    {own : HistoryRepo → List Text} (h : ∀ r ∈ rs, ask r = .ok (own r)) :
    IsUnion rs ask (Text.sortDistinct (rs.map own).flatten) where
  answered r hr := ⟨own r, h r hr⟩
  ascending := Text.pairwise_sortDistinct _
  mem_iff t := by
    rw [Text.mem_sortDistinct, ← List.flatMap_def, List.mem_flatMap]
    constructor
    · rintro ⟨r, hr, ht⟩
      exact ⟨r, hr, own r, h r hr, ht⟩
    · rintro ⟨r, hr, names, hnames, ht⟩
      rw [h r hr, Except.ok.injEq] at hnames
      rw [← hnames] at ht
      exact ⟨r, hr, ht⟩

section Views

variable (hviews : ∀ r ∈ rs, r.HasView)
include hviews

theorem isMerged_sort (hids : (rs.map HistoryRepo.id).Nodup) (q : Query) :
    IsMerged rs q (q.sort.sort (rs.flatMap fun r => r.history.query r.view r.id q)) where
  ordered := q.sort.pairwise_sort _
  known x hx := by
    rw [SortOrder.sort, List.mem_mergeSort, List.mem_flatMap] at hx
    obtain ⟨r, hr, hx⟩ := hx
    exact ⟨r, hr, HistoryRepo.repoId_of_mem hx⟩
  own r hr := by
    have hown : ∀ r : HistoryRepo, ∀ x ∈ r.history.query r.view r.id q, x.repoId = r.id :=
      fun r x hx => HistoryRepo.repoId_of_mem hx
    rw [HistoryRepo.query_of_view (hviews r hr), SortOrder.filter_sort,
      filter_flatMap_own hids hown hr]
    -- What one repository answers is in order already.
    exact congrArg Except.ok (List.mergeSort_of_pairwise
      (List.pairwise_mergeSort q.sort.le_trans q.sort.le_total _)).symm

/-- Several repositories answer a query with what each of them does, in order, and names with those of all. -/
theorem several_answers (hids : (rs.map HistoryRepo.id).Nodup) (q : Query) (category : Text) :
    (∃ shown, AnyRepo.query q (.several rs) = .ok shown ∧ IsMerged rs q shown) ∧
      (∃ names, AnyRepo.categories (.several rs) = .ok names ∧
        IsUnion rs HistoryRepo.categories names) ∧
      ∃ names, AnyRepo.packages category (.several rs) = .ok names ∧
        IsUnion rs (·.packages category) names := by
  have hquery := fun r hr => HistoryRepo.query_of_view (hviews r hr) q
  have hcategories := fun r hr => HistoryRepo.categories_of_view (hviews r hr)
  have hpackages := fun r hr => HistoryRepo.packages_of_view (hviews r hr) category
  refine ⟨⟨_, ?_, isMerged_sort hviews hids q⟩, ⟨_, ?_, isUnion_sortDistinct hcategories⟩,
    ⟨_, ?_, isUnion_sortDistinct hpackages⟩⟩
  · rw [AnyRepo.query, mapM_answers hquery, List.flatMap_def]
    rfl
  · rw [AnyRepo.categories, mapM_answers hcategories]
    rfl
  · rw [AnyRepo.packages, mapM_answers hpackages]
    rfl

end Views

/-! ## Two repositories with one package -/

def packageA : History where
  commitCount := 1
  records := .ofList [("dev-libs".toList, .ofList [("a".toList, .ofList
    [(.added, [⟨"1".toList, "2024-01-01".toList, 0, .hash "1a".toList, none⟩])])])]

/-- Their packages are tied in every order. -/
def twins : List HistoryRepo :=
  [⟨"gentoo".toList, View.changed.name, packageA⟩, ⟨"guru".toList, View.added.name, packageA⟩]

theorem several_answers_twins : (∀ r ∈ twins, r.HasView) ∧ (twins.map HistoryRepo.id).Nodup ∧
    (∃ shown, AnyRepo.query {} (.several twins) = .ok shown ∧ IsMerged twins {} shown) ∧
    ∃ names, AnyRepo.packages "dev-libs".toList (.several twins) = .ok names ∧
      "a".toList ∈ names ∧ names.Pairwise fun s t => Text.compare s t = .lt := by
  have hviews : ∀ r ∈ twins, r.HasView := by
    simp only [twins, List.forall_mem_cons]
    exact ⟨⟨.changed, rfl⟩, ⟨.added, rfl⟩, nofun⟩
  have hids : (twins.map HistoryRepo.id).Nodup := by decide
  obtain ⟨hquery, -, names, hnames, hunion⟩ :=
    several_answers hviews hids {} "dev-libs".toList
  have hfirst : HistoryRepo.packages ⟨"gentoo".toList, View.changed.name, packageA⟩
      "dev-libs".toList = .ok ["a".toList] := by
    have hsorted : ["a".toList].mergeSort Text.le = ["a".toList] := List.mergeSort_singleton _
    exact congrArg Except.ok hsorted
  refine ⟨hviews, hids, hquery, names, hnames, ?_, hunion.ascending⟩
  exact (hunion.mem_iff _).mpr ⟨_, List.mem_cons_self, _, hfirst, List.mem_singleton_self _⟩

end AnyRepo

end PackageHistory
