import PackageHistory.Proofs.History.Distinct

/-!
# What views pick

A view of all records picks those of its statuses, as often as they are there. A view of the latest ones looks at
one record of each version: of those with the greatest ordinal, the one that comes first.
-/

namespace PackageHistory

namespace View

variable {records before after : List (Status × Record)} {x : Status × Record}

/-! ## The first of the latest -/

/-- Records of the version that come before are older, those that come after are not newer. -/
def IsFirstLatest (records : List (Status × Record)) (x : Status × Record) : Prop :=
  ∃ before after, records = before ++ x :: after ∧
    (∀ y ∈ before, y.2.version = x.2.version → y.2.seq < x.2.seq) ∧
    ∀ y ∈ after, y.2.version = x.2.version → y.2.seq ≤ x.2.seq

theorem foldl_later_of_le (h : ∀ y ∈ records, y.2.seq ≤ x.2.seq) :
    records.foldl later (some x) = some x := by
  induction records with
  | nil => rfl
  | cons y rest ih =>
    obtain ⟨hy, hrest⟩ := List.forall_mem_cons.mp h
    have hstays : later (some x) y = some x := by simp [later, Number.not_lt.mpr hy]
    rw [List.foldl_cons, hstays, ih hrest]

theorem foldl_later_split (hbefore : ∀ y ∈ before, y.2.seq < x.2.seq)
    (hafter : ∀ y ∈ after, y.2.seq ≤ x.2.seq) :
    (before ++ x :: after).foldl later none = some x := by
  have htaken : later (before.foldl later none) x = some x := by
    cases before with
    | nil => rfl
    | cons y rest =>
      obtain ⟨z, hz, hmem, -⟩ := foldl_later rest y
      have hlt : z.2.seq < x.2.seq := hbefore z (List.mem_cons.mpr hmem)
      have hkept : (y :: rest).foldl later none = some z := hz
      simp [hkept, later, hlt]
  rw [List.foldl_append, List.foldl_cons, htaken, foldl_later_of_le hafter]

theorem IsFirstLatest.kept (h : IsFirstLatest records x) :
    (records.foldl keepLatest .empty).get? x.2.version = some x := by
  obtain ⟨before, after, rfl, hbefore, hafter⟩ := h
  rw [get?_foldl_keepLatest, OrderedMap.get?_empty, List.filter_append,
    List.filter_cons_of_pos (by simp)]
  apply foldl_later_split
  · intro y hy
    rw [List.mem_filter, decide_eq_true_eq] at hy
    exact hbefore y hy.1 hy.2
  · intro y hy
    rw [List.mem_filter, decide_eq_true_eq] at hy
    exact hafter y hy.1 hy.2

theorem exists_isFirstLatest {v : Text} (h : ∃ y ∈ records, y.2.version = v) :
    ∃ x, x.2.version = v ∧ IsFirstLatest records x := by
  induction records with
  | nil =>
    obtain ⟨y, hy, -⟩ := h
    cases hy
  | cons a rest ih =>
    by_cases hrest : ∃ y ∈ rest, y.2.version = v
    · obtain ⟨x, rfl, before, after, rfl, hbefore, hafter⟩ := ih hrest
      by_cases ha : a.2.version = x.2.version ∧ x.2.seq ≤ a.2.seq
      · -- The head is not older than the one found behind it.
        refine ⟨a, ha.1, [], _, rfl, nofun, fun y hy hversion => ?_⟩
        refine Number.le_trans ?_ ha.2
        rw [ha.1] at hversion
        rcases List.mem_append.mp hy with hy | hy
        · exact Number.le_of_lt (hbefore y hy hversion)
        · rcases List.mem_cons.mp hy with rfl | hy
          · exact Number.le_refl _
          · exact hafter y hy hversion
      · refine ⟨x, rfl, a :: before, after, rfl, ?_, hafter⟩
        refine List.forall_mem_cons.mpr ⟨fun hversion => ?_, hbefore⟩
        by_contra hlt
        exact ha ⟨hversion, Number.not_lt.mp hlt⟩
    · have hnone : ∀ y ∈ rest, y.2.version ≠ v := fun y hy hversion => hrest ⟨y, hy, hversion⟩
      obtain ⟨y, hy, rfl⟩ := h
      rcases List.mem_cons.mp hy with rfl | hy
      · exact ⟨y, rfl, [], rest, rfl, nofun, fun z hz hversion => absurd hversion (hnone z hz)⟩
      · exact absurd rfl (hnone y hy)

theorem mem_latestRecords_iff_isFirstLatest : x ∈ latestRecords records ↔ IsFirstLatest records x := by
  rw [mem_latestRecords]
  constructor
  · intro hx
    obtain ⟨z, hversion, hz⟩ := exists_isFirstLatest ⟨x, (isLatest_of_kept hx).2.1, rfl⟩
    have hkept := hz.kept
    rw [hversion, hx, Option.some.injEq] at hkept
    rw [hkept]
    exact hz
  · exact IsFirstLatest.kept

/-! ## What is picked of a tree -/

/-- What a view picks of a tree: records with their places and statuses. -/
structure Picks (v : View) (t : Tree Record) (picked : List (Text × Text × Status × Record)) :
    Prop where
  all : v.latestOnly = false → picked = t.toList.filter fun x => v.statuses.contains x.2.2.1
  once : v.latestOnly = true → picked.Nodup
  latest : v.latestOnly = true → ∀ c p s r, (c, p, s, r) ∈ picked ↔
    s ∈ v.statuses ∧ ∃ statuses, t.statuses? c p = some statuses ∧
      IsFirstLatest (flatten statuses) (s, r)

end View

namespace History

variable {h : History} {v : View}

/-- A query that names nothing looks at all packages. -/
theorem candidates_open (h : History) : h.candidates {} =
    h.records.entries.flatMap fun c => c.2.entries.map fun p => (c.1, p.1, p.2) := rfl

/-- The records that a view picks, package by package. -/
def picked (h : History) (v : View) : List (Text × Text × Status × Record) :=
  (h.candidates {}).flatMap fun x => (v.select x.2.2).map fun y => (x.1, x.2.1, y)

theorem mem_picked {c p : Text} {s : Status} {r : Record} :
    (c, p, s, r) ∈ h.picked v ↔
      ∃ statuses, h.records.statuses? c p = some statuses ∧ (s, r) ∈ v.select statuses := by
  have hwanted (c p : Text) : IsWanted {} c p := ⟨nofun, nofun⟩
  simp only [picked, List.mem_flatMap, List.mem_map, Prod.exists, mem_candidates, Prod.mk.injEq]
  constructor
  · rintro ⟨c', p', statuses, ⟨hstatuses, -⟩, s', r', hr, rfl, rfl, rfl, rfl⟩
    exact ⟨statuses, hstatuses, hr⟩
  · rintro ⟨statuses, hstatuses, hr⟩
    exact ⟨c, p, statuses, ⟨hstatuses, hwanted c p⟩, s, r, hr, rfl, rfl, rfl, rfl⟩

theorem picked_of_all (hv : v.latestOnly = false) :
    h.picked v = h.records.toList.filter fun x => v.statuses.contains x.2.2.1 := by
  have hselect (statuses : OrderedMap Status (List Record)) :
      v.select statuses = (View.flatten statuses).filter fun x => v.statuses.contains x.1 := by
    rw [View.select, hv]
    rfl
  simp only [picked, candidates_open, hselect, View.flatten, Tree.toList, List.flatMap_assoc,
    List.flatMap_map, List.filter_flatMap, List.map_flatMap, List.filter_map, List.map_map]
  rfl

theorem nodup_picked (hv : v.latestOnly = true) : (h.picked v).Nodup := by
  rw [List.Nodup, picked, List.pairwise_flatMap]
  constructor
  · rintro ⟨c, p, statuses⟩ -
    have hselect : (v.select statuses).Nodup := (View.nodup_select_of_latest hv statuses).of_map
    exact hselect.map fun y z hyz => (Prod.mk.inj (Prod.mk.inj hyz).2).2
  · have hplaces := List.pairwise_map.mp (nodup_candidates (h := h) (q := {}))
    refine hplaces.imp fun {a b} hne x hx y hy heq => hne ?_
    obtain ⟨x', -, rfl⟩ := List.mem_map.mp hx
    obtain ⟨y', -, rfl⟩ := List.mem_map.mp hy
    obtain ⟨hc, hrest⟩ := Prod.mk.inj heq
    rw [hc, (Prod.mk.inj hrest).1]

theorem picks_picked (h : History) (v : View) : v.Picks h.records (h.picked v) where
  all := picked_of_all
  once := nodup_picked
  latest hv c p s r := by
    simp only [mem_picked, View.mem_select, hv, if_true, View.mem_latestRecords_iff_isFirstLatest]
    constructor
    · rintro ⟨statuses, hstatuses, hfirst, hs⟩
      exact ⟨hs, statuses, hstatuses, hfirst⟩
    · rintro ⟨hs, statuses, hstatuses, hfirst⟩
      exact ⟨statuses, hstatuses, hfirst, hs⟩

/-- The packages that are found without a restriction are those that the picked records form. -/
theorem flatMap_packagesOf (h : History) (v : View) (id : Text) :
    (h.candidates {}).flatMap (packagesOf v id) = (h.picked v).filterMap fun x =>
      (HistoricalPackage.ofRecord id x.1 x.2.1 x.2.2.1 x.2.2.2).toOption := by
  simp only [picked, List.filterMap_flatMap, List.filterMap_map]
  rfl

end History

end PackageHistory
