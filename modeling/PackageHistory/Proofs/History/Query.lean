import PackageHistory.History.Repo
import PackageHistory.Proofs.Outcome
import PackageHistory.Proofs.Tree

/-!
# What a query finds

A package is found when a record of an admitted place is selected by the view and forms one. Which
records are there depends on the lists of the tree alone.
-/

namespace PackageHistory

/-! ## Order of numbers -/

namespace Number

variable {a b c : Number}

theorem not_lt : ¬ a < b ↔ b ≤ a := Int.not_lt

theorem le_refl (a : Number) : a ≤ a := Int.le_refl _

theorem le_trans (hab : a ≤ b) (hbc : b ≤ c) : a ≤ c := Int.le_trans hab hbc

theorem le_of_lt (h : a < b) : a ≤ b := Int.le_of_lt h

theorem lt_of_lt_of_le (hab : a < b) (hbc : b ≤ c) : a < c := Int.lt_of_lt_of_le hab hbc

end Number

/-! ## The latest of each version -/

namespace View

/-- A record with its status whose ordinal is not below that of any other of its version. -/
def IsLatest (records : List (Status × Record)) (x : Status × Record) : Prop :=
  x ∈ records ∧ ∀ y ∈ records, y.2.version = x.2.version → y.2.seq ≤ x.2.seq

/-- The later of what was kept so far and a further record. -/
def later (kept : Option (Status × Record)) (x : Status × Record) : Option (Status × Record) :=
  some <| match kept with
    | none => x
    | some current => if current.2.seq < x.2.seq then x else current

theorem get?_foldl_keepLatest (records : List (Status × Record))
    (m : OrderedMap Text (Status × Record)) (v : Text) :
    (records.foldl keepLatest m).get? v =
      (records.filter fun x => x.2.version = v).foldl later (m.get? v) := by
  induction records generalizing m with
  | nil => rfl
  | cons x rest ih =>
    rw [List.foldl_cons, ih, keepLatest]
    by_cases h : x.2.version = v
    · subst h
      rw [OrderedMap.get?_alter_self, List.filter_cons_of_pos (by simp), List.foldl_cons]
      rfl
    · rw [OrderedMap.get?_alter_of_ne _ (fun e => h e.symm), List.filter_cons_of_neg (by simpa using h)]

theorem foldl_later (records : List (Status × Record)) (x : Status × Record) :
    ∃ z, records.foldl later (some x) = some z ∧ (z = x ∨ z ∈ records) ∧ x.2.seq ≤ z.2.seq ∧
      ∀ y ∈ records, y.2.seq ≤ z.2.seq := by
  induction records generalizing x with
  | nil => exact ⟨x, rfl, .inl rfl, Number.le_refl _, nofun⟩
  | cons y rest ih =>
    rw [List.foldl_cons, later]
    by_cases h : x.2.seq < y.2.seq
    · obtain ⟨z, hz, hmem, hle, hrest⟩ := ih y
      refine ⟨z, by simpa [h] using hz, ?_, Number.le_trans (Number.le_of_lt h) hle, ?_⟩
      · rcases hmem with rfl | hmem
        · exact .inr List.mem_cons_self
        · exact .inr (List.mem_cons_of_mem _ hmem)
      · intro w hw
        rcases List.mem_cons.mp hw with rfl | hw
        · exact hle
        · exact hrest w hw
    · obtain ⟨z, hz, hmem, hle, hrest⟩ := ih x
      refine ⟨z, by simpa [h] using hz, ?_, hle, ?_⟩
      · rcases hmem with rfl | hmem
        · exact .inl rfl
        · exact .inr (List.mem_cons_of_mem _ hmem)
      · intro w hw
        rcases List.mem_cons.mp hw with rfl | hw
        · exact Number.le_trans (Number.not_lt.mp h) hle
        · exact hrest w hw

theorem exists_kept {records : List (Status × Record)} {y : Status × Record} (h : y ∈ records) :
    ∃ z, (records.foldl keepLatest .empty).get? y.2.version = some z := by
  rw [get?_foldl_keepLatest]
  have hmem : y ∈ records.filter fun x => x.2.version = y.2.version := by simp [h]
  cases hf : records.filter fun x => x.2.version = y.2.version with
  | nil => rw [hf] at hmem; cases hmem
  | cons x rest =>
    obtain ⟨z, hz, -⟩ := foldl_later rest x
    exact ⟨z, hz⟩

theorem isLatest_of_kept {records : List (Status × Record)} {v : Text} {z : Status × Record}
    (h : (records.foldl keepLatest .empty).get? v = some z) :
    z.2.version = v ∧ IsLatest records z := by
  rw [get?_foldl_keepLatest, OrderedMap.get?_empty] at h
  have hmem (y : Status × Record) :
      y ∈ records.filter (fun x => x.2.version = v) ↔ y ∈ records ∧ y.2.version = v := by simp
  cases hf : records.filter fun x => x.2.version = v with
  | nil => rw [hf] at h; cases h
  | cons x rest =>
    rw [hf] at h hmem
    obtain ⟨z', hz', hin, hle, hrest⟩ := foldl_later rest x
    have hkept : (x :: rest).foldl later none = some z' := hz'
    rw [hkept, Option.some.injEq] at h
    subst h
    obtain ⟨hrecords, hversion⟩ : z' ∈ records ∧ z'.2.version = v := by
      rw [← hmem]
      rcases hin with rfl | hin
      · exact List.mem_cons_self
      · exact List.mem_cons_of_mem _ hin
    refine ⟨hversion, hrecords, fun y hy hyv => ?_⟩
    rcases List.mem_cons.mp ((hmem y).mpr ⟨hy, hyv.trans hversion⟩) with rfl | hy'
    · exact hle
    · exact hrest y hy'

theorem mem_latestRecords {records : List (Status × Record)} {x : Status × Record} :
    x ∈ latestRecords records ↔
      (records.foldl keepLatest .empty).get? x.2.version = some x := by
  rw [latestRecords, List.mem_map]
  constructor
  · rintro ⟨⟨v, z⟩, hz, rfl⟩
    rw [OrderedMap.mem_entries_iff] at hz
    rw [(isLatest_of_kept hz).1]
    exact hz
  · intro h
    exact ⟨(x.2.version, x), OrderedMap.mem_entries_iff.mpr h, rfl⟩

theorem nodup_latestRecords (records : List (Status × Record)) :
    ((latestRecords records).map fun x => x.2.version).Nodup := by
  have hkeys : (latestRecords records).map (fun x => x.2.version) =
      (records.foldl keepLatest .empty).keys := by
    rw [latestRecords, List.map_map]
    apply List.map_congr_left
    rintro ⟨v, z⟩ hz
    rw [OrderedMap.mem_entries_iff] at hz
    exact (isLatest_of_kept hz).1
  rw [hkeys]
  exact (records.foldl keepLatest .empty).nodup

/-- Where no two records of a version have equal ordinals, the latest ones are those kept. -/
theorem mem_latestRecords_iff {records : List (Status × Record)}
    (hdistinct : ∀ x ∈ records, ∀ y ∈ records, x.2.version = y.2.version → x.2.seq ≤ y.2.seq →
      y.2.seq ≤ x.2.seq → x = y) {x : Status × Record} :
    x ∈ latestRecords records ↔ IsLatest records x := by
  rw [mem_latestRecords]
  constructor
  · exact fun h => (isLatest_of_kept h).2
  · intro hx
    obtain ⟨z, hz⟩ := exists_kept hx.1
    obtain ⟨hversion, hmem, hmax⟩ := isLatest_of_kept hz
    have hxz : x = z :=
      hdistinct x hx.1 z hmem hversion.symm (hmax x hx.1 hversion.symm) (hx.2 z hmem hversion)
    rw [← hxz] at hz
    exact hz

/-! ## What a view selects -/

theorem mem_flatten {statuses : OrderedMap Status (List Record)} {x : Status × Record} :
    x ∈ flatten statuses ↔ x.2 ∈ (statuses.get? x.1).getD [] := by
  simp only [flatten, List.mem_flatMap, List.mem_map, Prod.exists]
  constructor
  · rintro ⟨s, l, hl, r, hr, rfl⟩
    rw [OrderedMap.mem_entries_iff] at hl
    simpa [hl] using hr
  · intro h
    cases hl : statuses.get? x.1 with
    | none => simp [hl] at h
    | some l =>
      rw [hl] at h
      exact ⟨x.1, l, OrderedMap.mem_entries_iff.mpr hl, x.2, h, rfl⟩

theorem mem_select {v : View} {statuses : OrderedMap Status (List Record)} {x : Status × Record} :
    x ∈ v.select statuses ↔
      x ∈ (if v.latestOnly then latestRecords (flatten statuses) else flatten statuses) ∧
        x.1 ∈ v.statuses := by
  rw [select, List.mem_filter, List.contains_iff_mem]

theorem mem_flatten_of_mem_select {v : View} {statuses : OrderedMap Status (List Record)}
    {x : Status × Record} (h : x ∈ v.select statuses) : x ∈ flatten statuses := by
  obtain ⟨hkept, -⟩ := mem_select.mp h
  split at hkept
  · exact (isLatest_of_kept (mem_latestRecords.mp hkept)).2.1
  · exact hkept

end View

/-! ## Packages of records -/

namespace HistoricalPackage

theorem ofRecord_eq_ok {id c p : Text} {s : Status} {r : Record} {x : HistoricalPackage}
    (h : ofRecord id c p s r = .ok x) :
    ∃ hc hp hv, x = ⟨⟨c, p, r.version, hc, hp, hv⟩, s, r.date, r.seq, r.commit,
      r.extra.getD [], id⟩ := by
  unfold ofRecord at h
  obtain ⟨cpv, hmake, h⟩ := bind_eq_ok h
  cases h
  obtain ⟨category, package, fullver, hc, hp, hv⟩ := cpv
  obtain ⟨rfl, rfl, rfl⟩ := Cpv.make_eq_ok_iff.mp hmake
  exact ⟨hc, hp, hv, rfl⟩

theorem of_ofRecord {id c p : Text} {s : Status} {r : Record} {x : HistoricalPackage}
    (h : ofRecord id c p s r = .ok x) :
    x.cpv.category = c ∧ x.cpv.package = p ∧ x.cpv.fullver = r.version ∧ x.status = s := by
  obtain ⟨hc, hp, hv, rfl⟩ := ofRecord_eq_ok h
  exact ⟨rfl, rfl, rfl, rfl⟩

end HistoricalPackage

/-! ## What a query looks at -/

theorem OrderedMap.mem_restrict {κ α : Type} [DecidableEq κ] {m : OrderedMap κ α} {o : Option κ}
    {k : κ} {a : α} :
    (k, a) ∈ m.restrict o ↔ m.get? k = some a ∧ ∀ j, o = some j → k = j := by
  cases o with
  | none => simp [restrict, OrderedMap.mem_entries_iff]
  | some j =>
    simp only [restrict, Option.mem_toList, Option.map_eq_some_iff, Option.some.injEq,
      Prod.mk.injEq]
    constructor
    · rintro ⟨b, hb, rfl, rfl⟩
      exact ⟨hb, fun _ h => h⟩
    · rintro ⟨ha, hj⟩
      obtain rfl := hj j rfl
      exact ⟨a, ha, rfl, rfl⟩

namespace History

variable {h : History} {q : Query} {v : View} {id : Text}

/-- The place that a query asks for, as far as it does. -/
def IsWanted (q : Query) (c p : Text) : Prop :=
  (∀ c', q.wantedCategory = some c' → c = c') ∧ ∀ p', q.wantedPackage = some p' → p = p'

theorem mem_candidates {c p : Text} {statuses : OrderedMap Status (List Record)} :
    (c, p, statuses) ∈ h.candidates q ↔
      h.records.statuses? c p = some statuses ∧ IsWanted q c p := by
  simp only [candidates, List.mem_flatMap, List.mem_map, Prod.exists, Prod.mk.injEq]
  constructor
  · rintro ⟨c', packages, hc, p', statuses', hp, rfl, rfl, rfl⟩
    rw [OrderedMap.mem_restrict] at hc hp
    exact ⟨by simp [Tree.statuses?, hc.1, hp.1], hc.2, hp.2⟩
  · rintro ⟨hstatuses, hc, hp⟩
    rw [Tree.statuses?, Option.bind_eq_some_iff] at hstatuses
    obtain ⟨packages, hpackages, hstatuses⟩ := hstatuses
    exact ⟨c, packages, OrderedMap.mem_restrict.mpr ⟨hpackages, hc⟩, p, statuses,
      OrderedMap.mem_restrict.mpr ⟨hstatuses, hp⟩, rfl, rfl, rfl⟩

def Forms (id c p : Text) (s : Status) (r : Record) (x : HistoricalPackage) : Prop :=
  HistoricalPackage.ofRecord id c p s r = .ok x

theorem mem_packagesOf {c p : Text} {statuses : OrderedMap Status (List Record)}
    {x : HistoricalPackage} :
    x ∈ packagesOf v id (c, p, statuses) ↔
      ∃ s r, (s, r) ∈ v.select statuses ∧ Forms id c p s r x := by
  simp only [packagesOf, List.mem_filterMap, Prod.exists, toOption_eq_some_iff, Forms]

theorem mem_query {x : HistoricalPackage} :
    x ∈ h.query v id q ↔
      q.admits x = true ∧ ∃ c p statuses s r, h.records.statuses? c p = some statuses ∧
        IsWanted q c p ∧ (s, r) ∈ v.select statuses ∧ Forms id c p s r x := by
  rw [query, SortOrder.sort, List.mem_mergeSort, List.mem_filter, List.mem_flatMap, and_comm]
  apply and_congr_right
  intro _
  constructor
  · rintro ⟨⟨c, p, statuses⟩, hcandidate, hx⟩
    obtain ⟨s, r, hr, hforms⟩ := mem_packagesOf.mp hx
    rw [mem_candidates] at hcandidate
    exact ⟨c, p, statuses, s, r, hcandidate.1, hcandidate.2, hr, hforms⟩
  · rintro ⟨c, p, statuses, s, r, hstatuses, hwanted, hr, hforms⟩
    exact ⟨(c, p, statuses), mem_candidates.mpr ⟨hstatuses, hwanted⟩,
      mem_packagesOf.mpr ⟨s, r, hr, hforms⟩⟩

/-! ## What a view shows of a tree -/

/-- What a view shows at a place, by the lists alone. -/
def Shows (t : Tree Record) (v : View) (c p : Text) (s : Status) (r : Record) : Prop :=
  s ∈ v.statuses ∧ r ∈ t.list c p s ∧
    (v.latestOnly = true → ∀ s' r', r' ∈ t.list c p s' → r'.version = r.version → r'.seq ≤ r.seq)

/-- No two changes of one version have equal ordinals. -/
def IsDistinct (t : Tree Record) : Prop :=
  ∀ c p s s' r r', r ∈ t.list c p s → r' ∈ t.list c p s' → r.version = r'.version →
    r.seq ≤ r'.seq → r'.seq ≤ r.seq → s = s' ∧ r = r'

theorem mem_flatten_iff {t : Tree Record} {c p : Text} {statuses : OrderedMap Status (List Record)}
    (hstatuses : t.statuses? c p = some statuses) {s : Status} {r : Record} :
    (s, r) ∈ View.flatten statuses ↔ r ∈ t.list c p s := by
  rw [View.mem_flatten, Tree.list_of_statuses? hstatuses]

theorem mem_select_iff_shows {t : Tree Record} {c p : Text}
    {statuses : OrderedMap Status (List Record)} (hstatuses : t.statuses? c p = some statuses)
    (hdistinct : v.latestOnly = true → IsDistinct t) {s : Status} {r : Record} :
    (s, r) ∈ v.select statuses ↔ Shows t v c p s r := by
  rw [View.mem_select, Shows, and_comm]
  apply and_congr_right
  intro _
  cases hv : v.latestOnly with
  | false => simp [mem_flatten_iff hstatuses]
  | true =>
    have hd := hdistinct hv
    have hlatest : (s, r) ∈ View.latestRecords (View.flatten statuses) ↔
        View.IsLatest (View.flatten statuses) (s, r) := by
      apply View.mem_latestRecords_iff
      rintro ⟨s₁, r₁⟩ h₁ ⟨s₂, r₂⟩ h₂ hversion hle hge
      rw [mem_flatten_iff hstatuses] at h₁ h₂
      obtain ⟨rfl, rfl⟩ := hd c p s₁ s₂ r₁ r₂ h₁ h₂ hversion hle hge
      rfl
    rw [if_pos rfl, hlatest, View.IsLatest, mem_flatten_iff hstatuses]
    simp only [Prod.forall, mem_flatten_iff hstatuses, forall_const]

theorem mem_query_iff_shows (hdistinct : v.latestOnly = true → IsDistinct h.records)
    {x : HistoricalPackage} :
    x ∈ h.query v id q ↔
      q.admits x = true ∧ ∃ c p s r, IsWanted q c p ∧ Shows h.records v c p s r ∧
        Forms id c p s r x := by
  rw [mem_query]
  apply and_congr_right
  intro _
  constructor
  · rintro ⟨c, p, statuses, s, r, hstatuses, hwanted, hselect, hforms⟩
    exact ⟨c, p, s, r, hwanted, (mem_select_iff_shows hstatuses hdistinct).mp hselect, hforms⟩
  · rintro ⟨c, p, s, r, hwanted, hshows, hforms⟩
    have hmem := hshows.2.1
    cases hstatuses : h.records.statuses? c p with
    | none => simp [Tree.list, hstatuses] at hmem
    | some statuses =>
      exact ⟨c, p, statuses, s, r, hstatuses, hwanted,
        (mem_select_iff_shows hstatuses hdistinct).mpr hshows, hforms⟩

end History

theorem HistoryRepo.query_view (id : Text) (v : View) (h : History) (q : Query) :
    HistoryRepo.query ⟨id, v.name, h⟩ q = .ok (h.query v id q) := by
  cases v <;> rfl

end PackageHistory
