import Mathlib.Data.List.Pairwise
import PackageHistory.Proofs.History.Distinct
import PackageHistory.Proofs.History.Sorting

/-!
# Ties between records

Answers are sorted, so the order in which the parts of a tree came shows only between records that
are tied: records of one package whose ordinals are equal and whose versions compare equal. Histories
with the same lists answer alike but for these.
-/

namespace PackageHistory

open Std

/-! ## Tied records and packages -/

/-- The versions are spelled alike or compare equal. -/
def Version.IsSame (v v' : Text) : Prop :=
  v = v' ∨ ∃ a b, parse? v = some a ∧ parse? v' = some b ∧ compare a b = .eq

def Record.Tied (r r' : Record) : Prop :=
  compare r.seq r'.seq = .eq ∧ Version.IsSame r.version r'.version

theorem Number.compare_eq_iff {a b : Number} : compare a b = .eq ↔ a ≤ b ∧ b ≤ a := by
  show compare a.units b.units = .eq ↔ a.units ≤ b.units ∧ b.units ≤ a.units
  rw [Int.compare_eq_eq]
  omega

theorem Version.IsSame.symm {v v' : Text} (h : IsSame v v') : IsSame v' v := by
  rcases h with h | ⟨a, b, ha, hb, hab⟩
  · exact .inl h.symm
  · refine .inr ⟨b, a, hb, ha, ?_⟩
    rw [compare_eq (components_of_parse? ha) (components_of_parse? hb)] at hab
    rw [compare_eq (components_of_parse? hb) (components_of_parse? ha)]
    exact OrientedCmp.eq_symm hab

theorem Record.Tied.symm {r r' : Record} (h : r.Tied r') : r'.Tied r :=
  ⟨OrientedCmp.eq_symm h.1, h.2.symm⟩

instance : Std.Symm fun r r' : Record => ¬ r.Tied r' :=
  ⟨fun _ _ h h' => h h'.symm⟩

instance : Std.Symm fun x y : Status × Record => ¬ x.2.Tied y.2 :=
  ⟨fun _ _ h h' => h h'.symm⟩

theorem Version.isSame_iff {v v' : Text} : IsSame v v' ↔
    v = v' ∨ ∃ a ∈ parse? v, ∃ b ∈ parse? v', compare a b = .eq := by
  simp only [IsSame, Option.mem_def, exists_and_left]

instance (v v' : Text) : Decidable (Version.IsSame v v') :=
  decidable_of_iff _ Version.isSame_iff.symm

instance (r r' : Record) : Decidable (r.Tied r') :=
  inferInstanceAs (Decidable (_ ∧ _))

/-- No two records of a package are tied. -/
structure Tree.HasNoTies (t : Tree Record) : Prop where
  within : ∀ c p s, (t.list c p s).Pairwise fun r r' => ¬ r.Tied r'
  across : ∀ c p s s', s ≠ s' → ∀ r ∈ t.list c p s, ∀ r' ∈ t.list c p s', ¬ r.Tied r'

namespace SortOrder

variable {o : SortOrder} {x y : HistoricalPackage}

/-- Neither package comes before the other. -/
def ties (o : SortOrder) : HistoricalPackage → HistoricalPackage → Bool :=
  tied fun a b => o.compare a b != .gt

theorem ties_iff : o.ties x y = true ↔ o.compare x y = .eq := by
  have hswap : o.compare y x = (o.compare x y).swap := OrientedCmp.eq_swap
  rw [ties, tied, hswap]
  cases o.compare x y <;> decide

/-- Packages are tied only at one place. -/
theorem of_compare (h : o.compare x y = .eq) :
    x.cpv.category = y.cpv.category ∧ x.cpv.package = y.cpv.package ∧
      Version.compare x.cpv.parsed y.cpv.parsed = .eq ∧ Ord.compare x.seq y.seq = .eq := by
  cases o with
  | version =>
    obtain ⟨hcpv, hseq⟩ := Ordering.then_eq_eq.mp h
    obtain ⟨hc, hp, hv⟩ := Cpv.eq_of_compare hcpv
    exact ⟨hc, hp, hv, hseq⟩
  | commit =>
    obtain ⟨hseq, hrest⟩ := Ordering.then_eq_eq.mp h
    obtain ⟨hc, hp, hv⟩ := Cpv.eq_of_compare (Ordering.then_eq_eq.mp hrest).1
    exact ⟨hc, hp, hv, hseq⟩

end SortOrder

theorem Cpv.parse?_fullver (cpv : Cpv) : Version.parse? cpv.fullver = some cpv.parsed :=
  (Option.some_get cpv.fullver_valid).symm

theorem HistoricalPackage.tied_of_compare {o : SortOrder} {id c p : Text} {s s' : Status}
    {r r' : Record} {x y : HistoricalPackage} (hx : ofRecord id c p s r = .ok x)
    (hy : ofRecord id c p s' r' = .ok y) (h : o.compare x y = .eq) : r.Tied r' := by
  obtain ⟨-, -, hversion, hseq⟩ := SortOrder.of_compare h
  obtain ⟨hc, hp, hv, rfl⟩ := ofRecord_eq_ok hx
  obtain ⟨hc', hp', hv', rfl⟩ := ofRecord_eq_ok hy
  exact ⟨hseq, .inr ⟨_, _, Cpv.parse?_fullver ⟨c, p, r.version, hc, hp, hv⟩,
    Cpv.parse?_fullver ⟨c, p, r'.version, hc', hp', hv'⟩, hversion⟩⟩

/-! ## Trees without ties -/

section NoTies

variable {t : Tree Record} (h : t.HasNoTies)
include h

theorem Tree.HasNoTies.isDistinct : History.IsDistinct t := by
  intro c p s s' r r' hr hr' hversion hle hge
  have htied : r.Tied r' := ⟨Number.compare_eq_iff.mpr ⟨hle, hge⟩, .inl hversion⟩
  by_cases hs : s = s'
  · subst hs
    refine ⟨rfl, ?_⟩
    by_contra hne
    exact (h.within c p s).forall hr hr' hne htied
  · exact absurd htied (h.across c p s s' hs r hr r' hr')

variable {c p : Text} {statuses : OrderedMap Status (List Record)}
  (hstatuses : t.statuses? c p = some statuses)
include hstatuses

theorem View.pairwise_flatten :
    (flatten statuses).Pairwise fun x y => ¬ x.2.Tied y.2 := by
  have hlist (e : Status × List Record) (he : e ∈ statuses.entries) : t.list c p e.1 = e.2 := by
    rw [Tree.list_of_statuses? hstatuses, OrderedMap.mem_entries_iff.mp he]
    rfl
  have hkeys := statuses.nodup
  rw [Entries.keys, List.Nodup, List.pairwise_map] at hkeys
  rw [flatten, List.pairwise_flatMap]
  constructor
  · intro e he
    rw [List.pairwise_map, ← hlist e he]
    exact h.within c p e.1
  · refine hkeys.imp_of_mem fun {e e'} he he' hne x hx y hy => ?_
    obtain ⟨r, hr, rfl⟩ := List.mem_map.mp hx
    obtain ⟨r', hr', rfl⟩ := List.mem_map.mp hy
    rw [← hlist e he] at hr
    rw [← hlist e' he'] at hr'
    exact h.across c p e.1 e'.1 hne r hr r' hr'

theorem View.pairwise_select (v : View) :
    (v.select statuses).Pairwise fun x y => ¬ x.2.Tied y.2 := by
  unfold select
  apply List.Pairwise.filter
  split
  · -- The latest records are some of all, and one of each version.
    have hversions := nodup_latestRecords (flatten statuses)
    rw [List.Nodup, List.pairwise_map] at hversions
    refine hversions.imp_of_mem fun {x y} hx hy hne htied => ?_
    have hmem {z : Status × Record} (hz : z ∈ latestRecords (flatten statuses)) :
        z ∈ flatten statuses := (isLatest_of_kept (mem_latestRecords.mp hz)).2.1
    have hxy : x ≠ y := fun e => hne (by rw [e])
    exact (View.pairwise_flatten h hstatuses).forall (hmem hx) (hmem hy) hxy htied
  · exact View.pairwise_flatten h hstatuses

end NoTies

/-- The ties of a tree show in the records of each package, put one after another. -/
theorem Tree.hasNoTies_iff {t : Tree Record} : t.HasNoTies ↔
    ∀ x ∈ t.entries, ∀ y ∈ x.2.entries,
      (View.flatten y.2).Pairwise fun a b => ¬ a.2.Tied b.2 := by
  constructor
  · intro h x hx y hy
    have hstatuses : t.statuses? x.1 y.1 = some y.2 := by
      rw [statuses?, OrderedMap.mem_entries_iff.mp hx]
      exact OrderedMap.mem_entries_iff.mp hy
    exact View.pairwise_flatten h hstatuses
  · intro h
    have hpair {c p statuses} (hstatuses : t.statuses? c p = some statuses) :
        (View.flatten statuses).Pairwise fun a b => ¬ a.2.Tied b.2 := by
      obtain ⟨packages, hc, hp⟩ := Option.bind_eq_some_iff.mp hstatuses
      exact h _ (OrderedMap.mem_entries_iff.mpr hc) _ (OrderedMap.mem_entries_iff.mpr hp)
    refine ⟨fun c p s => ?_, fun c p s s' hne r hr r' hr' => ?_⟩
    · cases hstatuses : t.statuses? c p with
      | none => simp [list, hstatuses]
      | some statuses =>
        rw [list_of_statuses? hstatuses]
        cases hs : statuses.get? s with
        | none => exact .nil
        | some records =>
          have hmap := (List.pairwise_flatMap.mp (hpair hstatuses)).1 _ (OrderedMap.mem_entries_iff.mpr hs)
          rwa [List.pairwise_map] at hmap
    · cases hstatuses : t.statuses? c p with
      | none => simp [list, hstatuses] at hr
      | some statuses =>
        have hflat : (s, r) ∈ View.flatten statuses := (History.mem_flatten_iff hstatuses).mpr hr
        have hflat' : (s', r') ∈ View.flatten statuses := (History.mem_flatten_iff hstatuses).mpr hr'
        exact (hpair hstatuses).forall hflat hflat' fun e => hne (congrArg Prod.fst e)

instance (t : Tree Record) : Decidable t.HasNoTies :=
  decidable_of_iff _ Tree.hasNoTies_iff.symm

/-! ## Answers place by place -/

namespace History

variable {h h' : History} {q : Query} {v : View} {id : Text}

/-- The packages that a view shows at a place. -/
def shownAt (h : History) (v : View) (id c p : Text) : List HistoricalPackage :=
  ((h.records.statuses? c p).map fun statuses => packagesOf v id (c, p, statuses)).getD []

theorem place_of_mem_packagesOf {candidate : Text × Text × OrderedMap Status (List Record)}
    {x : HistoricalPackage} (hx : x ∈ packagesOf v id candidate) :
    (x.cpv.category, x.cpv.package) = (candidate.1, candidate.2.1) := by
  obtain ⟨s, r, -, hforms⟩ := mem_packagesOf.mp hx
  obtain ⟨hc, hp, -⟩ := HistoricalPackage.of_ofRecord hforms
  rw [hc, hp]

/-- The packages that are looked at for a query, by their places. -/
def places (h : History) (q : Query) : List ((Text × Text) × OrderedMap Status (List Record)) :=
  (h.candidates q).map fun x => ((x.1, x.2.1), x.2.2)

theorem nodup_places : (Entries.keys (h.places q)).Nodup := by
  rw [Entries.keys, places, List.map_map]
  exact nodup_candidates

theorem lookup_places {c p : Text} {statuses : OrderedMap Status (List Record)} :
    Entries.lookup (c, p) (h.places q) = some statuses ↔
      h.records.statuses? c p = some statuses ∧ IsWanted q c p := by
  rw [Entries.lookup_eq_some_iff nodup_places, ← mem_candidates, places, List.mem_map]
  constructor
  · rintro ⟨⟨c', p', statuses'⟩, hmem, heq⟩
    cases heq
    exact hmem
  · exact fun hmem => ⟨_, hmem, rfl⟩

section OnePlace

variable {c p : Text} {P : HistoricalPackage → Bool}
  (hP : ∀ x, P x = true → (x.cpv.category, x.cpv.package) = (c, p))
include hP

theorem filter_candidates : ((h.candidates q).flatMap (packagesOf v id)).filter P =
    ((Entries.lookup (c, p) (h.places q)).map fun statuses =>
      (packagesOf v id (c, p, statuses)).filter P).getD [] := by
  rw [← Entries.flatMap_lookup (c, p) _ nodup_places, places, List.flatMap_map,
    List.filter_flatMap]
  congr 1
  funext candidate
  split
  · next hplace =>
    obtain ⟨rfl, rfl⟩ := Prod.mk.inj hplace
    rfl
  · next hne =>
    rw [List.filter_eq_nil_iff]
    exact fun x hx hx' => hne ((place_of_mem_packagesOf hx).symm.trans (hP x hx'))

/-- What a query that wants a place finds there, before it is sorted. -/
theorem filter_candidates_of_wanted (hwanted : IsWanted q c p) :
    ((h.candidates q).flatMap (packagesOf v id)).filter P = (h.shownAt v id c p).filter P := by
  have hlookup : Entries.lookup (c, p) (h.places q) = h.records.statuses? c p := by
    apply Option.ext
    intro statuses
    rw [lookup_places, and_iff_left hwanted]
  rw [filter_candidates hP, hlookup, shownAt]
  cases h.records.statuses? c p <;> rfl

theorem filter_candidates_of_not_wanted (hwanted : ¬ IsWanted q c p) :
    ((h.candidates q).flatMap (packagesOf v id)).filter P = [] := by
  have hlookup : Entries.lookup (c, p) (h.places q) = none := by
    rw [Option.eq_none_iff_forall_ne_some]
    intro statuses hsome
    exact hwanted (lookup_places.mp hsome).2
  rw [filter_candidates hP, hlookup]
  rfl

end OnePlace

/-- Answers are equal when, at each place, the packages of each tie are. -/
theorem filter_query_congr {P : HistoricalPackage → Bool}
    (hplaces : ∀ c p x, ((h.shownAt v id c p).filter P).filter (q.sort.ties x) =
      ((h'.shownAt v id c p).filter P).filter (q.sort.ties x)) :
    (h.query v id q).filter P = (h'.query v id q).filter P := by
  rw [query, query, SortOrder.filter_sort, SortOrder.filter_sort]
  refine mergeSort_congr q.sort.le_trans q.sort.le_total fun x => ?_
  -- The packages that are tied with `x` are those of its place.
  have hP (y : HistoricalPackage) (hy : (q.sort.ties x y && P y) = true) :
      (y.cpv.category, y.cpv.package) = (x.cpv.category, x.cpv.package) := by
    rw [Bool.and_eq_true, SortOrder.ties_iff] at hy
    obtain ⟨hc, hp, -⟩ := SortOrder.of_compare hy.1
    rw [hc, hp]
  have hswap (xs : List HistoricalPackage) :
      ((xs.filter q.admits).filter P).filter (q.sort.ties x) =
        (xs.filter fun y => q.sort.ties x y && P y).filter q.admits := by
    simp only [List.filter_filter]
    refine List.filter_congr fun y _ => ?_
    cases P y <;> simp [Bool.and_comm]
  have hplace := hplaces x.cpv.category x.cpv.package x
  rw [List.filter_filter, List.filter_filter] at hplace
  refine (hswap _).trans (Eq.trans ?_ (hswap _).symm)
  congr 1
  by_cases hwanted : IsWanted q x.cpv.category x.cpv.package
  · rw [filter_candidates_of_wanted hP hwanted, filter_candidates_of_wanted hP hwanted]
    exact hplace
  · rw [filter_candidates_of_not_wanted hP hwanted, filter_candidates_of_not_wanted hP hwanted]

/-! ## Histories with the same lists -/

theorem filter_select (hv : v.latestOnly = false) (statuses : OrderedMap Status (List Record))
    (s : Status) : (v.select statuses).filter (fun x => x.1 = s) =
      if v.statuses.contains s then ((statuses.get? s).getD []).map fun r => (s, r) else [] := by
  have hflatten : (View.flatten statuses).filter (fun x => x.1 = s) =
      ((statuses.get? s).getD []).map fun r => (s, r) := by
    have hfind := Entries.flatMap_lookup s (fun l : List Record => l.map fun r => (s, r)) statuses.nodup
    have hget : ((Entries.lookup s statuses.entries).map fun l : List Record =>
        l.map fun r => (s, r)).getD [] = ((statuses.get? s).getD []).map fun r => (s, r) := by
      rw [OrderedMap.get?]
      cases Entries.lookup s statuses.entries <;> rfl
    rw [← hget, ← hfind, View.flatten, List.filter_flatMap]
    congr 1
    funext e
    by_cases he : e.1 = s
    · simp [he]
    · simp [he]
  have hswap : (v.select statuses).filter (fun x => x.1 = s) =
      ((View.flatten statuses).filter fun x => x.1 = s).filter fun x => v.statuses.contains x.1 := by
    rw [View.select, hv]
    simp only [Bool.false_eq_true, if_false, List.filter_filter, Bool.and_comm]
  rw [hswap, hflatten, List.filter_map]
  split
  · next hs =>
    congr 1
    exact List.filter_eq_self.mpr fun _ _ => hs
  · next hs =>
    rw [List.map_eq_nil_iff, List.filter_eq_nil_iff]
    exact fun _ _ => hs

theorem filter_shownAt (hv : v.latestOnly = false) (c p : Text) (s : Status) :
    (h.shownAt v id c p).filter (fun x => x.status = s) =
      if v.statuses.contains s then (h.records.list c p s).filterMap fun r =>
        (HistoricalPackage.ofRecord id c p s r).toOption
      else [] := by
  rw [shownAt]
  cases hstatuses : h.records.statuses? c p with
  | none => simp [Tree.list, hstatuses]
  | some statuses =>
    have hfilter : (packagesOf v id (c, p, statuses)).filter (fun x => x.status = s) = _ :=
      filter_packagesOf c p statuses fun x => x = s
    rw [filter_select hv statuses s] at hfilter
    rw [Option.map_some, Option.getD_some, hfilter, Tree.list_of_statuses? hstatuses]
    split
    · rw [List.filterMap_map]
      rfl
    · rfl

theorem pairwise_shownAt (hties : h.records.HasNoTies) (o : SortOrder) (c p : Text) :
    (h.shownAt v id c p).Pairwise fun x y => ¬ o.ties x y = true := by
  rw [shownAt]
  cases hstatuses : h.records.statuses? c p with
  | none => exact .nil
  | some statuses =>
    rw [Option.map_some, Option.getD_some, packagesOf, List.pairwise_filterMap]
    refine (View.pairwise_select hties hstatuses v).imp fun hne x hx y hy htie => hne ?_
    rw [toOption_eq_some_iff] at hx hy
    exact HistoricalPackage.tied_of_compare hx hy (SortOrder.ties_iff.mp htie)

theorem mem_shownAt (hdistinct : IsDistinct h.records) {c p : Text} {x : HistoricalPackage} :
    x ∈ h.shownAt v id c p ↔ ∃ s r, Shows h.records v c p s r ∧ Forms id c p s r x := by
  rw [shownAt]
  cases hstatuses : h.records.statuses? c p with
  | none => simp [Shows, Tree.list, hstatuses]
  | some statuses =>
    rw [Option.map_some, Option.getD_some, mem_packagesOf]
    simp only [mem_select_iff_shows hstatuses fun _ => hdistinct]

section SameLists

variable (hlists : ∀ c p s, h.records.list c p s = h'.records.list c p s)
include hlists

/-- A view of all records shows, of each status, the same packages in the same order. -/
theorem filter_query_of_lists (hv : v.latestOnly = false) (s : Status) :
    (h.query v id q).filter (fun x => x.status = s) =
      (h'.query v id q).filter (fun x => x.status = s) := by
  apply filter_query_congr
  intro c p x
  rw [filter_shownAt hv, filter_shownAt hv, hlists]

theorem query_of_lists (hties : h.records.HasNoTies) : h.query v id q = h'.query v id q := by
  have hties' : h'.records.HasNoTies := by
    refine ⟨fun c p s => ?_, fun c p s s' => ?_⟩
    · rw [← hlists]
      exact hties.within c p s
    · rw [← hlists, ← hlists]
      exact hties.across c p s s'
  have hmem (c p : Text) (x : HistoricalPackage) :
      x ∈ h.shownAt v id c p ↔ x ∈ h'.shownAt v id c p := by
    rw [mem_shownAt hties.isDistinct, mem_shownAt hties'.isDistinct]
    simp only [Shows, hlists]
  have hall : (h.query v id q).filter (fun _ => true) =
      (h'.query v id q).filter fun _ => true := by
    apply filter_query_congr
    intro c p x
    rw [List.filter_true, List.filter_true]
    exact filter_tied_congr q.sort.le_trans (pairwise_shownAt hties q.sort c p)
      (pairwise_shownAt hties' q.sort c p) (hmem c p) x
  rwa [List.filter_true, List.filter_true] at hall

end SameLists

end History

end PackageHistory
