import Mathlib.Data.List.Nodup
import PackageHistory.Proofs.History.Query

/-!
# Answers without repetition

Where no list of a tree has a version twice, no package is answered twice with one status.
-/

namespace PackageHistory

theorem OrderedMap.nodup_restrict {κ α : Type} [DecidableEq κ] (m : OrderedMap κ α) (o : Option κ) :
    ((m.restrict o).map Prod.fst).Nodup := by
  cases o with
  | none => exact m.nodup
  | some k => cases h : m.get? k <;> simp [restrict, h]

/-! ## Selections -/

namespace View

/-- What tells records of a package apart. -/
def mark (x : Status × Record) : Status × Text := (x.1, x.2.version)

theorem nodup_flatten {statuses : OrderedMap Status (List Record)}
    (hlists : ∀ s l, statuses.get? s = some l → l.Pairwise fun a b => a.version ≠ b.version) :
    ((flatten statuses).map mark).Nodup := by
  have hkeys := statuses.nodup
  rw [Entries.keys, List.Nodup, List.pairwise_map] at hkeys
  rw [List.Nodup, List.pairwise_map, flatten, List.pairwise_flatMap]
  constructor
  · rintro ⟨s, l⟩ hl
    rw [OrderedMap.mem_entries_iff] at hl
    rw [List.pairwise_map]
    exact (hlists s l hl).imp fun {a b} hne heq => hne (Prod.mk.inj heq).2
  · refine hkeys.imp fun {e e'} hne x hx y hy heq => ?_
    obtain ⟨r, -, rfl⟩ := List.mem_map.mp hx
    obtain ⟨r', -, rfl⟩ := List.mem_map.mp hy
    exact hne (Prod.mk.inj heq).1

theorem nodup_latest_marks (records : List (Status × Record)) :
    ((latestRecords records).map mark).Nodup := by
  apply List.Nodup.of_map Prod.snd
  rw [List.map_map]
  exact nodup_latestRecords records

theorem nodup_select_of_latest {v : View} (hv : v.latestOnly = true)
    (statuses : OrderedMap Status (List Record)) : ((v.select statuses).map mark).Nodup := by
  rw [select, if_pos hv]
  exact (List.filter_sublist.map mark).nodup (nodup_latest_marks _)

theorem nodup_select (v : View) {statuses : OrderedMap Status (List Record)}
    (hlists : ∀ s l, statuses.get? s = some l → l.Pairwise fun a b => a.version ≠ b.version) :
    ((v.select statuses).map mark).Nodup := by
  unfold select
  refine (List.filter_sublist.map mark).nodup ?_
  split
  · exact nodup_latest_marks _
  · exact nodup_flatten hlists

end View

/-! ## Packages -/

namespace HistoricalPackage

def event (x : HistoricalPackage) : Cpv × Status := (x.cpv, x.status)

/-- Events of one status are told apart by their package versions. -/
theorem nodup_cpv {xs : List HistoricalPackage} {s : Status} (hevents : (xs.map event).Nodup)
    (hstatus : ∀ x ∈ xs, x.status = s) : (xs.map cpv).Nodup := by
  have hmap : xs.map event = (xs.map cpv).map fun cpv => (cpv, s) := by
    rw [List.map_map]
    apply List.map_congr_left
    intro x hx
    rw [event, hstatus x hx]
    rfl
  rw [hmap] at hevents
  exact hevents.of_map

end HistoricalPackage

namespace History

variable {h : History} {q : Query} {v : View} {id : Text}

theorem nodup_candidates : ((h.candidates q).map fun x => (x.1, x.2.1)).Nodup := by
  have hkeys {α : Type} (m : OrderedMap Text α) (o : Option Text) :
      (m.restrict o).Pairwise fun a b => a.1 ≠ b.1 := List.pairwise_map.mp (m.nodup_restrict o)
  rw [List.Nodup, List.pairwise_map, candidates, List.pairwise_flatMap]
  constructor
  · rintro ⟨c, packages⟩ _
    rw [List.pairwise_map]
    exact (hkeys packages _).imp fun hne heq => hne (Prod.mk.inj heq).2
  · refine (hkeys h.records _).imp fun {e e'} hne x hx y hy heq => ?_
    obtain ⟨a, -, rfl⟩ := List.mem_map.mp hx
    obtain ⟨b, -, rfl⟩ := List.mem_map.mp hy
    exact hne (Prod.mk.inj heq).1

theorem nodup_packagesOf {c p : Text} {statuses : OrderedMap Status (List Record)}
    (hmarks : ((v.select statuses).map View.mark).Nodup) :
    (packagesOf v id (c, p, statuses)).Pairwise fun x y => x.event ≠ y.event := by
  rw [List.Nodup, List.pairwise_map] at hmarks
  rw [packagesOf, List.pairwise_filterMap]
  refine hmarks.imp fun {a b} hne x hx y hy heq => hne ?_
  obtain ⟨-, -, hversion, hstatus⟩ := HistoricalPackage.of_ofRecord (toOption_eq_some_iff.mp hx)
  obtain ⟨-, -, hversion', hstatus'⟩ := HistoricalPackage.of_ofRecord (toOption_eq_some_iff.mp hy)
  obtain ⟨hcpv, hevent⟩ := Prod.mk.inj heq
  rw [View.mark, View.mark, ← hversion, ← hversion', ← hstatus, ← hstatus', hcpv, hevent]

theorem nodup_query_of_marks (hmarks : ∀ c p statuses, h.records.statuses? c p = some statuses →
    ((v.select statuses).map View.mark).Nodup) :
    ((h.query v id q).map HistoricalPackage.event).Nodup := by
  rw [query, SortOrder.sort, ((List.mergeSort_perm _ _).map _).nodup_iff]
  refine (List.filter_sublist.map _).nodup ?_
  have hcandidates := List.pairwise_map.mp (nodup_candidates (h := h) (q := q))
  rw [List.Nodup, List.pairwise_map, List.pairwise_flatMap]
  constructor
  · rintro ⟨c, p, statuses⟩ hc
    exact nodup_packagesOf (hmarks c p statuses (mem_candidates.mp hc).1)
  · refine hcandidates.imp fun {a b} hne x hx y hy heq => hne ?_
    obtain ⟨c, p, statuses⟩ := a
    obtain ⟨c', p', statuses'⟩ := b
    obtain ⟨s, r, -, hforms⟩ := mem_packagesOf.mp hx
    obtain ⟨s', r', -, hforms'⟩ := mem_packagesOf.mp hy
    obtain ⟨rfl, rfl, -⟩ := HistoricalPackage.of_ofRecord hforms
    obtain ⟨rfl, rfl, -⟩ := HistoricalPackage.of_ofRecord hforms'
    rw [(Prod.mk.inj heq).1]

/-- Where no list has a version twice, no package is answered twice with one status. -/
theorem nodup_query (hlists : ∀ c p s, (h.records.list c p s).Pairwise fun a b => a.version ≠ b.version) :
    ((h.query v id q).map HistoricalPackage.event).Nodup := by
  apply nodup_query_of_marks
  intro c p statuses hstatuses
  apply View.nodup_select
  intro s l hl
  have hlist := hlists c p s
  rw [Tree.list_of_statuses? hstatuses, hl] at hlist
  exact hlist

end History

end PackageHistory
