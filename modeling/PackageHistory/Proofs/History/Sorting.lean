import PackageHistory.Proofs.History.Query
import PackageHistory.Proofs.StableSort
import PackageHistory.Proofs.Version.Order

/-!
# Sorted answers

Both orders of packages are total and transitive, so what is left out before sorting may as well be
left out after it.
-/

namespace PackageHistory

open Std

/-! ## The orders of packages -/

instance : TransCmp (compare : Number → Number → Ordering) :=
  transCmp_on (compare : Int → Int → Ordering) Number.units

namespace HistoricalPackage

instance : TransCmp compareByVersion :=
  have : TransCmp fun a b : HistoricalPackage => a.cpv.compare b.cpv :=
    transCmp_on Cpv.compare cpv
  inferInstanceAs <| TransCmp <| compareLex (fun a b : HistoricalPackage => a.cpv.compare b.cpv)
    (compareOn seq)

instance : TransCmp compareByCommit :=
  inferInstanceAs <| TransCmp <| compareLex (compareOn seq) compareByVersion

end HistoricalPackage

namespace SortOrder

instance (o : SortOrder) : TransCmp o.compare := by
  cases o <;> unfold compare <;> infer_instance

variable (o : SortOrder)

theorem le_trans (a b c : HistoricalPackage) (hab : (o.compare a b != .gt) = true)
    (hbc : (o.compare b c != .gt) = true) : (o.compare a c != .gt) = true :=
  notBehind_trans o.compare a b c hab hbc

theorem le_total (a b : HistoricalPackage) :
    ((o.compare a b != .gt) || (o.compare b a != .gt)) = true := notBehind_total o.compare a b

theorem filter_sort (p : HistoricalPackage → Bool) (packages : List HistoricalPackage) :
    (o.sort packages).filter p = o.sort (packages.filter p) :=
  filter_mergeSort o.le_trans o.le_total p packages

end SortOrder

/-! ## Views within views -/

namespace History

variable {h : History} {q : Query} {v : View} {id : Text}

theorem query_of_ordered {packages : List HistoricalPackage}
    (hpackages : ((h.candidates q).flatMap (packagesOf v id)).filter q.admits = packages)
    (hordered : packages.Pairwise fun a b => (q.sort.compare a b != .gt) = true) :
    h.query v id q = packages := by
  rw [query, hpackages]
  exact List.mergeSort_of_pairwise hordered

/-- The packages of some statuses are those of the records of these statuses. -/
theorem filter_packagesOf (c p : Text) (statuses : OrderedMap Status (List Record))
    (P : Status → Bool) : (packagesOf v id (c, p, statuses)).filter (fun x => P x.status) =
      ((v.select statuses).filter fun x => P x.1).filterMap fun x =>
        (HistoricalPackage.ofRecord id c p x.1 x.2).toOption := by
  simp only [packagesOf]
  rw [List.filter_filterMap, List.filterMap_filter]
  congr 1
  funext x
  cases hx : HistoricalPackage.ofRecord id c p x.1 x.2 with
  | error e => simp [Except.toOption]
  | ok y =>
    have hstatus := (HistoricalPackage.of_ofRecord hx).2.2.2
    simp [Except.toOption, Option.filter, hstatus]

/-- A view of all records shows, of what the widest one does, the packages of its statuses. -/
theorem query_of_statuses (hv : v.latestOnly = false) :
    h.query v id q = (h.query .changed id q).filter fun x => v.statuses.contains x.status := by
  have hpackages (candidate : Text × Text × OrderedMap Status (List Record)) :
      packagesOf v id candidate =
        (packagesOf .changed id candidate).filter fun x => v.statuses.contains x.status := by
    obtain ⟨c, p, statuses⟩ := candidate
    have hall : View.changed.select statuses = View.flatten statuses := by
      refine List.filter_eq_self.mpr ?_
      rintro ⟨s, r⟩ _
      cases s <;> rfl
    have hselect : v.select statuses =
        (View.changed.select statuses).filter fun x => v.statuses.contains x.1 := by
      rw [hall, View.select, hv]
      rfl
    rw [filter_packagesOf c p statuses fun s => v.statuses.contains s, ← hselect]
    rfl
  have hswap (xs : List HistoricalPackage) :
      (xs.filter q.admits).filter (fun x => v.statuses.contains x.status) =
        (xs.filter fun x => v.statuses.contains x.status).filter q.admits := by
    simp only [List.filter_filter, Bool.and_comm]
  rw [query, query, SortOrder.filter_sort, hswap]
  simp only [hpackages, List.filter_flatMap]

end History

end PackageHistory
