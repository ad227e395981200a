import PackageHistory.Proofs.History.Selection
import PackageHistory.Proofs.History.Ties

/-!
# Looking up answers as scanning does

A query looks up the category and the package that it names. What it answers is the answer of the query that names
nothing, less the packages that do not fit.
-/

namespace PackageHistory

/-! ## Looking up -/

theorem flatMap_filter {α β : Type} (p : α → Bool) (f : α → List β) (xs : List α) :
    (xs.filter p).flatMap f = xs.flatMap fun a => if p a then f a else [] := by
  induction xs with
  | nil => rfl
  | cons a xs ih => by_cases ha : p a = true <;> simp [ha, ih]

theorem Entries.filter_key {κ α : Type} [DecidableEq κ] (k : κ) {entries : List (κ × α)}
    (h : (keys entries).Nodup) :
    (entries.filter fun e => e.1 = k) = ((lookup k entries).map fun a => (k, a)).toList := by
  induction entries with
  | nil => rfl
  | cons e rest ih =>
    obtain ⟨j, a⟩ := e
    obtain ⟨hnot, hrest⟩ := List.nodup_cons.mp h
    by_cases hj : j = k
    · subst hj
      have hnone : lookup j rest = none := by
        rw [← Option.not_isSome_iff_eq_none, lookup_isSome_iff]
        exact hnot
      simp [lookup, ih hrest, hnone]
    · simp [lookup, hj, ih hrest]

theorem OrderedMap.restrict_eq_filter {κ α : Type} [DecidableEq κ] (m : OrderedMap κ α)
    (o : Option κ) : m.restrict o = m.entries.filter fun e => o.all (e.1 = ·) := by
  cases o with
  | none => simp [restrict]
  | some k =>
    simp only [restrict, Option.all_some, OrderedMap.get?]
    exact (Entries.filter_key k m.nodup).symm

namespace Query

def wants (q : Query) (c p : Text) : Bool :=
  q.wantedCategory.all (c = ·) && q.wantedPackage.all (p = ·)

/-- What a query asks of a package: to match the atom, or else to be of the category and the package. -/
def accepts (q : Query) (x : Cpv) : Bool :=
  match q.atom with
  | some a => a.isMatch x
  | none => q.category.all (x.category = ·) && q.package.all (x.package = ·)

theorem accepts_eq (q : Query) (x : HistoricalPackage) :
    q.accepts x.cpv = (q.wants x.cpv.category x.cpv.package && q.admits x) := by
  unfold accepts wants wantedCategory wantedPackage admits
  cases q.atom with
  | none => simp
  | some a =>
    simp only [Option.all_some, Atom.isMatch, Atom.admits, eq_comm (b := a.category),
      eq_comm (b := a.package)]
    cases decide (a.category = x.cpv.category) <;> cases decide (a.package = x.cpv.package) <;> rfl

end Query

namespace History

variable {h : History} {q : Query} {v : View} {id : Text}

theorem candidates_eq_filter (h : History) (q : Query) :
    h.candidates q = (h.candidates {}).filter fun x => q.wants x.1 x.2.1 := by
  rw [candidates_open, candidates, OrderedMap.restrict_eq_filter, flatMap_filter, List.filter_flatMap]
  congr 1
  funext e
  obtain ⟨c, packages⟩ := e
  simp only [OrderedMap.restrict_eq_filter, List.filter_map, Function.comp_def, Query.wants]
  cases q.wantedCategory with
  | none => simp
  | some c' => by_cases hc : c = c' <;> simp [hc]

/-- What a query finds before it is sorted is what is accepted of everything. -/
theorem found_eq_filter (h : History) (v : View) (id : Text) (q : Query) :
    ((h.candidates q).flatMap (packagesOf v id)).filter q.admits =
      ((h.candidates {}).flatMap (packagesOf v id)).filter fun x => q.accepts x.cpv := by
  rw [candidates_eq_filter, flatMap_filter, List.filter_flatMap, List.filter_flatMap]
  congr 1
  funext candidate
  have haccepts : ∀ x ∈ packagesOf v id candidate,
      q.accepts x.cpv = (q.wants candidate.1 candidate.2.1 && q.admits x) := by
    intro x hx
    obtain ⟨hc, hp⟩ := Prod.mk.inj (place_of_mem_packagesOf hx)
    rw [Query.accepts_eq, hc, hp]
  rw [List.filter_congr haccepts]
  cases q.wants candidate.1 candidate.2.1 <;> simp

theorem query_eq_filter (h : History) (v : View) (id : Text) (q : Query) :
    h.query v id q = (h.query v id { sort := q.sort }).filter fun x => q.accepts x.cpv := by
  have hall : h.query v id { sort := q.sort } =
      q.sort.sort ((h.candidates {}).flatMap (packagesOf v id)) := by
    have hadmits : Query.admits { sort := q.sort } = fun _ => true := rfl
    rw [query, hadmits, List.filter_true]
    rfl
  rw [hall, SortOrder.filter_sort, query, found_eq_filter]

theorem mem_query_accepts {x : HistoricalPackage} :
    x ∈ h.query v id q ↔ x ∈ h.query v id { sort := q.sort } ∧ q.accepts x.cpv = true := by
  rw [query_eq_filter, List.mem_filter]

theorem query_perm (h : History) (v : View) (id : Text) (q : Query) :
    (h.query v id q).Perm (((h.picked v).filterMap fun x =>
      (HistoricalPackage.ofRecord id x.1 x.2.1 x.2.2.1 x.2.2.2).toOption).filter fun x =>
        q.accepts x.cpv) := by
  rw [query, found_eq_filter, flatMap_packagesOf]
  exact List.mergeSort_perm _ _

end History

/-! ## The order of answers -/

theorem Cpv.compareTexts_fullver (a b : Cpv) :
    Version.compareTexts a.fullver b.fullver = .ok (Version.compare a.parsed b.parsed) := by
  rw [Version.compareTexts, parse?_fullver, parse?_fullver]

namespace HistoricalPackage

/-- Category, package, version and ordinal decide in turn. -/
def PrecedesByVersion (a b : HistoricalPackage) : Prop :=
  Text.compare a.cpv.category b.cpv.category = .lt ∨ a.cpv.category = b.cpv.category ∧
    (Text.compare a.cpv.package b.cpv.package = .lt ∨ a.cpv.package = b.cpv.package ∧
      (Version.compareTexts a.cpv.fullver b.cpv.fullver = .ok .lt ∨
        Version.compareTexts a.cpv.fullver b.cpv.fullver = .ok .eq ∧ a.seq ≤ b.seq))

/-- The ordinal decides first. -/
def PrecedesByCommit (a b : HistoricalPackage) : Prop :=
  a.seq < b.seq ∨ (a.seq ≤ b.seq ∧ b.seq ≤ a.seq) ∧ a.PrecedesByVersion b

theorem isLE_compareByVersion (a b : HistoricalPackage) :
    (compareByVersion a b).isLE = true ↔ a.PrecedesByVersion b := by
  have heq (s t : Text) : Text.compare s t = .eq ↔ s = t := Std.LawfulEqCmp.compare_eq_iff_eq
  have hseq : (compare a.seq b.seq).isLE = true ↔ a.seq ≤ b.seq := Int.isLE_compare
  simp only [compareByVersion, Cpv.compare, PrecedesByVersion, Cpv.compareTexts_fullver,
    Except.ok.injEq, Ordering.isLE_then_iff_or, Ordering.then_eq_lt, Ordering.then_eq_eq, heq, hseq]
  tauto

theorem isLE_compareByCommit (a b : HistoricalPackage) :
    (compareByCommit a b).isLE = true ↔ a.PrecedesByCommit b := by
  have hlt : compare a.seq b.seq = .lt ↔ a.seq < b.seq := Int.compare_eq_lt
  rw [compareByCommit, Ordering.isLE_then_iff_or, isLE_compareByVersion, hlt,
    Number.compare_eq_iff, PrecedesByCommit]

end HistoricalPackage

/-- In the order that is asked for, a package does not come behind another one. -/
def SortOrder.Precedes : SortOrder → HistoricalPackage → HistoricalPackage → Prop
  | version => HistoricalPackage.PrecedesByVersion
  | commit => HistoricalPackage.PrecedesByCommit

theorem SortOrder.precedes_iff {o : SortOrder} {a b : HistoricalPackage} :
    (o.compare a b != .gt) = true ↔ o.Precedes a b := by
  rw [notBehind_iff]
  cases o with
  | version => exact HistoricalPackage.isLE_compareByVersion a b
  | commit => exact HistoricalPackage.isLE_compareByCommit a b

theorem SortOrder.pairwise_sort (o : SortOrder) (packages : List HistoricalPackage) :
    (o.sort packages).Pairwise o.Precedes :=
  (List.pairwise_mergeSort o.le_trans o.le_total packages).imp precedes_iff.mp

/-! ## Answers -/

/-- A query answers what the scan of all packages leaves of it, in order, each picked record once. -/
theorem HistoryRepo.query_scan (id : Text) (v : View) (h : History) (q : Query) :
    ∃ (shown all : List HistoricalPackage) (picked : List (Text × Text × Status × Record)),
      HistoryRepo.query ⟨id, v.name, h⟩ q = .ok shown ∧
      HistoryRepo.query ⟨id, v.name, h⟩ { sort := q.sort } = .ok all ∧
      shown = all.filter (fun x => q.accepts x.cpv) ∧
      shown.Pairwise q.sort.Precedes ∧
      (∀ x ∈ all, ∀ y ∈ all, ∃ o, Version.compareTexts x.cpv.fullver y.cpv.fullver = .ok o) ∧
      v.Picks h.records picked ∧
      shown.Perm ((picked.filterMap fun x =>
        (HistoricalPackage.ofRecord id x.1 x.2.1 x.2.2.1 x.2.2.2).toOption).filter fun x =>
          q.accepts x.cpv) := by
  refine ⟨h.query v id q, h.query v id { sort := q.sort }, h.picked v, query_view id v h q,
    query_view id v h _, h.query_eq_filter v id q, q.sort.pairwise_sort _, ?_,
    h.picks_picked v, h.query_perm v id q⟩
  exact fun x _ y _ => ⟨_, Cpv.compareTexts_fullver x.cpv y.cpv⟩

end PackageHistory
