import PackageHistory.Proofs.Cache.Codec
import PackageHistory.Proofs.FullTree
import PackageHistory.Proofs.Json.Tidy

/-!
# The tree of stored lists

A tree that was read lists again what it was read from, but for empty lists and the lost name. So it
is stored as it is.
-/

namespace PackageHistory

/-! ## Maps that are put together -/

namespace OrderedMap

variable {κ α β : Type} [DecidableEq κ]

theorem alter_alter (m : OrderedMap κ α) (k : κ) (f g : Option α → α) :
    (m.alter k f).alter k g = m.alter k fun o => g (some (f o)) := by
  apply eq_of_entries_eq
  show Entries.alter k g (Entries.alter k f m.entries) = Entries.alter k _ m.entries
  induction m.entries with
  | nil => simp [Entries.alter]
  | cons e rest ih =>
    obtain ⟨j, a⟩ := e
    by_cases h : j = k <;> simp [Entries.alter, h, ih]

theorem foldl_alter (k : κ) (init : α) (g : β → α → α) {xs : List β} (hne : xs ≠ [])
    (m : OrderedMap κ α) :
    xs.foldl (fun m x => m.alter k fun o => g x (o.getD init)) m =
      m.alter k fun o => xs.foldl (fun a x => g x a) (o.getD init) := by
  induction xs generalizing m with
  | nil => exact absurd rfl hne
  | cons x xs ih =>
    cases xs with
    | nil => rfl
    | cons y ys =>
      rw [List.foldl_cons, ih (List.cons_ne_nil y ys), alter_alter]
      rfl

/-- Values that are put under different keys stand in the order in which they are put. -/
theorem entries_foldl_alter (init : α) (g : β → α → α) {xs : List (κ × β)}
    (h : (Entries.keys xs).Nodup) :
    (xs.foldl (fun (m : OrderedMap κ α) x => m.alter x.1 fun o => g x.2 (o.getD init)) empty).entries =
      xs.map fun x => (x.1, g x.2 init) := by
  have hfold (xs : List (κ × β)) : ∀ m : OrderedMap κ α, (m.keys ++ Entries.keys xs).Nodup →
      (xs.foldl (fun (m : OrderedMap κ α) x => m.alter x.1 fun o => g x.2 (o.getD init)) m).entries =
        m.entries ++ xs.map fun x => (x.1, g x.2 init) := by
    induction xs with
    | nil => simp
    | cons x xs ih =>
      intro m hnodup
      have hnew : x.1 ∉ m.keys := fun hm =>
        (List.nodup_append.mp hnodup).2.2 x.1 hm x.1 List.mem_cons_self rfl
      have hkeys : (m.alter x.1 fun o => g x.2 (o.getD init)).keys = m.keys ++ [x.1] := by
        rw [keys_alter, if_neg hnew]
      have hentries : (m.alter x.1 fun o => g x.2 (o.getD init)).entries =
          m.entries ++ [(x.1, g x.2 init)] := Entries.alter_of_not_mem _ hnew
      rw [List.foldl_cons, ih _ (by rw [hkeys, List.append_assoc]; exact hnodup), hentries,
        List.map_cons, List.append_assoc, List.singleton_append]
  exact hfold xs empty h

end OrderedMap

namespace Cache

/-! ## Trees that are put together -/

/-- The lists of a package put behind those that are there. -/
def addLists (lists : List (Status × List Record)) (m : OrderedMap Status (List Record)) :
    OrderedMap Status (List Record) :=
  (lists.filter fun x => !x.2.isEmpty).foldl (fun m x => m.alter x.1 fun o => o.getD [] ++ x.2) m

/-- The package is not lost, and there is something to put there. -/
def countsPackage (x : Text × List (Status × List Record)) : Bool :=
  x.1 ≠ lostName && x.2.any fun z => !z.2.isEmpty

def addPackages (packages : List (Text × List (Status × List Record)))
    (m : OrderedMap Text (OrderedMap Status (List Record))) :
    OrderedMap Text (OrderedMap Status (List Record)) :=
  (packages.filter countsPackage).foldl
    (fun m x => m.alter x.1 fun o => addLists x.2 (o.getD .empty)) m

def countsCategory (x : Text × List (Text × List (Status × List Record))) : Bool :=
  x.1 ≠ lostName && x.2.any countsPackage

theorem filter_eq_nil_of_any {α : Type} {p : α → Bool} {xs : List α} (h : xs.any p = false) :
    xs.filter p = [] := by
  rw [List.filter_eq_nil_iff]
  intro x hx hp
  rw [List.any_eq_false] at h
  exact h x hx hp

theorem filter_ne_nil_of_any {α : Type} {p : α → Bool} {xs : List α} (h : xs.any p = true) :
    xs.filter p ≠ [] := by
  obtain ⟨x, hx, hp⟩ := List.any_eq_true.mp h
  exact List.ne_nil_of_mem (List.mem_filter.mpr ⟨hx, hp⟩)

variable {t : Tree Record} {c p : Text} {s : Status}

theorem appendRecords_eq {records : List Record} (hne : records ≠ []) :
    records.foldl (fun t r => t.append c p s r) t =
      OrderedMap.alter t c fun packages => (packages.getD .empty).alter p fun statuses =>
        (statuses.getD .empty).alter s fun l => l.getD [] ++ records := by
  have hlists (b : OrderedMap Status (List Record)) :
      records.foldl (fun b r => b.alter s fun l => l.getD [] ++ [r]) b =
        b.alter s fun l => l.getD [] ++ records := by
    rw [OrderedMap.foldl_alter s [] (fun r l => l ++ [r]) hne]
    simp [← List.flatMap_def]
  have hpackages (a : OrderedMap Text (OrderedMap Status (List Record))) :
      records.foldl (fun a r => a.alter p fun statuses =>
          (statuses.getD .empty).alter s fun l => l.getD [] ++ [r]) a =
        a.alter p fun statuses => (statuses.getD .empty).alter s fun l => l.getD [] ++ records := by
    refine (OrderedMap.foldl_alter p .empty (fun r (b : OrderedMap Status _) =>
      b.alter s fun l => l.getD [] ++ [r]) hne a).trans ?_
    simp only [hlists]
  refine (OrderedMap.foldl_alter c .empty (fun r (a : OrderedMap Text _) => a.alter p fun statuses =>
    (statuses.getD .empty).alter s fun l => l.getD [] ++ [r]) hne t).trans ?_
  simp only [hpackages]

theorem appendLists_eq (lists : List (Status × List Record)) :
    lists.foldl (fun t (status, records) =>
        records.foldl (fun t r => t.append c p status r) t) t =
      if lists.any fun z => !z.2.isEmpty then
        OrderedMap.alter t c fun packages => (packages.getD .empty).alter p fun statuses =>
          addLists lists (statuses.getD .empty)
      else t := by
  have hfilter : lists.foldl (fun t (status, records) =>
      records.foldl (fun t r => t.append c p status r) t) t =
      (lists.filter fun z => !z.2.isEmpty).foldl (fun (t : Tree Record) z =>
        OrderedMap.alter t c fun packages => (packages.getD .empty).alter p fun statuses =>
          (statuses.getD .empty).alter z.1 fun l => l.getD [] ++ z.2) t := by
    rw [List.foldl_filter]
    congr 1
    funext t z
    by_cases hz : z.2 = []
    · simp [hz]
    · simp only [List.isEmpty_eq_false_iff.mpr hz, Bool.not_false, if_true]
      exact appendRecords_eq hz
  rw [hfilter]
  cases hany : lists.any fun z => !z.2.isEmpty with
  | false => rw [filter_eq_nil_of_any hany]; rfl
  | true =>
    have hne := filter_ne_nil_of_any hany
    refine (OrderedMap.foldl_alter c .empty (fun (z : Status × List Record)
      (a : OrderedMap Text (OrderedMap Status (List Record))) => a.alter p fun statuses =>
        (statuses.getD .empty).alter z.1 fun l => l.getD [] ++ z.2) hne t).trans ?_
    congr 1
    funext packages
    exact OrderedMap.foldl_alter p .empty (fun (z : Status × List Record)
      (b : OrderedMap Status (List Record)) => b.alter z.1 fun l => l.getD [] ++ z.2) hne _

theorem appendPackages_eq (packages : List (Text × List (Status × List Record))) :
    packages.foldl (fun t (package, statuses) =>
        if package = lostName then t
        else statuses.foldl (fun t (status, records) =>
          records.foldl (fun t r => t.append c package status r) t) t) t =
      if packages.any countsPackage then
        OrderedMap.alter t c fun o => addPackages packages (o.getD .empty)
      else t := by
  have hfilter : packages.foldl (fun t (package, statuses) =>
      if package = lostName then t
      else statuses.foldl (fun t (status, records) =>
        records.foldl (fun t r => t.append c package status r) t) t) t =
      (packages.filter countsPackage).foldl (fun (t : Tree Record) y =>
        OrderedMap.alter t c fun o => (o.getD .empty).alter y.1 fun statuses =>
          addLists y.2 (statuses.getD .empty)) t := by
    rw [List.foldl_filter]
    congr 1
    funext t y
    unfold countsPackage
    by_cases hlost : y.1 = lostName
    · simp [hlost]
    · simp only [hlost, if_false, appendLists_eq, ne_eq, not_false_eq_true, decide_true,
        Bool.true_and]
  rw [hfilter]
  cases hany : packages.any countsPackage with
  | false => rw [filter_eq_nil_of_any hany]; rfl
  | true =>
    exact OrderedMap.foldl_alter c .empty (fun (y : Text × List (Status × List Record))
      (a : OrderedMap Text (OrderedMap Status (List Record))) => a.alter y.1 fun statuses =>
        addLists y.2 (statuses.getD .empty)) (filter_ne_nil_of_any hany) t

/-- Whatever leaves no record in the tree can be left out before it is put together. -/
theorem treeOf_eq (stored : List (Text × List (Text × List (Status × List Record)))) :
    treeOf stored = (stored.filter countsCategory).foldl
      (fun (t : Tree Record) x => OrderedMap.alter t x.1 fun o => addPackages x.2 (o.getD .empty))
      .empty := by
  rw [List.foldl_filter]
  unfold treeOf
  congr 1
  funext t x
  unfold countsCategory
  by_cases hlost : x.1 = lostName
  · simp [hlost]
  · simp only [hlost, if_false, appendPackages_eq, ne_eq, not_false_eq_true, decide_true,
      Bool.true_and]

/-! ## Trees that were read -/

/-- Lists as reading gives them: names in the order of members, all statuses of each package, and
records that are stored as they are. -/
structure IsRead (stored : List (Text × List (Text × List (Status × List Record)))) : Prop where
  categories : Json.InOrder stored
  packages : ∀ x ∈ stored, Json.InOrder x.2
  statuses : ∀ x ∈ stored, ∀ y ∈ x.2, Entries.keys y.2 = storedStatuses
  records : ∀ x ∈ stored, ∀ y ∈ x.2, ∀ z ∈ y.2, ∀ r ∈ z.2, IsCount r.seq ∧ r.stored = r

theorem lookup_filled {κ α : Type} [DecidableEq κ] (k : κ) {xs : List (κ × List α)}
    (h : (Entries.keys xs).Nodup) :
    (Entries.lookup k (xs.filter fun x => !x.2.isEmpty)).getD [] = (Entries.lookup k xs).getD [] := by
  induction xs with
  | nil => rfl
  | cons x xs ih =>
    obtain ⟨j, l⟩ := x
    obtain ⟨hnot, hrest⟩ := List.nodup_cons.mp h
    by_cases hl : l = []
    · subst hl
      rw [List.filter_cons_of_neg (by simp), ih hrest]
      by_cases hj : j = k
      · subst hj
        have hnone : Entries.lookup j xs = none := by
          rw [← Option.not_isSome_iff_eq_none, Entries.lookup_isSome_iff]
          exact hnot
        simp [Entries.lookup, hnone]
      · simp [Entries.lookup, hj]
    · rw [List.filter_cons_of_pos (by simp [hl])]
      by_cases hj : j = k
      · simp [Entries.lookup, hj]
      · simp [Entries.lookup, hj, ih hrest]

theorem map_lookup {κ α β : Type} [DecidableEq κ] (f : List α → β) {xs : List (κ × List α)}
    (h : (Entries.keys xs).Nodup) :
    (Entries.keys xs).map (fun k => (k, f ((Entries.lookup k xs).getD []))) =
      xs.map fun x => (x.1, f x.2) := by
  rw [Entries.keys, List.map_map]
  refine List.map_congr_left fun x hx => ?_
  have hlookup : Entries.lookup x.1 xs = some x.2 := (Entries.lookup_eq_some_iff h).mpr hx
  simp [hlookup]

theorem storedLists_addLists {lists : List (Status × List Record)}
    (hkeys : Entries.keys lists = storedStatuses)
    (hrecords : ∀ z ∈ lists, ∀ r ∈ z.2, r.stored = r) :
    storedLists (addLists lists .empty) = lists := by
  have hnodup : (Entries.keys lists).Nodup := by
    rw [hkeys]
    decide
  have hentries : (addLists lists .empty).entries = lists.filter fun x => !x.2.isEmpty := by
    refine (OrderedMap.entries_foldl_alter [] (fun records l => l ++ records)
      (hnodup.sublist (List.filter_sublist.map _))).trans ?_
    simp
  have hget (s : Status) : ((addLists lists .empty).get? s).getD [] =
      (Entries.lookup s lists).getD [] := by
    rw [OrderedMap.get?, hentries, lookup_filled s hnodup]
  rw [storedLists, ← hkeys]
  simp only [hget]
  rw [map_lookup (List.map Record.stored) hnodup]
  refine (List.map_congr_left fun z hz => ?_).trans (List.map_id _)
  have hstored : z.2.map Record.stored = z.2 :=
    (List.map_congr_left fun r hr => hrecords z hz r hr).trans (List.map_id _)
  rw [hstored]
  rfl

/-- A map that is put together of the members that count is stored as these members. -/
theorem map_kept_of_counted {α β : Type} {m : OrderedMap Text α} {counts : Text × β → Bool}
    {f : β → α} {g : α → β} {h : β → β} {xs : List (Text × β)} (horder : Json.InOrder xs)
    (hlost : ∀ x, counts x = true → x.1 ≠ lostName) (hg : ∀ x ∈ xs, g (f x.2) = h x.2)
    (hentries : m.entries = (xs.filter counts).map fun x => (x.1, f x.2)) :
    (kept m).map (fun x => (x.1, g x.2)) = (xs.filter counts).map fun x => (x.1, h x.2) := by
  have hfilter : m.entries.filter (fun x => decide (x.1 ≠ lostName)) = m.entries := by
    rw [List.filter_eq_self]
    intro x hx
    rw [hentries] at hx
    obtain ⟨y, hy, rfl⟩ := List.mem_map.mp hx
    exact decide_eq_true (hlost y (List.mem_filter.mp hy).2)
  rw [kept, hfilter, hentries, Json.memberOrder_map, (horder.filter _).order, List.map_map]
  refine List.map_congr_left fun x hx => ?_
  rw [Function.comp_apply, hg x (List.mem_filter.mp hx).1]

theorem storedPackages_addPackages {packages : List (Text × List (Status × List Record))}
    (horder : Json.InOrder packages)
    (hstatuses : ∀ y ∈ packages, Entries.keys y.2 = storedStatuses)
    (hrecords : ∀ y ∈ packages, ∀ z ∈ y.2, ∀ r ∈ z.2, r.stored = r) :
    storedPackages (addPackages packages .empty) = packages.filter countsPackage := by
  have hentries : (addPackages packages .empty).entries =
      (packages.filter countsPackage).map fun y => (y.1, addLists y.2 .empty) :=
    OrderedMap.entries_foldl_alter OrderedMap.empty addLists (horder.filter countsPackage).nodup
  have hlost (y : Text × List (Status × List Record)) (hy : countsPackage y = true) :
      y.1 ≠ lostName := decide_eq_true_eq.mp (Bool.and_eq_true_iff.mp hy).1
  have hlists (y) (hy : y ∈ packages) : storedLists (addLists y.2 .empty) = y.2 :=
    storedLists_addLists (hstatuses y hy) (hrecords y hy)
  exact (map_kept_of_counted (f := fun lists => addLists lists .empty) (h := id) horder hlost hlists
    hentries).trans (List.map_id _)

theorem storedTree_treeOf {stored : List (Text × List (Text × List (Status × List Record)))}
    (h : IsRead stored) : storedTree (treeOf stored) =
      (stored.filter countsCategory).map fun x => (x.1, x.2.filter countsPackage) := by
  have hentries : (treeOf stored).entries =
      (stored.filter countsCategory).map fun x => (x.1, addPackages x.2 .empty) := by
    rw [treeOf_eq]
    exact OrderedMap.entries_foldl_alter .empty addPackages
      (h.categories.filter countsCategory).nodup
  have hlost (x : Text × List (Text × List (Status × List Record)))
      (hx : countsCategory x = true) : x.1 ≠ lostName :=
    decide_eq_true_eq.mp (Bool.and_eq_true_iff.mp hx).1
  have hpackages (x) (hx : x ∈ stored) :
      storedPackages (addPackages x.2 .empty) = x.2.filter countsPackage :=
    storedPackages_addPackages (h.packages x hx) (h.statuses x hx)
      fun y hy z hz r hr => (h.records x hx y hy z hz r hr).2
  exact map_kept_of_counted (f := fun packages => addPackages packages .empty)
    (h := List.filter countsPackage) h.categories hlost hpackages hentries

/-- A tree that was read is stored and read again as it is. -/
theorem treeOf_storedTree {stored : List (Text × List (Text × List (Status × List Record)))}
    (h : IsRead stored) : treeOf (storedTree (treeOf stored)) = treeOf stored := by
  -- What counts is the same once what does not is gone.
  have hcounts (x : Text × List (Text × List (Status × List Record))) :
      countsCategory (x.1, x.2.filter countsPackage) = countsCategory x := by
    simp [countsCategory, List.any_filter]
  have hsame : ((stored.filter countsCategory).map fun x => (x.1, x.2.filter countsPackage)).filter
      countsCategory = (stored.filter countsCategory).map fun x => (x.1, x.2.filter countsPackage) := by
    rw [List.filter_map]
    congr 1
    rw [List.filter_filter]
    refine List.filter_congr fun x _ => ?_
    simp [hcounts]
  rw [storedTree_treeOf h, treeOf_eq, treeOf_eq stored, hsame, List.foldl_map]
  simp only [addPackages, List.filter_filter, Bool.and_self]

theorem isFull_treeOf (stored : List (Text × List (Text × List (Status × List Record)))) :
    (treeOf stored).IsFull := by
  refine Tree.isFull_empty.foldl (fun t ⟨category, packages⟩ ht => ?_) stored
  dsimp only
  split
  · exact ht
  · refine ht.foldl (fun t ⟨package, lists⟩ ht => ?_) packages
    dsimp only
    split
    · exact ht
    · refine ht.foldl (fun t ⟨status, records⟩ ht => ?_) lists
      exact ht.foldl (fun t r ht => ht.append _ _ _ r) records

end Cache

end PackageHistory
