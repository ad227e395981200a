import PackageHistory.Proofs.Tree

/-!
# Trees without empty parts

In a full tree what is present is what holds something: a category with a package, a package with a
list, a list that is not empty.
-/

namespace PackageHistory

theorem OrderedMap.entries_alter_ne_nil {κ α : Type} [DecidableEq κ] (m : OrderedMap κ α) (k : κ)
    (f : Option α → α) : (m.alter k f).entries ≠ [] := by
  intro hnil
  have hget := m.get?_alter_self k f
  rw [get?, hnil] at hget
  cases hget

namespace Tree

variable {ρ σ : Type} {t : Tree ρ}

/-- No category, package or list of the tree is empty. -/
structure IsFull (t : Tree ρ) : Prop where
  categories : ∀ c packages, t.get? c = some packages → packages.entries ≠ []
  packages : ∀ c p statuses, t.statuses? c p = some statuses → statuses.entries ≠ []
  lists : ∀ c p s statuses l, t.statuses? c p = some statuses → statuses.get? s = some l → l ≠ []

theorem isFull_empty : IsFull (.empty : Tree ρ) := ⟨nofun, nofun, nofun⟩

/-! ## Changes of lists -/

theorem list_eq_getD (t : Tree ρ) (c p : Text) (s : Status) :
    t.list c p s = (((t.statuses? c p).getD .empty).get? s).getD [] := by
  cases hp : t.statuses? c p with
  | none => simp [list, hp]
  | some statuses => exact list_of_statuses? hp s

theorem IsFull.alter (h : t.IsFull) {c p : Text} {s : Status} {f : List ρ → List ρ}
    (hf : f (t.list c p s) ≠ []) : (t.alter c p s f).IsFull := by
  refine ⟨fun c' packages hc => ?_, fun c' p' statuses hp => ?_,
    fun c' p' s' statuses l hp hs => ?_⟩
  · rw [get?_alter] at hc
    split at hc
    · cases hc
      exact OrderedMap.entries_alter_ne_nil _ _ _
    · exact h.categories c' packages hc
  · rw [statuses?_alter] at hp
    split at hp
    · cases hp
      exact OrderedMap.entries_alter_ne_nil _ _ _
    · exact h.packages c' p' statuses hp
  · rw [statuses?_alter] at hp
    split at hp
    · cases hp
      by_cases hne : s' = s
      · subst hne
        rw [OrderedMap.get?_alter_self, ← list_eq_getD, Option.some.injEq] at hs
        rwa [← hs]
      · rw [OrderedMap.get?_alter_of_ne _ hne] at hs
        cases hold : t.statuses? c p with
        | none =>
          rw [hold] at hs
          cases hs
        | some old =>
          rw [hold, Option.getD_some] at hs
          exact h.lists c p s' old l hold hs
    · exact h.lists c' p' s' statuses l hp hs

theorem IsFull.append (h : t.IsFull) (c p : Text) (s : Status) (x : ρ) : (t.append c p s x).IsFull :=
  h.alter (by simp)

theorem IsFull.foldl {α : Type} {f : Tree ρ → α → Tree ρ} (hf : ∀ t x, t.IsFull → (f t x).IsFull)
    (xs : List α) (h : t.IsFull) : (xs.foldl f t).IsFull := by
  induction xs generalizing t with
  | nil => exact h
  | cons x xs ih => exact ih (hf t x h)

theorem IsFull.mapAll (h : t.IsFull) (f : ρ → σ) : (t.mapAll f).IsFull := by
  refine ⟨fun c packages hc => ?_, fun c p statuses hp => ?_, fun c p s statuses l hp hs => ?_⟩
  · rw [Tree.mapAll, OrderedMap.get?_map, Option.map_eq_some_iff] at hc
    obtain ⟨packages', hc, rfl⟩ := hc
    simpa [OrderedMap.map] using h.categories c packages' hc
  · rw [statuses?_mapAll, Option.map_eq_some_iff] at hp
    obtain ⟨statuses', hp, rfl⟩ := hp
    simpa [OrderedMap.map] using h.packages c p statuses' hp
  · rw [statuses?_mapAll, Option.map_eq_some_iff] at hp
    obtain ⟨statuses', hp, rfl⟩ := hp
    rw [OrderedMap.get?_map, Option.map_eq_some_iff] at hs
    obtain ⟨l', hs, rfl⟩ := hs
    simpa using h.lists c p s statuses' l' hp hs

/-! ## What is present -/

theorem IsFull.list_iff (h : t.IsFull) (c p : Text) (s : Status) :
    ((t.statuses? c p).bind (·.get? s)).isSome ↔ t.list c p s ≠ [] := by
  cases hp : t.statuses? c p with
  | none => simp [list, hp]
  | some statuses =>
    rw [list_of_statuses? hp, Option.bind_some]
    cases hs : statuses.get? s with
    | none => simp
    | some l => simpa using h.lists c p s statuses l hp hs

theorem IsFull.package_iff (h : t.IsFull) (c p : Text) :
    (t.statuses? c p).isSome ↔ ∃ s, t.list c p s ≠ [] := by
  constructor
  · intro hsome
    obtain ⟨statuses, hp⟩ := Option.isSome_iff_exists.mp hsome
    obtain ⟨⟨s, l⟩, hmem⟩ := List.exists_mem_of_ne_nil _ (h.packages c p statuses hp)
    rw [OrderedMap.mem_entries_iff] at hmem
    refine ⟨s, ?_⟩
    rw [list_of_statuses? hp, hmem]
    exact h.lists c p s statuses l hp hmem
  · rintro ⟨s, hs⟩
    rw [← h.list_iff] at hs
    cases hp : t.statuses? c p with
    | none =>
      rw [hp] at hs
      cases hs
    | some statuses => rfl

theorem IsFull.category_iff (h : t.IsFull) (c : Text) :
    (t.get? c).isSome ↔ ∃ p s, t.list c p s ≠ [] := by
  constructor
  · intro hsome
    obtain ⟨packages, hc⟩ := Option.isSome_iff_exists.mp hsome
    obtain ⟨⟨p, statuses⟩, hmem⟩ := List.exists_mem_of_ne_nil _ (h.categories c packages hc)
    rw [OrderedMap.mem_entries_iff] at hmem
    have hp : t.statuses? c p = some statuses := by rw [statuses?, hc, Option.bind_some, hmem]
    obtain ⟨s, hs⟩ := (h.package_iff c p).mp (by rw [hp]; rfl)
    exact ⟨p, s, hs⟩
  · rintro ⟨p, s, hs⟩
    have hp := (h.package_iff c p).mpr ⟨s, hs⟩
    rw [statuses?] at hp
    cases hc : t.get? c with
    | none =>
      rw [hc] at hp
      cases hp
    | some packages => rfl

end Tree

end PackageHistory
