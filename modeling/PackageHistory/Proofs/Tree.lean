import PackageHistory.History.Basic
import PackageHistory.Proofs.OrderedMap

/-!
# Trees of lists

A tree is its shape, which is the order in which categories, packages and statuses came, and the
list at each place. Changes of lists act on the two apart.
-/

namespace PackageHistory.Tree

variable {ρ σ : Type}

/-! ## Lists -/

theorem list_of_statuses? {t : Tree ρ} {c p : Text} {m : OrderedMap Status (List ρ)}
    (h : t.statuses? c p = some m) (s : Status) : t.list c p s = (m.get? s).getD [] := by
  simp [list, h]

theorem list_of_mem {t : Tree ρ} {c p : Text} {s : Status}
    {packages : OrderedMap Text (OrderedMap Status (List ρ))} {statuses : OrderedMap Status (List ρ)}
    {l : List ρ} (hc : (c, packages) ∈ t.entries) (hp : (p, statuses) ∈ packages.entries)
    (hs : (s, l) ∈ statuses.entries) : t.list c p s = l := by
  rw [OrderedMap.mem_entries_iff] at hc hp hs
  simp [list, statuses?, hc, hp, hs]

@[simp] theorem list_empty (c p : Text) (s : Status) : list (.empty : Tree ρ) c p s = [] := rfl

theorem statuses?_mapAll (f : ρ → σ) (t : Tree ρ) (c p : Text) :
    (t.mapAll f).statuses? c p = (t.statuses? c p).map (·.map (List.map f)) := by
  simp only [statuses?, mapAll, OrderedMap.get?_map]
  cases t.get? c with
  | none => rfl
  | some packages => simp

theorem mapAll_mapAll {τ : Type} (f : ρ → σ) (g : σ → τ) (t : Tree ρ) :
    (t.mapAll f).mapAll g = t.mapAll fun x => g (f x) := by
  simp [mapAll, OrderedMap.map_map, Function.comp_def]

@[simp] theorem list_mapAll (f : ρ → σ) (t : Tree ρ) (c p : Text) (s : Status) :
    (t.mapAll f).list c p s = (t.list c p s).map f := by
  simp only [list, statuses?_mapAll]
  cases t.statuses? c p with
  | none => rfl
  | some m => cases h : m.get? s <;> simp [h]

theorem list_alter (t : Tree ρ) (c p c' p' : Text) (s s' : Status) (f : List ρ → List ρ) :
    (t.alter c p s f).list c' p' s' =
      if (c, p, s) = (c', p', s') then f (t.list c' p' s') else t.list c' p' s' := by
  split
  · next h =>
    obtain ⟨rfl, rfl, rfl⟩ : c = c' ∧ p = p' ∧ s = s' := by simpa using h
    exact list_alter_self t c p s f
  · next h => exact list_alter_of_ne t (fun e => h e.symm) f

/-! ## Places that a change makes -/

section Places

variable (t : Tree ρ) (c p : Text) (s : Status) (f : List ρ → List ρ)

theorem get?_alter (c' : Text) :
    (t.alter c p s f).get? c' =
      if c' = c then some (((t.get? c).getD .empty).alter p fun statuses =>
        (statuses.getD .empty).alter s fun l => f (l.getD []))
      else t.get? c' := by
  split
  · next h =>
    subst h
    exact OrderedMap.get?_alter_self _ _ _
  · next h => exact OrderedMap.get?_alter_of_ne _ h _

theorem statuses?_alter (c' p' : Text) :
    (t.alter c p s f).statuses? c' p' =
      if (c', p') = (c, p) then
        some (((t.statuses? c p).getD .empty).alter s fun l => f (l.getD []))
      else t.statuses? c' p' := by
  unfold statuses?
  rw [get?_alter]
  by_cases hc : c' = c
  · subst hc
    rw [if_pos rfl, Option.bind_some]
    by_cases hp : p' = p
    · subst hp
      rw [OrderedMap.get?_alter_self, if_pos rfl]
      cases t.get? c' <;> rfl
    · rw [OrderedMap.get?_alter_of_ne _ hp, if_neg (fun h => hp (Prod.mk.inj h).2)]
      cases t.get? c' <;> rfl
  · rw [if_neg hc, if_neg (fun h => hc (Prod.mk.inj h).1)]

theorem isSome_get?_alter (c' : Text) :
    (OrderedMap.get? (t.alter c p s f) c').isSome ↔ (t.get? c').isSome ∨ c' = c := by
  rw [get?_alter]
  split <;> simp [*]

theorem isSome_statuses?_alter (c' p' : Text) : ((t.alter c p s f).statuses? c' p').isSome ↔
    (t.statuses? c' p').isSome ∨ (c', p') = (c, p) := by
  rw [statuses?_alter]
  split <;> simp [*]

theorem isSome_list?_alter (c' p' : Text) (s' : Status) :
    (((t.alter c p s f).statuses? c' p').bind (·.get? s')).isSome ↔
      ((t.statuses? c' p').bind (·.get? s')).isSome ∨ (c', p', s') = (c, p, s) := by
  rw [statuses?_alter]
  split
  · next hplace =>
    obtain ⟨rfl, rfl⟩ := Prod.mk.inj hplace
    by_cases hs : s' = s
    · subst hs
      simp
    · cases hg : t.statuses? c' p' <;> simp [OrderedMap.get?_alter_of_ne _ hs, hs]
  · next hplace =>
    have hne : (c', p', s') ≠ (c, p, s) := fun heq => hplace (by simp_all)
    simp [hne]

end Places

/-! ## Shapes -/

/-- The tree with all lists emptied. -/
def shape (t : Tree ρ) : Tree Unit :=
  OrderedMap.map (fun packages => packages.map fun statuses => statuses.map fun _ => []) t

@[simp] theorem shape_mapAll (f : ρ → σ) (t : Tree ρ) : (t.mapAll f).shape = t.shape := by
  simp [shape, mapAll, OrderedMap.map_map]

theorem shape_alter (t : Tree ρ) (c p : Text) (s : Status) (f : List ρ → List ρ) :
    (t.alter c p s f).shape = t.shape.alter c p s fun _ => [] := by
  apply OrderedMap.map_alter
  intro packages
  have inner (m : OrderedMap Text (OrderedMap Status (List ρ))) :
      (m.alter p fun statuses => (statuses.getD .empty).alter s fun l => f (l.getD [])).map
        (fun statuses => statuses.map fun _ => ([] : List Unit)) =
      (m.map fun statuses => statuses.map fun _ => []).alter p fun statuses =>
        (statuses.getD .empty).alter s fun _ => [] := by
    apply OrderedMap.map_alter
    intro statuses
    rw [OrderedMap.map_alter (q := fun _ => []) _ _ (fun _ => rfl)]
    cases statuses <;> rfl
  rw [inner]
  cases packages <;> rfl

theorem statuses?_shape (t : Tree ρ) (c p : Text) :
    t.shape.statuses? c p = (t.statuses? c p).map (·.map fun _ => []) := by
  simp only [statuses?, shape, OrderedMap.get?_map]
  cases t.get? c <;> simp

theorem keys_eq_of_shape_eq {t : Tree ρ} {u : Tree σ} (h : t.shape = u.shape) :
    OrderedMap.keys t = OrderedMap.keys u := by
  simpa [shape] using congrArg OrderedMap.keys h

/-! ## What determines a tree -/

theorem statuses_ext {m n : OrderedMap Status (List ρ)}
    (hshape : (m.map fun _ => ([] : List Unit)) = n.map fun _ => [])
    (hlist : ∀ s, (m.get? s).getD [] = (n.get? s).getD []) : m = n := by
  apply OrderedMap.eq_of_get?_eq
  · simpa using congrArg OrderedMap.keys hshape
  · intro s
    have h : (m.get? s).map (fun _ => ([] : List Unit)) = (n.get? s).map fun _ => [] := by
      simpa using congrArg (·.get? s) hshape
    have hl := hlist s
    cases hm : m.get? s <;> cases hn : n.get? s <;> simp_all

theorem ext {t u : Tree ρ} (hshape : t.shape = u.shape)
    (hlist : ∀ c p s, t.list c p s = u.list c p s) : t = u := by
  apply OrderedMap.eq_of_get?_eq (keys_eq_of_shape_eq hshape)
  intro c
  have hc := congrArg (OrderedMap.get? · c) hshape
  simp only [shape, OrderedMap.get?_map] at hc
  cases ht : OrderedMap.get? t c with
  | none =>
    cases hu : OrderedMap.get? u c with
    | none => rfl
    | some _ => simp [ht, hu] at hc
  | some m =>
    cases hu : OrderedMap.get? u c with
    | none => simp [ht, hu] at hc
    | some n =>
      simp only [ht, hu, Option.map_some, Option.some.injEq] at hc
      congr 1
      apply OrderedMap.eq_of_get?_eq
      · simpa using congrArg OrderedMap.keys hc
      · intro p
        have hp := congrArg (OrderedMap.get? · p) hc
        simp only [OrderedMap.get?_map] at hp
        cases hm : m.get? p with
        | none =>
          cases hn : n.get? p with
          | none => rfl
          | some _ => simp [hm, hn] at hp
        | some a =>
          cases hn : n.get? p with
          | none => simp [hm, hn] at hp
          | some b =>
            simp only [hm, hn, Option.map_some, Option.some.injEq] at hp
            congr 1
            refine statuses_ext hp fun s => ?_
            simpa [list, statuses?, ht, hu, hm, hn] using hlist c p s

end PackageHistory.Tree
