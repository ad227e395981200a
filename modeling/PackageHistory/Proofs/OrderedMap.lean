import Mathlib.Data.List.Induction
import PackageHistory.OrderedMap

/-!
# What determines a map

A map is its keys in order and what a look-up finds for each of them.
-/

universe u v w

namespace PackageHistory

/-! ## Lists of pairs -/

namespace Entries

variable {κ : Type u} {α : Type v} {β : Type w} [DecidableEq κ]

theorem lookup_eq_some_iff {entries : List (κ × α)} (h : (keys entries).Nodup) {k : κ} {a : α} :
    lookup k entries = some a ↔ (k, a) ∈ entries := by
  induction entries with
  | nil => simp [lookup]
  | cons e rest ih =>
    obtain ⟨k', b⟩ := e
    obtain ⟨hnot, hrest⟩ := List.nodup_cons.mp h
    by_cases hk : k' = k
    · subst hk
      have hnone : (k', a) ∉ rest := fun hm => hnot (List.mem_map.mpr ⟨_, hm, rfl⟩)
      simp [lookup, hnone, eq_comm]
    · have hk' : ¬ k = k' := fun e => hk e.symm
      simp [lookup, hk, hk', ih hrest]

theorem alter_of_not_mem {k : κ} (f : Option α → α) {entries : List (κ × α)}
    (h : k ∉ keys entries) : alter k f entries = entries ++ [(k, f none)] := by
  induction entries with
  | nil => rfl
  | cons e rest ih =>
    obtain ⟨k', a⟩ := e
    obtain ⟨hk, hrest⟩ := not_or.mp (fun hm => h (List.mem_cons.mpr hm))
    have hk' : ¬ k' = k := fun e => hk e.symm
    simp only [alter, if_neg hk', List.cons_append]
    rw [ih hrest]

theorem eq_of_lookup_eq {s t : List (κ × α)} (hs : (keys s).Nodup) (hk : keys s = keys t)
    (hl : ∀ k, lookup k s = lookup k t) : s = t := by
  induction s generalizing t with
  | nil => exact (List.map_eq_nil_iff.mp hk.symm).symm
  | cons e rest ih =>
    obtain ⟨k, a⟩ := e
    cases t with
    | nil => simp [keys] at hk
    | cons e' rest' =>
      obtain ⟨k', a'⟩ := e'
      simp only [keys, List.map_cons, List.cons.injEq] at hk
      obtain ⟨rfl, hk⟩ := hk
      obtain ⟨hnot, hrest⟩ := List.nodup_cons.mp hs
      have ha : a = a' := by simpa [lookup] using hl k
      have htail : rest = rest' := by
        refine ih hrest hk fun j => ?_
        by_cases hj : k = j
        · -- The key of the head is in neither tail.
          subst hj
          have h₁ : lookup k rest = none := by
            rw [← Option.not_isSome_iff_eq_none, lookup_isSome_iff]
            exact hnot
          have h₂ : lookup k rest' = none := by
            rw [← Option.not_isSome_iff_eq_none, lookup_isSome_iff, keys, ← hk]
            exact hnot
          rw [h₁, h₂]
        · simpa [lookup, hj] using hl j
      rw [ha, htail]

theorem lookup_map (f : α → β) (k : κ) (entries : List (κ × α)) :
    lookup k (entries.map fun e => (e.1, f e.2)) = (lookup k entries).map f := by
  induction entries with
  | nil => rfl
  | cons e rest ih =>
    by_cases h : e.1 = k <;> simp [lookup, h, ih]

theorem lookup_filter (p : κ → Bool) (k : κ) (entries : List (κ × α)) :
    lookup k (entries.filter fun e => p e.1) = if p k then lookup k entries else none := by
  induction entries with
  | nil => simp [lookup]
  | cons e rest ih =>
    obtain ⟨k', a⟩ := e
    by_cases hk : k' = k
    · subst hk
      by_cases hp : p k' <;> simp [lookup, hp, ih]
    · by_cases hp : p k' <;> simp [lookup, hp, hk, ih]

/-- What the pairs of one key give is what the value of that key gives. -/
theorem flatMap_lookup (k : κ) (f : α → List β) {entries : List (κ × α)}
    (h : (keys entries).Nodup) :
    (entries.flatMap fun e => if e.1 = k then f e.2 else []) =
      ((lookup k entries).map f).getD [] := by
  induction entries with
  | nil => rfl
  | cons e rest ih =>
    obtain ⟨hnot, hrest⟩ := List.nodup_cons.mp h
    rw [List.flatMap_cons, ih hrest]
    by_cases hk : e.1 = k
    · have hnone : lookup k rest = none := by
        rw [← Option.not_isSome_iff_eq_none, lookup_isSome_iff, ← hk]
        exact hnot
      simp [lookup, hk, hnone]
    · simp [lookup, hk]

theorem map_alter (g : α → β) (k : κ) {f : Option α → α} {q : Option β → β}
    (h : ∀ o, g (f o) = q (o.map g)) (entries : List (κ × α)) :
    (alter k f entries).map (fun e => (e.1, g e.2)) =
      alter k q (entries.map fun e => (e.1, g e.2)) := by
  induction entries with
  | nil => simp [alter, h]
  | cons e rest ih =>
    obtain ⟨k', a⟩ := e
    by_cases hk : k' = k <;> simp [alter, hk, h, ih]

end Entries

/-! ## Maps -/

namespace OrderedMap

variable {κ : Type u} {α : Type v} {β : Type w}

theorem eq_of_entries_eq {m n : OrderedMap κ α} (h : m.entries = n.entries) : m = n := by
  cases m
  cases n
  simp_all

theorem map_map {γ : Type u} (f : α → β) (g : β → γ) (m : OrderedMap κ α) :
    (m.map f).map g = m.map fun a => g (f a) :=
  eq_of_entries_eq (by simp [map])

variable [DecidableEq κ]

theorem mem_entries_iff {m : OrderedMap κ α} {k : κ} {a : α} :
    (k, a) ∈ m.entries ↔ m.get? k = some a :=
  (Entries.lookup_eq_some_iff m.nodup).symm

theorem eq_of_get?_eq {m n : OrderedMap κ α} (hk : m.keys = n.keys)
    (hg : ∀ k, m.get? k = n.get? k) : m = n :=
  eq_of_entries_eq (Entries.eq_of_lookup_eq m.nodup hk hg)

/-- Pairs whose keys are all different are kept as they are. -/
theorem entries_ofList {pairs : List (κ × α)} (h : (Entries.keys pairs).Nodup) :
    (ofList pairs).entries = pairs := by
  have hfold (m : OrderedMap κ α) (pairs : List (κ × α))
      (h : (m.keys ++ Entries.keys pairs).Nodup) :
      (pairs.foldl (fun m e => m.insert e.1 e.2) m).entries = m.entries ++ pairs := by
    induction pairs generalizing m with
    | nil => simp
    | cons e rest ih =>
      have hnew : e.1 ∉ Entries.keys m.entries := by
        intro hm
        exact (List.nodup_append.mp h).2.2 e.1 hm e.1 List.mem_cons_self rfl
      have hinsert : (m.insert e.1 e.2).entries = m.entries ++ [e] :=
        Entries.alter_of_not_mem _ hnew
      have hkeys : (m.insert e.1 e.2).keys = m.keys ++ [e.1] := by
        rw [keys, hinsert]
        simp [keys, Entries.keys]
      rw [List.foldl_cons, ih, hinsert, List.append_assoc, List.singleton_append]
      rw [hkeys, List.append_assoc]
      exact h
  exact hfold empty pairs h

theorem get?_insert (m : OrderedMap κ α) (j k : κ) (a : α) :
    (m.insert k a).get? j = if j = k then some a else m.get? j := by
  split
  · next h => rw [h, insert, get?_alter_self]
  · next h => exact get?_alter_of_ne m h _

theorem mem_entries_insert {m : OrderedMap κ α} {k : κ} {a : α} {x : κ × α}
    (h : x ∈ (m.insert k a).entries) : x ∈ m.entries ∨ x = (k, a) := by
  obtain ⟨j, b⟩ := x
  rw [mem_entries_iff, get?_insert] at h
  rw [mem_entries_iff]
  split at h
  · next hj =>
    rw [Option.some.injEq] at h
    exact .inr (by rw [hj, h])
  · exact .inl h

theorem mem_of_mem_ofList {pairs : List (κ × α)} {x : κ × α} (h : x ∈ (ofList pairs).entries) :
    x ∈ pairs := by
  have hfold (m : OrderedMap κ α) (pairs : List (κ × α)) :
      ∀ x ∈ (pairs.foldl (fun m e => m.insert e.1 e.2) m).entries, x ∈ m.entries ∨ x ∈ pairs := by
    induction pairs generalizing m with
    | nil => exact fun x hx => .inl hx
    | cons e rest ih =>
      intro x hx
      rcases ih (m.insert e.1 e.2) x hx with hm | hrest
      · rcases mem_entries_insert hm with hm | rfl
        · exact .inl hm
        · exact .inr List.mem_cons_self
      · exact .inr (List.mem_cons_of_mem _ hrest)
  rcases hfold empty pairs x h with hm | hpairs
  · cases hm
  · exact hpairs

/-- A key that pairs are put under is there in the end, perhaps with the value of a later pair. -/
theorem exists_mem_ofList {pairs : List (κ × α)} {x : κ × α} (h : x ∈ pairs) :
    ∃ a, (x.1, a) ∈ (ofList pairs).entries := by
  have hfold (m : OrderedMap κ α) (pairs : List (κ × α))
      (h : (∃ a, m.get? x.1 = some a) ∨ x ∈ pairs) :
      ∃ a, (pairs.foldl (fun m e => m.insert e.1 e.2) m).get? x.1 = some a := by
    induction pairs generalizing m with
    | nil => exact h.resolve_right List.not_mem_nil
    | cons e rest ih =>
      refine ih _ ?_
      rw [get?_insert]
      rcases h with h | h
      · left
        split
        · exact ⟨e.2, rfl⟩
        · exact h
      · rcases List.mem_cons.mp h with rfl | h
        · exact .inl ⟨x.2, if_pos rfl⟩
        · exact .inr h
  obtain ⟨a, ha⟩ := hfold empty pairs (.inr h)
  exact ⟨a, mem_entries_iff.mpr ha⟩

/-- Of the pairs with a key the last one stays. -/
theorem get?_ofList_eq_some_iff {pairs : List (κ × α)} {k : κ} {a : α} :
    (ofList pairs).get? k = some a ↔
      ∃ before after, pairs = before ++ (k, a) :: after ∧ ∀ e ∈ after, e.1 ≠ k := by
  induction pairs using List.reverseRecOn with
  | nil => simp [ofList]
  | append_singleton rest e ih =>
    obtain ⟨j, b⟩ := e
    have hput : ofList (rest ++ [(j, b)]) = (ofList rest).insert j b := by
      rw [ofList, List.foldl_append]
      rfl
    rw [hput, get?_insert]
    constructor
    · intro h
      split at h
      next heq =>
        cases heq
        cases h
        exact ⟨rest, [], rfl, nofun⟩
      next hne =>
        obtain ⟨before, after, rfl, hafter⟩ := ih.mp h
        refine ⟨before, after ++ [(j, b)], by simp, fun e he => ?_⟩
        rcases List.mem_append.mp he with he | he
        · exact hafter e he
        · rw [List.mem_singleton.mp he]
          exact fun heq => hne heq.symm
    · rintro ⟨before, after, hsplit, hafter⟩
      rcases List.eq_nil_or_concat after with rfl | ⟨more, last, rfl⟩
      · obtain ⟨-, hlast⟩ := List.append_inj' hsplit rfl
        cases hlast
        rw [if_pos rfl]
      · rw [List.concat_eq_append] at hsplit hafter
        have hsplit' : rest ++ [(j, b)] = (before ++ (k, a) :: more) ++ [last] := by simpa using hsplit
        obtain ⟨rfl, hlast⟩ := List.append_inj' hsplit' rfl
        cases hlast
        rw [if_neg fun heq => hafter (j, b) (by simp) heq.symm]
        exact ih.mpr ⟨before, more, rfl, fun e he => hafter e (List.mem_append_left _ he)⟩

theorem get?_filter (p : κ → Bool) (m : OrderedMap κ α) (k : κ) :
    (m.filter fun j _ => p j).get? k = if p k then m.get? k else none :=
  Entries.lookup_filter p k m.entries

theorem map_alter (g : α → β) (k : κ) {f : Option α → α} {q : Option β → β}
    (h : ∀ o, g (f o) = q (o.map g)) (m : OrderedMap κ α) :
    (m.alter k f).map g = (m.map g).alter k q :=
  eq_of_entries_eq (Entries.map_alter g k h m.entries)

end OrderedMap

end PackageHistory
