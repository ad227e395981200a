import Mathlib.Data.List.Basic
import Mathlib.Data.List.Induction
import Mathlib.Data.List.Nodup
import Mathlib.Logic.Relation
import PackageHistory.Repository

/-!
# Masters before their heirs

A depth-first walk along the masters completes a repository behind all that it inherits from, and comes to a shared
master more than once. The trees of a repository are what the walk completes, each where it is completed first.
-/

namespace PackageHistory

/-! ## The first of two -/

/-- One element is in a list, and another one is not before its first place. -/
def ComesFirst {α : Type} (xs : List α) (a b : α) : Prop :=
  b ≠ a ∧ ∃ before after, xs = before ++ a :: after ∧ b ∉ before

theorem comesFirst_concat {α : Type} {xs : List α} {a b x : α} :
    ComesFirst (xs ++ [x]) a b ↔ ComesFirst xs a b ∨ b ≠ a ∧ x = a ∧ b ∉ xs := by
  constructor
  · rintro ⟨hne, before, after, hsplit, hb⟩
    rcases List.eq_nil_or_concat after with rfl | ⟨rest, y, rfl⟩
    · obtain ⟨rfl, hlast⟩ := List.append_inj' hsplit rfl
      obtain rfl : x = a := List.singleton_inj.mp hlast
      exact .inr ⟨hne, rfl, hb⟩
    · rw [List.concat_eq_append, ← List.cons_append, ← List.append_assoc] at hsplit
      exact .inl ⟨hne, before, rest, (List.append_inj' hsplit rfl).1, hb⟩
  · rintro (⟨hne, before, after, rfl, hb⟩ | ⟨hne, rfl, hb⟩)
    · exact ⟨hne, before, after ++ [x], by simp, hb⟩
    · exact ⟨hne, xs, [], rfl, hb⟩

namespace Repository

variable {r a b m : Repository} {xs ys : List Repository}

/-! ## Inheritance -/

/-- One repository is a direct or indirect master of another, or the same. -/
abbrev Reaches (r a : Repository) : Prop := Relation.ReflTransGen (fun r m => m ∈ r.masters) r a

/-- One repository is a direct or indirect master of another. -/
abbrev Inherits (r a : Repository) : Prop := Relation.TransGen (fun r m => m ∈ r.masters) r a

theorem sizeOf_lt_of_mem_masters (h : m ∈ r.masters) : sizeOf m < sizeOf r := by
  obtain ⟨id, location, categories, masters⟩ := r
  have hlt : sizeOf m < sizeOf masters := List.sizeOf_lt_of_mem h
  rw [mk.sizeOf_spec]
  omega

@[elab_as_elim]
theorem masters_induction {motive : Repository → Prop}
    (step : ∀ r, (∀ m ∈ r.masters, motive m) → motive r) (r : Repository) : motive r :=
  step r fun m _ => masters_induction step m
termination_by sizeOf r
decreasing_by exact sizeOf_lt_of_mem_masters ‹_›

/-- No repository inherits from itself. -/
theorem Inherits.ne (h : Inherits r m) : m ≠ r := by
  have hlt : sizeOf m < sizeOf r := by
    induction h with
    | single hm => exact sizeOf_lt_of_mem_masters hm
    | tail _ hm ih => exact Nat.lt_trans (sizeOf_lt_of_mem_masters hm) ih
  rintro rfl
  exact Nat.lt_irrefl _ hlt

theorem reaches_iff : Reaches r a ↔ a = r ∨ ∃ m ∈ r.masters, Reaches m a :=
  Relation.ReflTransGen.cases_head_iff.trans (or_congr_left eq_comm)

/-! ## The walk -/

mutual

/-- The repositories that a depth-first walk along the masters completes, in this order: each behind its masters,
the most important of them first. -/
def completions : Repository → List Repository
  | ⟨id, location, categories, masters⟩ =>
    completionsOfAll masters ++ [⟨id, location, categories, masters⟩]

def completionsOfAll : List Repository → List Repository
  | [] => []
  | r :: rest => completions r ++ completionsOfAll rest

end

theorem completions_eq (r : Repository) : completions r = r.masters.flatMap completions ++ [r] := by
  have hall (rs : List Repository) : completionsOfAll rs = rs.flatMap completions := by
    induction rs with
    | nil => rfl
    | cons r rest ih => rw [completionsOfAll, ih, List.flatMap_cons]
  obtain ⟨id, location, categories, masters⟩ := r
  rw [completions, hall]

theorem mem_completions : a ∈ completions r ↔ Reaches r a := by
  induction r using masters_induction with
  | step r ih =>
    rw [completions_eq, List.mem_append, List.mem_flatMap, List.mem_singleton, reaches_iff, or_comm]
    exact or_congr_right (exists_congr fun m => and_congr_right fun hm => ih m hm)

/-! ## Masters come first -/

/-- Whenever something is completed all that it inherits from is completed already. -/
def IsMastersFirst (xs : List Repository) : Prop :=
  ∀ done, done <+: xs → ∀ a ∈ done, ∀ b, Inherits a b → b ∈ done

theorem IsMastersFirst.append (hxs : IsMastersFirst xs) (hys : IsMastersFirst ys) :
    IsMastersFirst (xs ++ ys) := by
  intro done hdone a ha b hb
  rcases List.prefix_or_prefix_of_prefix hdone (List.prefix_append xs ys) with hin | ⟨more, rfl⟩
  · exact hxs done hin a ha b hb
  · rw [List.prefix_append_right_inj] at hdone
    rcases List.mem_append.mp ha with ha | ha
    · exact List.mem_append_left _ (hxs xs List.prefix_rfl a ha b hb)
    · exact List.mem_append_right _ (hys more hdone a ha b hb)

theorem isMastersFirst_completions (r : Repository) : IsMastersFirst (completions r) := by
  induction r using masters_induction with
  | step r ih =>
    have hmasters : IsMastersFirst (r.masters.flatMap completions) := by
      generalize r.masters = ms at ih
      induction ms with
      | nil => exact fun done hdone a ha => absurd (hdone.subset ha) List.not_mem_nil
      | cons m rest ihrest =>
        rw [List.flatMap_cons]
        exact (ih m List.mem_cons_self).append (ihrest fun m hm => ih m (List.mem_cons_of_mem _ hm))
    rw [completions_eq]
    intro done hdone a ha b hb
    rcases List.prefix_concat_iff.mp hdone with rfl | hin
    · rcases List.mem_append.mp ha with ha | ha
      · exact List.mem_append_left _ (hmasters _ List.prefix_rfl a ha b hb)
      · -- The last one is the repository itself, and the walks of its masters came to all of its masters.
        obtain rfl := List.mem_singleton.mp ha
        obtain ⟨m, hm, hreach⟩ := Relation.TransGen.head'_iff.mp hb
        exact List.mem_append_left _ (List.mem_flatMap.mpr ⟨m, hm, mem_completions.mpr hreach⟩)
    · exact hmasters done hin a ha b hb

theorem IsMastersFirst.comesFirst (hxs : IsMastersFirst xs) (ha : a ∈ xs) (h : Inherits a b) :
    ComesFirst xs b a := by
  obtain ⟨before, after, rfl, hfirst⟩ := List.eq_append_cons_of_mem ha
  have hdone : before ++ [a] <+: before ++ a :: after := ⟨after, by simp⟩
  have hb : b ∈ before := by
    refine (List.mem_append.mp (hxs _ hdone a (by simp) b h)).resolve_right fun hlast => ?_
    exact h.ne (List.mem_singleton.mp hlast)
  obtain ⟨start, rest, rfl⟩ := List.append_of_mem hb
  exact ⟨h.ne.symm, start, rest ++ a :: after, by simp, fun hmem => hfirst (by simp [hmem])⟩

/-! ## Trees -/

/-- Puts a repository behind those that are there, unless its location is there already. -/
def meet (seen : List Repository) (r : Repository) : List Repository :=
  if seen.any (·.location = r.location) then seen else seen ++ [r]

theorem visit_eq (seen : List Repository) (r : Repository) :
    visit seen r = (completions r).foldl meet seen := by
  have hall (rs : List Repository) : ∀ seen, visitAll seen rs = rs.foldl visit seen := by
    induction rs with
    | nil => exact fun _ => rfl
    | cons r rest ih => exact fun seen => by rw [visitAll, ih, List.foldl_cons]
  induction r using masters_induction generalizing seen with
  | step r ih =>
    rw [completions_eq, List.foldl_append, List.foldl_flatMap,
      ← List.foldl_ext visit _ seen fun seen m hm => ih m hm seen, ← hall]
    obtain ⟨id, location, categories, masters⟩ := r
    rw [visit]
    rfl

/-- Repositories at one location are the same. -/
def AreDistinct (xs : List Repository) : Prop :=
  ∀ a ∈ xs, ∀ b ∈ xs, a.location = b.location → a = b

/-- What is left of a list of repositories when each location is kept where it comes first. -/
structure IsFirsts (xs kept : List Repository) : Prop where
  nodup : (kept.map location).Nodup
  mem : ∀ a, a ∈ kept ↔ a ∈ xs
  order : ∀ a b, ComesFirst kept a b ↔ ComesFirst xs a b

theorem meet_of_mem (h : a ∈ xs) : meet xs a = xs :=
  if_pos (List.any_eq_true.mpr ⟨a, h, decide_eq_true rfl⟩)

theorem meet_of_new (h : ∀ b ∈ xs, b.location ≠ a.location) : meet xs a = xs ++ [a] := by
  refine if_neg fun hany => ?_
  obtain ⟨b, hb, hsame⟩ := List.any_eq_true.mp hany
  exact h b hb (of_decide_eq_true hsame)

theorem IsFirsts.again (h : IsFirsts xs ys) (hx : a ∈ xs) : IsFirsts (xs ++ [a]) ys where
  nodup := h.nodup
  mem b := by
    rw [h.mem, List.mem_append, List.mem_singleton]
    exact (or_iff_left_of_imp fun hb => hb ▸ hx).symm
  order b c := by
    rw [h.order, comesFirst_concat]
    refine (or_iff_left_of_imp ?_).symm
    -- An element that comes again is first where it was.
    rintro ⟨hne, rfl, hc⟩
    obtain ⟨before, after, rfl⟩ := List.append_of_mem hx
    exact ⟨hne, before, after, rfl, fun hmem => hc (List.mem_append_left _ hmem)⟩

theorem IsFirsts.concat (h : IsFirsts xs ys) (hnew : ∀ b ∈ ys, b.location ≠ a.location) :
    IsFirsts (xs ++ [a]) (ys ++ [a]) where
  nodup := by
    rw [List.map_append, List.nodup_append]
    refine ⟨h.nodup, List.pairwise_singleton _ _, ?_⟩
    rintro l hl _ hlast rfl
    obtain ⟨b, hb, rfl⟩ := List.mem_map.mp hl
    exact hnew b hb (List.mem_singleton.mp hlast)
  mem b := by rw [List.mem_append, List.mem_append, h.mem]
  order b c := by rw [comesFirst_concat, comesFirst_concat, h.order, h.mem]

theorem isFirsts_foldl_meet (h : AreDistinct xs) : IsFirsts xs (xs.foldl meet []) := by
  induction xs using List.reverseRecOn with
  | nil => exact ⟨.nil, fun _ => .rfl, fun _ _ => .rfl⟩
  | append_singleton xs x ih =>
    have hkept : IsFirsts xs (xs.foldl meet []) :=
      ih fun a ha b hb => h a (List.mem_append_left _ ha) b (List.mem_append_left _ hb)
    rw [List.foldl_append, List.foldl_cons, List.foldl_nil]
    by_cases hx : x ∈ xs
    · rw [meet_of_mem ((hkept.mem x).mpr hx)]
      exact hkept.again hx
    · have hnew : ∀ b ∈ xs.foldl meet [], b.location ≠ x.location := by
        intro b hb hsame
        have hin := (hkept.mem b).mp hb
        exact hx (h b (List.mem_append_left _ hin) x (by simp) hsame ▸ hin)
      rw [meet_of_new hnew]
      exact hkept.concat hnew

theorem getLast?_trees (h : AreDistinct (completions r)) : (trees r).getLast? = some r := by
  have hnew : ∀ b ∈ (r.masters.flatMap completions).foldl meet [], b.location ≠ r.location := by
    intro b hb hsame
    rw [completions_eq] at h
    have hmasters : AreDistinct (r.masters.flatMap completions) :=
      fun a ha b hb => h a (List.mem_append_left _ ha) b (List.mem_append_left _ hb)
    have hin := ((isFirsts_foldl_meet hmasters).mem b).mp hb
    obtain ⟨m, hm, hreach⟩ := List.mem_flatMap.mp hin
    have hinherits : Inherits r b := Relation.TransGen.head' hm (mem_completions.mp hreach)
    exact hinherits.ne (h b (List.mem_append_left _ hin) r (by simp) hsame)
  rw [trees, visit_eq, completions_eq, List.foldl_append, List.foldl_cons, List.foldl_nil,
    meet_of_new hnew, List.getLast?_concat]

/-- Where repositories at one location are the same, the trees of a repository are what it reaches through masters,
no location twice and itself last. All masters come before what inherits from them, and of any two repositories the
one comes first that the walk completes first. -/
theorem trees_masters_first (r : Repository)
    (hsame : ∀ a b, Reaches r a → Reaches r b → a.location = b.location → a = b) :
    ((trees r).map location).Nodup ∧
    (∀ a, a ∈ trees r ↔ Reaches r a) ∧
    (trees r).getLast? = some r ∧
    (∀ a ∈ trees r, ∀ b, Inherits a b → ComesFirst (trees r) b a) ∧
    ∀ a b, ComesFirst (trees r) a b ↔ ComesFirst (completions r) a b := by
  have hdistinct : AreDistinct (completions r) := fun a ha b hb =>
    hsame a b (mem_completions.mp ha) (mem_completions.mp hb)
  have htrees : IsFirsts (completions r) (trees r) := by
    rw [trees, visit_eq]
    exact isFirsts_foldl_meet hdistinct
  refine ⟨htrees.nodup, fun a => ?_, getLast?_trees hdistinct, fun a ha b h => ?_, htrees.order⟩
  · rw [htrees.mem, mem_completions]
  · rw [htrees.order]
    exact (isMastersFirst_completions r).comesFirst ((htrees.mem a).mp ha) h

/-- An overlay of two masters of which the second inherits from the first. -/
def gentoo : Repository := ⟨"gentoo".toList, "/repos/gentoo".toList, [], []⟩

def science : Repository := ⟨"science".toList, "/repos/science".toList, [], [gentoo]⟩

def overlay : Repository := ⟨"overlay".toList, "/repos/overlay".toList, [], [science, gentoo]⟩

theorem trees_overlay :
    (∀ a b, Reaches overlay a → Reaches overlay b → a.location = b.location → a = b) ∧
      trees overlay = [gentoo, science, overlay] ∧ Reaches overlay gentoo ∧
      ComesFirst (trees overlay) gentoo science ∧ (trees overlay).getLast? = some overlay := by
  have hcompletions : completions overlay = [gentoo, science, gentoo, overlay] := rfl
  have hreached : ∀ a, Reaches overlay a → a ∈ [gentoo, science, overlay] := by
    simp [← mem_completions, hcompletions]
  have hlocations : ([gentoo, science, overlay].map location).Nodup := by decide
  have hsame : ∀ a b, Reaches overlay a → Reaches overlay b → a.location = b.location → a = b :=
    fun a b ha hb => List.inj_on_of_nodup_map hlocations (hreached a ha) (hreached b hb)
  have htrees : trees overlay = [gentoo, science, overlay] := by
    simp only [trees, visit_eq, hcompletions]
    rfl
  obtain ⟨-, hmem, hlast, hfirst, -⟩ := trees_masters_first overlay hsame
  have hgentoo : gentoo ∈ trees overlay := by simp [htrees]
  have hscience : science ∈ trees overlay := by simp [htrees]
  refine ⟨hsame, htrees, (hmem gentoo).mp hgentoo, ?_, hlast⟩
  exact hfirst science hscience gentoo (.single List.mem_cons_self)

end Repository

end PackageHistory
