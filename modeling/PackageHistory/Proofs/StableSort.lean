/-!
# Stable sorting

A stable sort may as well be done after some elements are left out, and rests on nothing but the
order among the elements that are tied with each other.
-/

namespace PackageHistory

variable {α : Type} {le : α → α → Bool}

theorem append_split {p : α → Bool} {xs ys us vs : List α} (h : xs ++ ys = us ++ vs)
    (hxs : ∀ a ∈ xs, p a = true) (hys : ∀ a ∈ ys, ¬ p a = true) (hus : ∀ a ∈ us, p a = true)
    (hvs : ∀ a ∈ vs, ¬ p a = true) : xs = us ∧ ys = vs := by
  have hfirst := congrArg (List.filter p) h
  rw [List.filter_append, List.filter_append, List.filter_eq_self.mpr hxs,
    List.filter_eq_self.mpr hus, List.filter_eq_nil_iff.mpr hys, List.filter_eq_nil_iff.mpr hvs,
    List.append_nil, List.append_nil] at hfirst
  subst hfirst
  exact ⟨rfl, List.append_cancel_left h⟩

theorem filter_mergeSort (htrans : ∀ a b c, le a b = true → le b c = true → le a c = true)
    (htotal : ∀ a b, (le a b || le b a) = true) (p : α → Bool) (xs : List α) :
    (xs.mergeSort le).filter p = (xs.filter p).mergeSort le := by
  induction xs with
  | nil => simp
  | cons a xs ih =>
    obtain ⟨l, r, hsort, hrest, hl⟩ := List.mergeSort_cons htrans htotal a xs
    have hr : ∀ b ∈ r, le a b = true := by
      have hordered := List.pairwise_mergeSort htrans htotal (a :: xs)
      rw [hsort] at hordered
      exact (List.pairwise_cons.mp (List.pairwise_append.mp hordered).2.1).1
    rw [hrest, List.filter_append] at ih
    rw [hsort, List.filter_append]
    by_cases hp : p a = true
    · rw [List.filter_cons_of_pos hp, List.filter_cons_of_pos hp]
      obtain ⟨l', r', hsort', hrest', hl'⟩ := List.mergeSort_cons htrans htotal a (xs.filter p)
      have hr' : ∀ b ∈ r', le a b = true := by
        have hordered := List.pairwise_mergeSort htrans htotal (a :: xs.filter p)
        rw [hsort'] at hordered
        exact (List.pairwise_cons.mp (List.pairwise_append.mp hordered).2.1).1
      rw [hrest'] at ih
      -- On both sides `a` stands behind what it does not come before.
      obtain ⟨hleft, hright⟩ := append_split (p := fun b => !le a b) ih
        (fun b hb => hl b (List.mem_filter.mp hb).1)
        (fun b hb => by simp [hr b (List.mem_filter.mp hb).1]) hl'
        (fun b hb => by simp [hr' b hb])
      rw [hsort', hleft, hright]
    · rw [List.filter_cons_of_neg hp, List.filter_cons_of_neg hp]
      exact ih

/-! ## Ties -/

/-- Neither of two elements comes before the other. -/
def tied (le : α → α → Bool) (a b : α) : Bool := le a b && le b a

/-- Ordered lists are equal when they have the same elements in each tie, in the same order. -/
theorem eq_of_ties (hrefl : ∀ a, le a a = true) {xs ys : List α}
    (hxs : xs.Pairwise fun a b => le a b = true) (hys : ys.Pairwise fun a b => le a b = true)
    (h : ∀ a, xs.filter (tied le a) = ys.filter (tied le a)) : xs = ys := by
  have hself (a : α) : tied le a a = true := by simp [tied, hrefl]
  have hmem (a : α) {us vs : List α} (h : us.filter (tied le a) = vs.filter (tied le a))
      (ha : a ∈ us) : a ∈ vs := by
    have hin : a ∈ us.filter (tied le a) := List.mem_filter.mpr ⟨ha, hself a⟩
    rw [h] at hin
    exact (List.mem_filter.mp hin).1
  induction xs generalizing ys with
  | nil =>
    cases ys with
    | nil => rfl
    | cons b ys => cases hmem b (h b).symm List.mem_cons_self
  | cons a xs ih =>
    cases ys with
    | nil => cases hmem a (h a) List.mem_cons_self
    | cons b ys =>
      obtain ⟨ha, hxs'⟩ := List.pairwise_cons.mp hxs
      obtain ⟨hb, hys'⟩ := List.pairwise_cons.mp hys
      -- Each head is somewhere in the other list, so they are tied, and first of their tie.
      have hba : le b a = true := by
        rcases List.mem_cons.mp (hmem a (h a) List.mem_cons_self) with rfl | hin
        · exact hrefl a
        · exact hb a hin
      have hab : le a b = true := by
        rcases List.mem_cons.mp (hmem b (h b).symm List.mem_cons_self) with rfl | hin
        · exact hrefl b
        · exact ha b hin
      have hheads := h a
      rw [List.filter_cons_of_pos (hself a),
        List.filter_cons_of_pos (show tied le a b = true by simp [tied, hab, hba])] at hheads
      obtain rfl := (List.cons.inj hheads).1
      congr 1
      refine ih hxs' hys' fun c => ?_
      have hc := h c
      by_cases hca : tied le c a = true
      · rw [List.filter_cons_of_pos hca, List.filter_cons_of_pos hca] at hc
        exact (List.cons.inj hc).2
      · rwa [List.filter_cons_of_neg hca, List.filter_cons_of_neg hca] at hc

/-- Where no element is tied with another, what is tied with `a` rests on membership alone. -/
theorem filter_tied_congr (htrans : ∀ a b c, le a b = true → le b c = true → le a c = true)
    {xs ys : List α} (hxs : xs.Pairwise fun a b => ¬ tied le a b = true)
    (hys : ys.Pairwise fun a b => ¬ tied le a b = true) (hmem : ∀ a, a ∈ xs ↔ a ∈ ys) (a : α) :
    xs.filter (tied le a) = ys.filter (tied le a) := by
  have hpair {b c : α} (hb : tied le a b = true) (hc : tied le a c = true) :
      tied le b c = true := by
    rw [tied, Bool.and_eq_true] at hb hc ⊢
    exact ⟨htrans b a c hb.2 hc.1, htrans c a b hc.2 hb.1⟩
  have hshort {us : List α} (hus : us.Pairwise fun a b => ¬ tied le a b = true) :
      us.filter (tied le a) = [] ∨ ∃ b, us.filter (tied le a) = [b] := by
    have hpairwise := hus.filter (tied le a)
    have htied : ∀ b ∈ us.filter (tied le a), tied le a b = true :=
      fun b hb => (List.mem_filter.mp hb).2
    match hfilter : us.filter (tied le a) with
    | [] => exact .inl rfl
    | [b] => exact .inr ⟨b, rfl⟩
    | b :: c :: rest =>
      rw [hfilter] at hpairwise htied
      exact absurd (hpair (htied b (by simp)) (htied c (by simp)))
        ((List.pairwise_cons.mp hpairwise).1 c (by simp))
  have hiff (b : α) : b ∈ xs.filter (tied le a) ↔ b ∈ ys.filter (tied le a) := by
    rw [List.mem_filter, List.mem_filter, hmem]
  rcases hshort hxs with hx | ⟨b, hx⟩ <;> rcases hshort hys with hy | ⟨c, hy⟩ <;>
    rw [hx, hy] at hiff ⊢
  · exact absurd ((hiff c).mpr (by simp)) (by simp)
  · exact absurd ((hiff b).mp (by simp)) (by simp)
  · rw [List.mem_singleton.mp ((hiff b).mp (by simp))]

theorem mergeSort_congr (htrans : ∀ a b c, le a b = true → le b c = true → le a c = true)
    (htotal : ∀ a b, (le a b || le b a) = true) {xs ys : List α}
    (h : ∀ a, xs.filter (tied le a) = ys.filter (tied le a)) :
    xs.mergeSort le = ys.mergeSort le := by
  refine eq_of_ties (fun a => by simpa using htotal a a) (List.pairwise_mergeSort htrans htotal xs)
    (List.pairwise_mergeSort htrans htotal ys) fun a => ?_
  rw [filter_mergeSort htrans htotal, filter_mergeSort htrans htotal, h]

end PackageHistory
