import Mathlib.Data.List.Nodup
import PackageHistory.Text.Units

/-!
# The order of texts

Texts are compared like the ranks of their characters, one by one. The order is total and transitive, and only
equal texts compare equal.
-/

namespace PackageHistory

open Std

/-! ## Orders by keys -/

section Keys

variable {α β : Type} (cmp : β → β → Ordering)

theorem transCmp_on [TransCmp cmp] (f : α → β) : TransCmp fun a b => cmp (f a) (f b) where
  eq_swap := OrientedCmp.eq_swap
  isLE_trans := TransCmp.isLE_trans

/-- What is compared by keys is ordered as they are. -/
theorem transCmp_of_keys [TransCmp cmp] {order : α → α → Ordering} (f : α → β)
    (h : ∀ a b, order a b = cmp (f a) (f b)) : TransCmp order := by
  have horder : order = fun a b => cmp (f a) (f b) := by
    funext a b
    exact h a b
  rw [horder]
  exact transCmp_on cmp f

theorem notBehind_iff {o : Ordering} : (o != .gt) = true ↔ o.isLE = true := by
  cases o <;> decide

theorem notBehind_trans [TransCmp cmp] (a b c : β) (hab : (cmp a b != .gt) = true)
    (hbc : (cmp b c != .gt) = true) : (cmp a c != .gt) = true := by
  rw [notBehind_iff] at *
  exact TransCmp.isLE_trans hab hbc

theorem notBehind_total [OrientedCmp cmp] (a b : β) :
    ((cmp a b != .gt) || (cmp b a != .gt)) = true := by
  have hswap : cmp b a = (cmp a b).swap := OrientedCmp.eq_swap
  rw [hswap]
  cases cmp a b <;> rfl

end Keys

/-! ## Texts -/

theorem unitRank_injective {a b : Char} (h : unitRank a = unitRank b) : a = b := by
  have hvalid (c : Char) : c.toNat < 0xd800 ∨ 0xdfff < c.toNat ∧ c.toNat < 0x110000 := c.valid
  apply Char.toNat_inj.mp
  have ha := hvalid a
  have hb := hvalid b
  unfold unitRank at h
  split at h <;> split at h <;> (try split at h) <;> (try split at h) <;> omega

namespace Text

theorem compare_eq (s t : Text) : compare s t = List.compareLex (compareOn unitRank) s t := by
  induction s generalizing t with
  | nil => cases t <;> rfl
  | cons a s ih =>
    cases t with
    | nil => rfl
    | cons b t =>
      rw [compare, ih, List.compareLex_cons_cons]
      rfl

instance : TransCmp compare := transCmp_of_keys _ id compare_eq

/-- Only equal texts compare equal. -/
theorem eq_of_compare {s t : Text} (h : compare s t = .eq) : s = t := by
  induction s generalizing t with
  | nil =>
    cases t with
    | nil => rfl
    | cons b t => cases h
  | cons a s ih =>
    cases t with
    | nil => cases h
    | cons b t =>
      obtain ⟨hhead, htail⟩ := Ordering.then_eq_eq.mp h
      rw [unitRank_injective (Nat.compare_eq_eq.mp hhead), ih htail]

instance : LawfulEqCmp compare where
  eq_of_compare := eq_of_compare

/-! ## Sorted texts -/

theorem mem_sortDistinct {t : Text} {ts : List Text} : t ∈ sortDistinct ts ↔ t ∈ ts := by
  rw [sortDistinct, List.mem_mergeSort, List.mem_eraseDups]

theorem nodup_eraseDups (ts : List Text) : ts.eraseDups.Nodup := by
  cases ts with
  | nil => simp
  | cons t ts =>
    rw [List.eraseDups_cons, List.nodup_cons]
    refine ⟨?_, nodup_eraseDups _⟩
    rw [List.mem_eraseDups, List.mem_filter]
    simp
termination_by ts.length
decreasing_by
  have hle := List.length_filter_le (fun s => !s == t) ts
  rw [List.length_cons]
  omega

/-- Different texts that are sorted are in strictly ascending order. -/
theorem pairwise_mergeSort {ts : List Text} (hdistinct : ts.Nodup) :
    (ts.mergeSort le).Pairwise fun s t => compare s t = .lt := by
  have hordered : (ts.mergeSort le).Pairwise fun s t => le s t = true :=
    List.pairwise_mergeSort (notBehind_trans compare) (notBehind_total compare) _
  refine hordered.imp₂ ?_ ((List.mergeSort_perm _ _).nodup_iff.mpr hdistinct)
  intro s t hle hne
  rw [le, bne_iff_ne] at hle
  cases h : compare s t with
  | lt => rfl
  | eq => exact absurd (eq_of_compare h) hne
  | gt => exact absurd h hle

theorem pairwise_sortDistinct (ts : List Text) :
    (sortDistinct ts).Pairwise fun s t => compare s t = .lt := pairwise_mergeSort (nodup_eraseDups ts)

end Text

end PackageHistory
