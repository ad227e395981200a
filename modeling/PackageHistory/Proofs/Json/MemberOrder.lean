import PackageHistory.Json.Basic
import PackageHistory.Proofs.OrderedMap
import PackageHistory.Proofs.StableSort

/-! # The order of members: what it keeps, and that ordering twice changes nothing -/

namespace PackageHistory.Json

variable {α β : Type}

/-- The members that are array indices, each with its index. -/
def indexed (members : List (Text × α)) : List (Nat × Text × α) :=
  members.filterMap fun m => (indexOf? m.1).map fun i => (i, m)

def ascending (members : List (Text × α)) : List (Nat × Text × α) :=
  (indexed members).mergeSort fun a b => a.1 ≤ b.1

theorem memberOrder_eq (members : List (Text × α)) :
    memberOrder members =
      (ascending members).map Prod.snd ++ members.filter fun m => (indexOf? m.1).isNone := rfl

theorem mem_indexed {members : List (Text × α)} {x : Nat × Text × α} (h : x ∈ indexed members) :
    indexOf? x.2.1 = some x.1 := by
  obtain ⟨m, -, hm⟩ := List.mem_filterMap.mp h
  rw [Option.map_eq_some_iff] at hm
  obtain ⟨i, hi, rfl⟩ := hm
  exact hi

theorem memberOrder_perm (members : List (Text × α)) : (memberOrder members).Perm members := by
  have hindexed : (indexed members).map Prod.snd =
      members.filter fun m => !(indexOf? m.1).isNone := by
    induction members with
    | nil => rfl
    | cons m rest ih =>
      rw [indexed] at ih ⊢
      cases hi : indexOf? m.1 <;> simpa [hi] using ih
  have hsorted : ((ascending members).map Prod.snd).Perm ((indexed members).map Prod.snd) :=
    (List.mergeSort_perm _ _).map _
  rw [memberOrder_eq]
  refine (hsorted.append_right _).trans ?_
  rw [hindexed]
  exact List.perm_append_comm.trans (List.filter_append_perm _ members)

theorem memberOrder_map (f : α → β) (members : List (Text × α)) :
    memberOrder (members.map fun m => (m.1, f m.2)) =
      (memberOrder members).map fun m => (m.1, f m.2) := by
  have hindexed : indexed (members.map fun m => (m.1, f m.2)) =
      (indexed members).map fun x => (x.1, x.2.1, f x.2.2) := by
    rw [indexed, indexed, List.filterMap_map, List.map_filterMap]
    congr 1
    funext m
    cases h : indexOf? m.1 <;> simp [h]
  have hsorted : ascending (members.map fun m => (m.1, f m.2)) =
      (ascending members).map fun x => (x.1, x.2.1, f x.2.2) := by
    rw [ascending, ascending, hindexed]
    exact (List.map_mergeSort (s := fun a b : Nat × Text × β => decide (a.1 ≤ b.1))
      fun _ _ _ _ => rfl).symm
  rw [memberOrder_eq, memberOrder_eq, hsorted, List.map_append, List.map_map, List.map_map,
    List.filter_map]
  rfl

/-- Members that are no array indices stay in their order. -/
theorem memberOrder_of_names {members : List (Text × α)} (h : ∀ m ∈ members, indexOf? m.1 = none) :
    memberOrder members = members := by
  have hnone : indexed members = [] := by
    rw [indexed, List.filterMap_eq_nil_iff]
    intro m hm
    simp [h m hm]
  rw [memberOrder_eq, ascending, hnone, List.mergeSort_nil, List.map_nil, List.nil_append,
    List.filter_eq_self]
  intro m hm
  simp [h m hm]

theorem memberOrder_memberOrder (members : List (Text × α)) :
    memberOrder (memberOrder members) = memberOrder members := by
  have hmem : ∀ x ∈ ascending members, indexOf? x.2.1 = some x.1 := fun x hx =>
    mem_indexed ((List.mergeSort_perm _ _).mem_iff.mp hx)
  have hindexed : indexed (memberOrder members) = ascending members := by
    have hfirst : ∀ xs : List (Nat × Text × α), (∀ x ∈ xs, indexOf? x.2.1 = some x.1) →
        indexed (xs.map Prod.snd) = xs := by
      intro xs hxs
      induction xs with
      | nil => rfl
      | cons x xs ih =>
        have hx := hxs x List.mem_cons_self
        have hrest := ih fun y hy => hxs y (List.mem_cons_of_mem _ hy)
        rw [indexed] at hrest ⊢
        simp [hx, hrest]
    have hsecond : indexed (members.filter fun m => (indexOf? m.1).isNone) = [] := by
      rw [indexed, List.filterMap_eq_nil_iff]
      intro m hm
      simpa using (List.mem_filter.mp hm).2
    rw [memberOrder_eq]
    show List.filterMap _ (_ ++ _) = _
    rw [List.filterMap_append]
    show indexed _ ++ indexed _ = _
    rw [hfirst _ hmem, hsecond, List.append_nil]
  have hsorted : ascending (memberOrder members) = ascending members := by
    rw [ascending, hindexed]
    apply List.mergeSort_of_pairwise
    exact List.pairwise_mergeSort (fun a b c hab hbc => by simp at *; omega)
      (fun a b => by simp; omega) _
  rw [memberOrder_eq (memberOrder members), hsorted, memberOrder_eq members, List.filter_append]
  congr 1
  have hnone : ((ascending members).map Prod.snd).filter (fun m => (indexOf? m.1).isNone) = [] := by
    rw [List.filter_eq_nil_iff]
    intro m hm
    obtain ⟨x, hx, rfl⟩ := List.mem_map.mp hm
    simp [hmem x hx]
  rw [hnone, List.nil_append, List.filter_filter]
  simp

theorem memberOrder_filter (p : Text × α → Bool) (members : List (Text × α)) :
    memberOrder (members.filter p) = (memberOrder members).filter p := by
  have hindexed : indexed (members.filter p) = (indexed members).filter fun x => p x.2 := by
    rw [indexed, indexed, List.filterMap_filter, List.filter_filterMap]
    congr 1
    funext m
    cases hi : indexOf? m.1 <;> by_cases hm : p m = true <;> simp [hm, Option.filter]
  have hsorted : ascending (members.filter p) = (ascending members).filter fun x => p x.2 := by
    rw [ascending, ascending, hindexed]
    exact (filter_mergeSort (fun a b c hab hbc => by simp at *; omega) (fun a b => by simp; omega)
      _ _).symm
  rw [memberOrder_eq, memberOrder_eq, hsorted, List.filter_append, List.filter_map,
    List.filter_filter, List.filter_filter]
  simp only [Bool.and_comm]
  rfl

/-! ## Members in order -/

/-- The names are all different, and the members in the order they are gone through. -/
structure InOrder {α : Type} (members : List (Text × α)) : Prop where
  nodup : (Entries.keys members).Nodup
  order : memberOrder members = members

/-- The order rests on the names alone. -/
theorem InOrder.of_keys {α β : Type} {xs : List (Text × α)} {ys : List (Text × β)}
    (h : InOrder ys) (hkeys : Entries.keys xs = Entries.keys ys) : InOrder xs := by
  refine ⟨hkeys ▸ h.nodup, ?_⟩
  have hbare : xs.map (fun x => (x.1, ())) = ys.map fun y => (y.1, ()) := by
    have hmap := congrArg (List.map fun k => (k, ())) hkeys
    simpa [Entries.keys, Function.comp_def] using hmap
  have hnames : Entries.keys (memberOrder xs) = Entries.keys xs := by
    have horder : (memberOrder xs).map (fun x => (x.1, ())) = xs.map fun x => (x.1, ()) := by
      rw [← memberOrder_map (fun _ => ()), hbare, memberOrder_map (fun _ => ()), h.order]
    have hmap := congrArg (List.map Prod.fst) horder
    simpa [Entries.keys, Function.comp_def] using hmap
  have hnodup : (Entries.keys (memberOrder xs)).Nodup := by
    rw [hnames, hkeys]
    exact h.nodup
  refine Entries.eq_of_lookup_eq hnodup hnames fun k => Option.ext fun a => ?_
  rw [Entries.lookup_eq_some_iff hnodup, Entries.lookup_eq_some_iff (hkeys ▸ h.nodup),
    (memberOrder_perm xs).mem_iff]

theorem InOrder.filter {members : List (Text × α)} (h : InOrder members) (p : Text × α → Bool) :
    InOrder (members.filter p) :=
  ⟨h.nodup.sublist (List.filter_sublist.map _), by rw [memberOrder_filter, h.order]⟩

end PackageHistory.Json
