import PackageHistory.Proofs.Cpv
import PackageHistory.Proofs.Merge.Latest

/-!
# Merging by key and by identity

A merge may keep, by the text of package version and status, which record it put last, and take that very
record away when the text comes again. It comes to the same as a merge that marks new records and goes by
their versions: no two package versions have one text, and records from before the range are never the one
that was put.
-/

namespace PackageHistory

/-- The text of a package version and a status. -/
def Change.keyOf (cpv : Cpv) (s : Status) : Text := cpv.text ++ ':' :: s.text

theorem Change.keyOf_injective {a b : Cpv} {s t : Status} (h : keyOf a s = keyOf b t) :
    a = b ∧ s = t := by
  obtain ⟨htext, hstatus⟩ := List.append_inj' h rfl
  exact ⟨Cpv.text_injective htext, Status.text_injective (List.cons.inj hstatus).2⟩

/-- A record of a list; one that the range put there has the number of the change that did. -/
structure Held where
  record : Record
  origin : Option Nat

namespace Held

def mark (x : Held) : Marked := ⟨x.record, x.origin.isSome⟩

/-- Takes away the record that a change put there, and none else. -/
def drop (earlier : Option Nat) (held : List Held) : List Held :=
  match earlier with
  | some i => held.eraseP fun x => x.origin = some i
  | none => held

/-- No change put two records there. -/
def Once (held : List Held) : Prop :=
  held.Pairwise fun a b => a.origin.isSome → a.origin ≠ b.origin

theorem drop_eq_filter {held : List Held} (h : Once held) (earlier : Option Nat) :
    drop earlier held = held.filter fun x => x.origin.isNone || x.origin ≠ earlier := by
  cases earlier with
  | none =>
    refine (List.filter_eq_self.mpr fun x _ => ?_).symm
    cases x.origin <;> rfl
  | some i =>
    show held.eraseP (fun x => x.origin = some i) = _
    induction held with
    | nil => rfl
    | cons x rest ih =>
      obtain ⟨hx, hrest⟩ := List.pairwise_cons.mp h
      by_cases hi : x.origin = some i
      · -- The rest has no other record of the same change.
        rw [List.eraseP_cons_of_pos (by simpa using hi), List.filter_cons_of_neg (by simp [hi])]
        refine (List.filter_eq_self.mpr fun y hy => ?_).symm
        have hne := hx y hy (by simp [hi])
        rw [hi] at hne
        simp [hne.symm]
      · rw [List.eraseP_cons_of_neg (by simpa using hi), List.filter_cons_of_pos (by simp [hi]),
          ih hrest]

end Held

/-- A range while it is merged by keys. -/
structure Keyed where
  tree : Tree Held
  /-- By key, the number of the change whose record was put last. -/
  seen : OrderedMap Text Nat
  /-- How many changes were merged. -/
  count : Nat

namespace Keyed

def start (h : History) : Keyed := ⟨h.records.mapAll fun r => ⟨r, none⟩, .empty, 0⟩

/-- Takes away the record last put for the key of a change and puts its own at the end. -/
def put (isLocal : Bool) (h : History) (k : Keyed) (x : Change) : Keyed where
  tree := k.tree.alter x.cpv.category x.cpv.package x.status fun held =>
    Held.drop (k.seen.get? (Change.keyOf x.cpv x.status)) held ++
      [⟨History.recordOf isLocal (h.seqOf x.index) x, some k.count⟩]
  seen := k.seen.insert (Change.keyOf x.cpv x.status) k.count
  count := k.count + 1

def run (isLocal : Bool) (h : History) (changes : List Change) : Keyed :=
  changes.foldl (put isLocal h) (start h)

/-! ## What a run keeps -/

/-- The keys lead to records of their own, and every record of the range is the one its key leads to. -/
structure Consistent (k : Keyed) : Prop where
  below : ∀ key i, k.seen.get? key = some i → i < k.count
  apart : ∀ key key' i, k.seen.get? key = some i → k.seen.get? key' = some i → key = key'
  found : ∀ c p s, ∀ x ∈ k.tree.list c p s, ∀ i, x.origin = some i → ∃ cpv : Cpv,
    cpv.category = c ∧ cpv.package = p ∧ cpv.fullver = x.record.version ∧
      k.seen.get? (Change.keyOf cpv s) = some i
  once : ∀ c p s, Held.Once (k.tree.list c p s)

variable {isLocal : Bool} {h : History} {k : Keyed}

theorem consistent_start (h : History) : Consistent (start h) where
  below _ _ hseen := by cases hseen
  apart _ _ _ hseen := by cases hseen
  found c p s x hx i hi := by
    rw [start, Tree.list_mapAll] at hx
    obtain ⟨r, -, rfl⟩ := List.mem_map.mp hx
    cases hi
  once c p s := by
    rw [start, Tree.list_mapAll]
    refine List.pairwise_map.mpr (List.pairwise_of_forall fun a b => ?_)
    nofun

/-- Of the records at the place of a change, its key leads to the one of the range with its version. -/
theorem Consistent.origin_eq_iff (hk : k.Consistent) {x : Change} {y : Held} {i : Nat}
    (hy : y ∈ k.tree.list x.cpv.category x.cpv.package x.status) (hi : y.origin = some i) :
    k.seen.get? (Change.keyOf x.cpv x.status) = some i ↔ y.record.version = x.cpv.fullver := by
  obtain ⟨cpv, hc, hp, hversion, hseen⟩ := hk.found _ _ _ y hy i hi
  constructor
  · intro h
    obtain ⟨rfl, -⟩ := Change.keyOf_injective (hk.apart _ _ _ hseen h)
    exact hversion.symm
  · intro h
    rw [← Cpv.eq_of_parts hc hp (hversion.trans h)]
    exact hseen

theorem list_put (k : Keyed) (x : Change) (c p : Text) (s : Status) :
    (k.put isLocal h x).tree.list c p s =
      if x.isAt c p s then
        Held.drop (k.seen.get? (Change.keyOf x.cpv x.status)) (k.tree.list c p s) ++
          [⟨History.recordOf isLocal (h.seqOf x.index) x, some k.count⟩]
      else k.tree.list c p s := by
  rw [put, Tree.list_alter]
  simp only [Change.isAt, decide_eq_true_eq]

theorem get?_seen_put (k : Keyed) (x : Change) (key : Text) : (k.put isLocal h x).seen.get? key =
    if key = Change.keyOf x.cpv x.status then some k.count else k.seen.get? key :=
  k.seen.get?_insert ..

theorem Consistent.put (hk : k.Consistent) (x : Change) : (k.put isLocal h x).Consistent where
  below key i hseen := by
    rw [get?_seen_put] at hseen
    show i < k.count + 1
    split at hseen
    · cases hseen
      omega
    · have hlt := hk.below key i hseen
      omega
  apart key key' i hseen hseen' := by
    rw [get?_seen_put] at hseen hseen'
    split at hseen <;> split at hseen'
    · next hkey hkey' => rw [hkey, hkey']
    · cases hseen
      exact absurd (hk.below _ _ hseen') (Nat.lt_irrefl _)
    · cases hseen'
      exact absurd (hk.below _ _ hseen) (Nat.lt_irrefl _)
    · exact hk.apart _ _ _ hseen hseen'
  found c p s y hy i hi := by
    rw [list_put] at hy
    split at hy
    · next hx =>
      obtain ⟨rfl, rfl, rfl⟩ := Change.isAt_iff.mp hx
      rw [Held.drop_eq_filter (hk.once _ _ _)] at hy
      rcases List.mem_append.mp hy with hy | hy
      · obtain ⟨hmem, hkept⟩ := List.mem_filter.mp hy
        obtain ⟨cpv, hc, hp, hversion, hseen⟩ := hk.found _ _ _ y hmem i hi
        refine ⟨cpv, hc, hp, hversion, ?_⟩
        rw [get?_seen_put, if_neg]
        · exact hseen
        · -- The record that the key of `x` leads to was dropped.
          intro hkey
          rw [hkey] at hseen
          simp [hi, hseen] at hkept
      · rw [List.mem_singleton.mp hy] at hi ⊢
        cases hi
        refine ⟨x.cpv, rfl, rfl, rfl, ?_⟩
        rw [get?_seen_put, if_pos rfl]
    · next hx =>
      obtain ⟨cpv, hc, hp, hversion, hseen⟩ := hk.found c p s y hy i hi
      refine ⟨cpv, hc, hp, hversion, ?_⟩
      rw [get?_seen_put, if_neg]
      · exact hseen
      · intro hkey
        obtain ⟨rfl, rfl⟩ := Change.keyOf_injective hkey
        exact hx (Change.isAt_iff.mpr ⟨hc, hp, rfl⟩)
  once c p s := by
    rw [list_put]
    split
    · rw [Held.drop_eq_filter (hk.once _ _ _)]
      refine List.pairwise_append.mpr ⟨(hk.once c p s).filter _, List.pairwise_singleton _ _, ?_⟩
      intro a ha b hb hsome
      obtain ⟨i, hi⟩ := Option.isSome_iff_exists.mp hsome
      obtain ⟨cpv, -, -, -, hseen⟩ := hk.found c p s a (List.mem_filter.mp ha).1 i hi
      have hlt := hk.below _ i hseen
      rw [List.mem_singleton.mp hb, hi]
      intro heq
      cases heq
      exact absurd hlt (Nat.lt_irrefl _)
    · exact hk.once c p s

/-! ## The merge that marks -/

/-- Where keys lead to their own records, taking one away is to leave out the new one of the version. -/
theorem map_mark_drop (hk : k.Consistent) (x : Change) :
    (Held.drop (k.seen.get? (Change.keyOf x.cpv x.status))
        (k.tree.list x.cpv.category x.cpv.package x.status)).map Held.mark =
      ((k.tree.list x.cpv.category x.cpv.package x.status).map Held.mark).filter
        fun m => !(m.isNew && m.record.version = x.cpv.fullver) := by
  rw [Held.drop_eq_filter (hk.once _ _ _), List.filter_map]
  congr 1
  apply List.filter_congr
  intro y hy
  show _ = !(y.origin.isSome && decide (y.record.version = x.cpv.fullver))
  cases hi : y.origin with
  | none => rfl
  | some i =>
    have hiff := hk.origin_eq_iff hy hi
    simp [← hiff, eq_comm]

theorem mapAll_mark_put (hk : k.Consistent) (x : Change) :
    (k.put isLocal h x).tree.mapAll Held.mark =
      History.mergeChange isLocal (h.seqOf x.index) (k.tree.mapAll Held.mark) x := by
  apply Tree.ext
  · rw [Tree.shape_mapAll, put, Tree.shape_alter, History.mergeChange, Tree.shape_alter, Tree.shape_mapAll]
  · intro c p s
    rw [Tree.list_mapAll, list_put, History.mergeChange, Tree.list_alter, Tree.list_mapAll]
    by_cases hx : x.isAt c p s = true
    · obtain ⟨rfl, rfl, rfl⟩ := Change.isAt_iff.mp hx
      rw [if_pos hx, if_pos rfl, List.map_append, map_mark_drop hk]
      rfl
    · rw [if_neg hx, if_neg (by simpa [Change.isAt] using hx)]

variable (isLocal h) in
theorem mapAll_mark_foldl (hk : k.Consistent) (changes : List Change) :
    (changes.foldl (put isLocal h) k).tree.mapAll Held.mark =
      changes.foldl (fun t x => History.mergeChange isLocal (h.seqOf x.index) t x)
        (k.tree.mapAll Held.mark) := by
  induction changes generalizing k with
  | nil => rfl
  | cons x rest ih =>
    rw [List.foldl_cons, ih (hk.put x), mapAll_mark_put hk]
    rfl

/-- A merge by keys and identities leaves the records of one by marks and versions. -/
theorem records_run (isLocal : Bool) (h : History) (entries : List LogEntry) :
    (run isLocal h (Change.ofEntries isLocal entries)).tree.mapAll Held.record =
      (h.merge isLocal entries).records := by
  have hrun := mapAll_mark_foldl isLocal h (consistent_start h) (Change.ofEntries isLocal entries)
  have hstart : (start h).tree.mapAll Held.mark = h.records.mapAll Marked.old :=
    Tree.mapAll_mapAll ..
  rw [hstart] at hrun
  rw [History.merge, History.foldl_mergeEntry, History.numbered_eq, List.foldl_map, ← hrun,
    Tree.mapAll_mapAll]
  rfl

end Keyed

end PackageHistory
