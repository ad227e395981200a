import Mathlib.Data.List.Pairwise
import PackageHistory.History.Merge
import PackageHistory.Proofs.Change
import PackageHistory.Proofs.Log.Pieces
import PackageHistory.Proofs.Tree

/-!
# What merging a range adds

At each place a merge leaves what was there and puts behind it, for each version that changed in the
range, the record of its latest change.
-/

namespace PackageHistory

/-! ## The last record of each version -/

/-- The records whose version does not come again. -/
def lastOfEach (records : List Record) : List Record :=
  records.pwFilter fun a b => a.version ≠ b.version

theorem lastOfEach_nil : lastOfEach [] = [] := rfl

theorem lastOfEach_sublist (records : List Record) : (lastOfEach records).Sublist records :=
  List.pwFilter_sublist records

theorem lastOfEach_pairwise (records : List Record) :
    (lastOfEach records).Pairwise fun a b => a.version ≠ b.version :=
  List.pairwise_pwFilter records

theorem forall_mem_lastOfEach (v : Text) (records : List Record) :
    (∀ r ∈ lastOfEach records, v ≠ r.version) ↔ ∀ r ∈ records, v ≠ r.version := by
  induction records with
  | nil => simp [lastOfEach]
  | cons x rest ih =>
    simp only [lastOfEach] at ih ⊢
    by_cases hx : ∀ r ∈ rest.pwFilter fun a b => a.version ≠ b.version, x.version ≠ r.version
    · rw [List.pwFilter_cons_of_pos hx]
      simp [ih]
    · rw [List.pwFilter_cons_of_neg hx, ih, List.forall_mem_cons]
      refine ⟨fun h => ⟨fun e => ?_, h⟩, And.right⟩
      -- The version of `x` comes again, and `v` is none of those that do.
      apply hx
      have := ih.mpr h
      rwa [e] at this

theorem lastOfEach_cons (x : Record) (rest : List Record) :
    lastOfEach (x :: rest) =
      if x.version ∈ rest.map Record.version then lastOfEach rest else x :: lastOfEach rest := by
  have hiff := forall_mem_lastOfEach x.version rest
  split
  · next hmem =>
    apply List.pwFilter_cons_of_neg
    obtain ⟨r, hr, hv⟩ := List.mem_map.mp hmem
    exact fun h => hiff.mp h r hr hv.symm
  · next hnot =>
    apply List.pwFilter_cons_of_pos
    exact hiff.mpr fun r hr hv => hnot (List.mem_map.mpr ⟨r, hr, hv.symm⟩)

theorem lastOfEach_append (xs ys : List Record) :
    lastOfEach (xs ++ ys) =
      (lastOfEach xs).filter (·.version ∉ ys.map Record.version) ++ lastOfEach ys := by
  induction xs with
  | nil => simp [lastOfEach_nil]
  | cons x xs ih =>
    rw [List.cons_append, lastOfEach_cons, lastOfEach_cons, ih, List.map_append]
    by_cases hxs : x.version ∈ xs.map Record.version
    · simp only [List.mem_append, hxs, true_or, if_true]
    · by_cases hys : x.version ∈ ys.map Record.version
      · rw [if_pos (List.mem_append_right _ hys), if_neg hxs, List.filter_cons_of_neg (by simpa using hys)]
      · rw [if_neg (by simp only [List.mem_append, hxs, hys, or_self, not_false_eq_true]), if_neg hxs,
          List.filter_cons_of_pos (by simpa using hys), List.cons_append]

theorem exists_mem_lastOfEach {records : List Record} {r : Record} (h : r ∈ records) :
    ∃ r' ∈ lastOfEach records, r'.version = r.version := by
  by_contra hne
  refine (forall_mem_lastOfEach r.version records).mp (fun r' hr' e => ?_) r h rfl
  exact hne ⟨r', hr', e.symm⟩

/-- In a list that is ordered, the last record of a version is behind all others of it. -/
theorem rel_of_mem_lastOfEach {R : Record → Record → Prop} (hrefl : ∀ r, R r r)
    {records : List Record} (hordered : records.Pairwise R) {r r' : Record}
    (h : r ∈ lastOfEach records) (h' : r' ∈ records) (hversion : r'.version = r.version) :
    R r' r := by
  induction records with
  | nil => cases h'
  | cons x rest ih =>
    obtain ⟨hx, hrest⟩ := List.pairwise_cons.mp hordered
    rw [lastOfEach_cons] at h
    have hin : r' ∈ rest → r ∈ lastOfEach rest → R r' r := fun hr' hr => ih hrest hr hr'
    split at h
    · rcases List.mem_cons.mp h' with rfl | hr'
      · exact hx r ((lastOfEach_sublist rest).mem h)
      · exact hin hr' h
    · next hnot =>
      rcases List.mem_cons.mp h with rfl | hr
      · rcases List.mem_cons.mp h' with rfl | hr'
        · exact hrefl r'
        · exact absurd (List.mem_map.mpr ⟨r', hr', hversion⟩) hnot
      · rcases List.mem_cons.mp h' with rfl | hr'
        · exact absurd (List.mem_map.mpr ⟨r, (lastOfEach_sublist rest).mem hr, hversion.symm⟩) hnot
        · exact hin hr' hr

/-! ## One place while a range is merged -/

theorem supersede_marked (old xs : List Record) (r : Record) :
    Marked.supersede r (old.map Marked.old ++ (lastOfEach xs).map Marked.new) =
      old.map Marked.old ++ (lastOfEach (xs ++ [r])).map Marked.new := by
  have hold : (old.map Marked.old).filter (fun m => !(m.isNew && m.record.version = r.version)) =
      old.map Marked.old := by
    rw [List.filter_eq_self]
    intro m hm
    obtain ⟨x, -, rfl⟩ := List.mem_map.mp hm
    rfl
  have hnew : ((lastOfEach xs).map Marked.new).filter
        (fun m => !(m.isNew && m.record.version = r.version)) =
      ((lastOfEach xs).filter (·.version ∉ [r].map Record.version)).map Marked.new := by
    rw [List.filter_map]
    congr 1
    apply List.filter_congr
    intro x _
    show (!(true && decide (x.version = r.version))) = decide (x.version ∉ [r].map Record.version)
    simp
  rw [Marked.supersede, List.filter_append, hold, hnew, lastOfEach_append, List.map_append,
    List.append_assoc]
  rfl

theorem foldl_supersede (old xs rs : List Record) :
    rs.foldl (fun l r => Marked.supersede r l)
        (old.map Marked.old ++ (lastOfEach xs).map Marked.new) =
      old.map Marked.old ++ (lastOfEach (xs ++ rs)).map Marked.new := by
  induction rs generalizing xs with
  | nil => simp
  | cons r rs ih => rw [List.foldl_cons, supersede_marked, ih, List.append_assoc, List.singleton_append]

/-! ## The changes of a range -/

namespace Change

def isAt (category package : Text) (status : Status) (change : Change) : Bool :=
  (change.cpv.category, change.cpv.package, change.status) = (category, package, status)

theorem isAt_iff {c p : Text} {s : Status} {change : Change} :
    change.isAt c p s = true ↔
      change.cpv.category = c ∧ change.cpv.package = p ∧ change.status = s := by
  simp [isAt]

/-- The change with its commit at another place of the range. -/
def moved (index : Nat) (change : Change) : Change := { change with index }

theorem ofEntry_shift (isLocal : Bool) (n : Nat) (e : LogEntry) :
    ofEntry isLocal (e.shift n) = (ofEntry isLocal e).map (moved (n + e.index)) := by
  simp only [ofEntry, LogEntry.shift, List.map_flatMap]
  refine List.flatMap_congr fun line _ => ?_
  rw [ofLine_restamped isLocal line e.commit e.commit e.index (n + e.index)]
  refine List.map_congr_left fun x hx => ?_
  rw [moved, (of_mem_ofLine hx).1]

end Change

namespace History

variable (isLocal : Bool) (h : History)

/-- The changes of a range, each with the ordinal of its commit. -/
def numbered (entries : List LogEntry) : List (Number × Change) :=
  entries.flatMap fun e => (Change.ofEntry isLocal e).map fun change => (h.seqOf e.index, change)

/-- The records of all changes of a range at one place. -/
def recordsAt (entries : List LogEntry) (c p : Text) (s : Status) : List Record :=
  ((h.numbered isLocal entries).filter fun x => x.2.isAt c p s).map fun x =>
    recordOf isLocal x.1 x.2

theorem mem_recordsAt {entries : List LogEntry} {c p : Text} {s : Status} {r : Record} :
    r ∈ h.recordsAt isLocal entries c p s ↔ ∃ e ∈ entries, ∃ change ∈ Change.ofEntry isLocal e,
      change.isAt c p s = true ∧ r = recordOf isLocal (h.seqOf e.index) change := by
  simp only [recordsAt, numbered, List.mem_map, List.mem_filter, List.mem_flatMap, Prod.exists]
  constructor
  · rintro ⟨n, change, ⟨⟨e, he, change', hmem, heq⟩, hat⟩, rfl⟩
    obtain ⟨rfl, rfl⟩ := Prod.mk.inj heq
    exact ⟨e, he, change', hmem, hat, rfl⟩
  · rintro ⟨e, he, change, hmem, hat, rfl⟩
    exact ⟨_, change, ⟨⟨e, he, change, hmem, rfl⟩, hat⟩, rfl⟩

theorem recordsAt_append (xs ys : List LogEntry) (c p : Text) (s : Status) :
    h.recordsAt isLocal (xs ++ ys) c p s =
      h.recordsAt isLocal xs c p s ++ h.recordsAt isLocal ys c p s := by
  simp [recordsAt, numbered]

theorem recordsAt_shift {h h' : History} {n : Nat} {entries : List LogEntry}
    (hseq : ∀ e ∈ entries, h.seqOf (n + e.index) = h'.seqOf e.index) (c p : Text) (s : Status) :
    h.recordsAt isLocal (entries.map (LogEntry.shift n)) c p s =
      h'.recordsAt isLocal entries c p s := by
  induction entries with
  | nil => rfl
  | cons e rest ih =>
    have hrest := ih fun e' he' => hseq e' (List.mem_cons_of_mem _ he')
    have hhead : h.recordsAt isLocal [e.shift n] c p s = h'.recordsAt isLocal [e] c p s := by
      simp only [recordsAt, numbered, List.flatMap_cons, List.flatMap_nil, List.append_nil,
        Change.ofEntry_shift, List.map_map, List.filter_map]
      rw [← hseq e List.mem_cons_self]
      rfl
    rw [List.map_cons, ← List.singleton_append, recordsAt_append, hhead, hrest,
      ← recordsAt_append, List.singleton_append]

theorem foldl_mergeEntry (entries : List LogEntry) (t : Tree Marked) :
    entries.foldl (mergeEntry isLocal h) t =
      (h.numbered isLocal entries).foldl (fun t x => mergeChange isLocal x.1 t x.2) t := by
  induction entries generalizing t with
  | nil => rfl
  | cons e rest ih =>
    rw [List.foldl_cons, ih]
    simp only [numbered, List.flatMap_cons, List.foldl_append, List.foldl_map]
    rfl

theorem list_foldl_mergeChange (xs : List (Number × Change)) (t : Tree Marked) (c p : Text)
    (s : Status) :
    (xs.foldl (fun t x => mergeChange isLocal x.1 t x.2) t).list c p s =
      ((xs.filter fun x => x.2.isAt c p s).map fun x => recordOf isLocal x.1 x.2).foldl
        (fun l r => Marked.supersede r l) (t.list c p s) := by
  induction xs generalizing t with
  | nil => rfl
  | cons x xs ih =>
    rw [List.foldl_cons, ih, mergeChange, Tree.list_alter]
    by_cases hx : x.2.isAt c p s
    · rw [List.filter_cons, if_pos hx, if_pos (by simpa [Change.isAt] using hx)]
      rfl
    · rw [List.filter_cons, if_neg hx, if_neg (by simpa [Change.isAt] using hx)]

theorem shape_foldl_mergeChange (xs : List (Number × Change)) (t : Tree Marked) :
    (xs.foldl (fun t x => mergeChange isLocal x.1 t x.2) t).shape =
      (xs.map Prod.snd).foldl
        (fun t x => t.alter x.cpv.category x.cpv.package x.status fun _ => []) t.shape := by
  induction xs generalizing t with
  | nil => rfl
  | cons x xs ih => rw [List.foldl_cons, ih, mergeChange, Tree.shape_alter]; rfl

/-! ## The merged history -/

theorem list_merge (entries : List LogEntry) (c p : Text) (s : Status) :
    (h.merge isLocal entries).records.list c p s =
      h.records.list c p s ++ lastOfEach (h.recordsAt isLocal entries c p s) := by
  have hmarked := foldl_supersede (h.records.list c p s) [] (h.recordsAt isLocal entries c p s)
  simp only [lastOfEach_nil, List.map_nil, List.append_nil, List.nil_append] at hmarked
  rw [merge, Tree.list_mapAll, foldl_mergeEntry, list_foldl_mergeChange, Tree.list_mapAll]
  rw [recordsAt] at hmarked
  rw [hmarked, List.map_append, List.map_map, List.map_map]
  simp [Function.comp_def, Marked.old, Marked.new, recordsAt]

variable {isLocal h} in
theorem forall_mem_merge {P : Record → Prop} {entries : List LogEntry} {c p : Text} {s : Status}
    (hold : ∀ r ∈ h.records.list c p s, P r)
    (hnew : ∀ r ∈ h.recordsAt isLocal entries c p s, P r) :
    ∀ r ∈ (h.merge isLocal entries).records.list c p s, P r := by
  rw [list_merge, List.forall_mem_append]
  exact ⟨hold, fun r hr => hnew r ((lastOfEach_sublist _).mem hr)⟩

/-- The shape of a merged history rests on the places of the changes alone. -/
theorem shape_merge (entries : List LogEntry) :
    (h.merge isLocal entries).records.shape =
      (entries.flatMap (Change.ofEntry isLocal)).foldl
        (fun t x => t.alter x.cpv.category x.cpv.package x.status fun _ => []) h.records.shape := by
  rw [merge, Tree.shape_mapAll, foldl_mergeEntry, shape_foldl_mergeChange, Tree.shape_mapAll]
  congr 1
  simp [numbered, List.map_flatMap, Function.comp_def]

end History

end PackageHistory
