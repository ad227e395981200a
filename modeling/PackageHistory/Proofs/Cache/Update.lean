import PackageHistory.Cache.Refresh
import PackageHistory.Proofs.Action
import PackageHistory.Proofs.Log.Pieces
import PackageHistory.Proofs.Merge
import PackageHistory.Proofs.Number

/-!
# Merging a log in pieces

A range may be merged whole or in pieces that begin with a commit. Either way the history has the
same places, counts and records, except for the records of a piece whose version changes to the same
status in a later one: only the merge of the whole takes them away.
-/

namespace PackageHistory

/-! ## Merging logs -/

namespace History

variable (isLocal : Bool) (h : History)

/-- The history with the commits of a log added. -/
def mergeLog (lines : List Text) : History := h.merge isLocal (Log.itemsOf lines)

/-- What a log adds to the list at a place. -/
def addedBy (lines : List Text) (c p : Text) (s : Status) : List Record :=
  ((h.mergeLog isLocal lines).records.list c p s).drop (h.records.list c p s).length

/-- Whether a log has a change of this version to this status. -/
def occurs (lines : List Text) (c p version : Text) (s : Status) : Bool :=
  (Log.itemsOf lines).any fun e => (Change.ofEntry isLocal e).any fun change =>
    change.isAt c p s && change.cpv.fullver = version

/-- What pieces add one after the other. -/
def addedByEach (c p : Text) (s : Status) : History → List (List Text) → List Record
  | _, [] => []
  | h, piece :: rest =>
    h.addedBy isLocal piece c p s ++ addedByEach c p s (h.mergeLog isLocal piece) rest

/-- What pieces add one after the other, but for the versions that occur in later ones. -/
def lasting (c p : Text) (s : Status) : History → List (List Text) → List Record
  | _, [] => []
  | h, piece :: rest =>
    (h.addedBy isLocal piece c p s).filter
        (fun r => !rest.any fun later => occurs isLocal later c p r.version s)
      ++ lasting c p s (h.mergeLog isLocal piece) rest

variable {isLocal h}

theorem addedBy_eq (lines : List Text) (c p : Text) (s : Status) :
    h.addedBy isLocal lines c p s =
      lastOfEach (h.recordsAt isLocal (Log.itemsOf lines) c p s) := by
  rw [addedBy, mergeLog, list_merge, List.drop_left]

theorem list_mergeLog (lines : List Text) (c p : Text) (s : Status) :
    (h.mergeLog isLocal lines).records.list c p s =
      h.records.list c p s ++ h.addedBy isLocal lines c p s := by
  rw [addedBy_eq, mergeLog, list_merge]

theorem occurs_iff {lines : List Text} {c p v : Text} {s : Status} :
    occurs isLocal lines c p v s = true ↔
      v ∈ (h.recordsAt isLocal (Log.itemsOf lines) c p s).map Record.version := by
  simp only [occurs, List.any_eq_true, Bool.and_eq_true, decide_eq_true_eq, List.mem_map,
    mem_recordsAt]
  constructor
  · rintro ⟨e, he, change, hchange, hat, rfl⟩
    exact ⟨_, ⟨e, he, change, hchange, hat, rfl⟩, rfl⟩
  · rintro ⟨_, ⟨e, he, change, hchange, hat, rfl⟩, rfl⟩
    exact ⟨e, he, change, hchange, hat, rfl⟩

/-! ## Two pieces, and any number -/

section Pieces

variable {n : Int} {piece : List Text} {rest : List (List Text)}

theorem occurs_flatten {pieces : List (List Text)} (hcut : Log.IsCut pieces) {c p v : Text}
    {s : Status} :
    occurs isLocal pieces.flatten c p v s = pieces.any fun later => occurs isLocal later c p v s := by
  induction pieces with
  | nil => rfl
  | cons piece rest ih =>
    rw [List.any_cons, ← ih hcut.tail]
    simp only [occurs, hcut.itemsOf_flatten, List.any_append, List.any_map, Function.comp_def,
      Change.ofEntry_shift]
    rfl

theorem commitCount_mergeLog (hcount : h.commitCount = .integer n) (hlow : -2 ^ 53 < n)
    (hhigh : n + (Log.itemsOf piece).length < 2 ^ 53) :
    (h.mergeLog isLocal piece).commitCount = .integer (n + (Log.itemsOf piece).length) := by
  show h.commitCount.plus (Log.itemsOf piece).length = _
  rw [hcount, Number.integer_plus (by omega)]

/-- The ordinals that a piece gives to its commits are those they have in the whole. -/
theorem recordsAt_cut (hcut : Log.IsCut (piece :: rest)) (hcount : h.commitCount = .integer n)
    (hlow : -2 ^ 53 < n) (hhigh : n + (Log.itemsOf (piece :: rest).flatten).length < 2 ^ 53)
    (c p : Text) (s : Status) :
    h.recordsAt isLocal (Log.itemsOf (piece :: rest).flatten) c p s =
      h.recordsAt isLocal (Log.itemsOf piece) c p s ++
        (h.mergeLog isLocal piece).recordsAt isLocal (Log.itemsOf rest.flatten) c p s := by
  rw [hcut.itemsOf_flatten, List.length_append, List.length_map] at hhigh
  rw [hcut.itemsOf_flatten, recordsAt_append]
  congr 1
  apply recordsAt_shift
  intro e he
  have hindex : e.index < (Log.itemsOf rest.flatten).length := by
    rw [Log.itemsOf, Log.items_eq_enumerate, LogEntry.mem_enumerate] at he
    obtain ⟨hlt, -⟩ := List.getElem?_eq_some_iff.mp he
    simpa [Log.itemsOf] using hlt
  rw [seqOf, seqOf, commitCount_mergeLog hcount hlow (by omega), hcount,
    Number.integer_plus (by omega), Number.integer_plus (by omega)]
  congr 1
  push_cast
  omega

theorem commitCount_cut (hcut : Log.IsCut (piece :: rest)) (hcount : h.commitCount = .integer n)
    (hlow : -2 ^ 53 < n) (hhigh : n + (Log.itemsOf (piece :: rest).flatten).length < 2 ^ 53) :
    (h.mergeLog isLocal (piece :: rest).flatten).commitCount =
      ((h.mergeLog isLocal piece).mergeLog isLocal rest.flatten).commitCount := by
  have hlen := congrArg List.length hcut.itemsOf_flatten
  rw [List.length_append, List.length_map] at hlen
  have hfirst : (h.mergeLog isLocal piece).commitCount = _ :=
    commitCount_mergeLog hcount hlow (by omega)
  rw [commitCount_mergeLog hcount hlow hhigh, commitCount_mergeLog hfirst (by omega) (by omega), hlen]
  congr 1
  push_cast
  omega

theorem shape_cut (hcut : Log.IsCut (piece :: rest)) :
    (h.mergeLog isLocal (piece :: rest).flatten).records.shape =
      ((h.mergeLog isLocal piece).mergeLog isLocal rest.flatten).records.shape := by
  simp only [mergeLog, shape_merge, hcut.itemsOf_flatten, List.flatMap_append, List.foldl_append,
    List.flatMap_map, Change.ofEntry_shift]
  simp only [List.flatMap_def, List.foldl_flatten, List.foldl_map, List.foldl_map]
  rfl

theorem list_foldl_mergeLog (pieces : List (List Text)) (h : History) (c p : Text) (s : Status) :
    (pieces.foldl (mergeLog isLocal) h).records.list c p s =
      h.records.list c p s ++ addedByEach isLocal c p s h pieces := by
  induction pieces generalizing h with
  | nil => simp [addedByEach]
  | cons piece rest ih =>
    rw [List.foldl_cons, ih, list_mergeLog, addedByEach, List.append_assoc]

theorem list_mergeLog_flatten {pieces : List (List Text)} (hcut : Log.IsCut pieces)
    (hcount : h.commitCount = .integer n) (hlow : -2 ^ 53 < n)
    (hhigh : n + (Log.itemsOf pieces.flatten).length < 2 ^ 53) (c p : Text) (s : Status) :
    (h.mergeLog isLocal pieces.flatten).records.list c p s =
      h.records.list c p s ++ lasting isLocal c p s h pieces := by
  induction pieces generalizing h n with
  | nil => rw [list_mergeLog, addedBy_eq]; rfl
  | cons piece rest ih =>
    have hlen := congrArg List.length hcut.itemsOf_flatten
    rw [List.length_append, List.length_map] at hlen
    have hfirst : (h.mergeLog isLocal piece).commitCount = _ :=
      commitCount_mergeLog hcount hlow (by omega)
    have hlater := ih hcut.tail hfirst (by omega) (by omega)
    rw [list_mergeLog, List.append_cancel_left_eq, addedBy_eq] at hlater
    rw [list_mergeLog, addedBy_eq, recordsAt_cut hcut hcount hlow hhigh, lastOfEach_append, hlater,
      lasting, addedBy_eq]
    congr 2
    apply List.filter_congr
    intro r _
    -- What the rest of the log touches is what one of its pieces does.
    rw [← occurs_flatten hcut.tail, Bool.eq_iff_iff]
    simp only [decide_eq_true_eq, Bool.not_eq_true', ← Bool.not_eq_true]
    rw [occurs_iff (h := h.mergeLog isLocal piece)]

theorem commitCount_mergeLog_flatten {pieces : List (List Text)} (hcut : Log.IsCut pieces)
    (hcount : h.commitCount = .integer n) (hlow : -2 ^ 53 < n)
    (hhigh : n + (Log.itemsOf pieces.flatten).length < 2 ^ 53) :
    (h.mergeLog isLocal pieces.flatten).commitCount =
      (pieces.foldl (mergeLog isLocal) h).commitCount := by
  induction pieces generalizing h n with
  | nil =>
    rw [commitCount_mergeLog hcount hlow hhigh, List.foldl_nil, hcount]
    simp [Log.itemsOf, Log.items_entriesOf, Log.Reader.feedAll, Log.Reader.start, Log.Reader.finish]
  | cons piece rest ih =>
    have hlen := congrArg List.length hcut.itemsOf_flatten
    rw [List.length_append, List.length_map] at hlen
    have hfirst : (h.mergeLog isLocal piece).commitCount = _ :=
      commitCount_mergeLog hcount hlow (by omega)
    rw [commitCount_cut hcut hcount hlow hhigh, List.foldl_cons]
    exact ih hcut.tail hfirst (by omega) (by omega)

theorem shape_mergeLog_flatten {pieces : List (List Text)} (hcut : Log.IsCut pieces) :
    (h.mergeLog isLocal pieces.flatten).records.shape =
      (pieces.foldl (mergeLog isLocal) h).records.shape := by
  induction pieces generalizing h with
  | nil => exact shape_merge isLocal h []
  | cons piece rest ih => rw [shape_cut hcut, List.foldl_cons, ih hcut.tail]

/-- Pieces that have no change of one version to one status in common. -/
def Apart (isLocal : Bool) (pieces : List (List Text)) : Prop :=
  pieces.Pairwise fun earlier later => ∀ c p v s,
    occurs isLocal earlier c p v s = true → occurs isLocal later c p v s = false

theorem lasting_of_apart {pieces : List (List Text)} (hapart : Apart isLocal pieces) (h : History)
    (c p : Text) (s : Status) :
    lasting isLocal c p s h pieces = addedByEach isLocal c p s h pieces := by
  induction pieces generalizing h with
  | nil => rfl
  | cons piece rest ih =>
    obtain ⟨hpiece, hrest⟩ := List.pairwise_cons.mp hapart
    rw [lasting, addedByEach, ih hrest]
    congr 1
    apply List.filter_eq_self.mpr
    intro r hr
    rw [addedBy_eq] at hr
    have hin : occurs isLocal piece c p r.version s = true :=
      occurs_iff.mpr (List.mem_map.mpr ⟨r, (lastOfEach_sublist _).mem hr, rfl⟩)
    have hnot : ∀ later ∈ rest, ¬ occurs isLocal later c p r.version s = true := fun later hl => by
      rw [hpiece later hl c p r.version s hin]
      exact Bool.false_ne_true
    simpa using hnot

end Pieces
end History

/-! ## Updates -/

namespace Cache.Spot

variable (spot : Spot) (range : Text) (h : History) (isLocal : Bool) (w : World)

def logCall : GitCall := ⟨.lines, Log.args range, spot.location⟩

/-- What git answers when it is asked for the log of a range. -/
def logOf : LineSource := w.git.stream w.calls (spot.logCall range)

variable {spot range h isLocal w}

theorem entries_apply : Log.entries spot.location range w =
    (.ok (Log.entriesOf (spot.logOf range w)), w.asked (spot.logCall range)) := rfl

theorem update_of_failure {e : Failure}
    (he : (Log.entriesOf (spot.logOf range w)).failure = some e) :
    spot.update range h isLocal w = (.error e, w.asked (spot.logCall range)) := by
  unfold update
  rw [Action.bind_of_ok entries_apply, he]
  rfl

theorem update_of_read (he : (Log.entriesOf (spot.logOf range w)).failure = none) :
    spot.update range h isLocal w =
      (.ok (h.merge isLocal (Log.entriesOf (spot.logOf range w)).items,
        (Log.entriesOf (spot.logOf range w)).warning), w.asked (spot.logCall range)) := by
  unfold update
  rw [Action.bind_of_ok entries_apply, he]
  rfl

theorem update_of_log {lines : List Text} (hlog : spot.logOf range w = ⟨lines, none⟩)
    (hread : (Log.entriesOf ⟨lines, none⟩).failure = none) :
    spot.update range h isLocal w =
      (.ok (h.mergeLog isLocal lines, none), w.asked (spot.logCall range)) := by
  rw [update_of_read (by rw [hlog, hread]), hlog, Log.warning_entriesOf]
  rfl

end Cache.Spot

/-! ## Updates in pieces -/

namespace Cache

open History

/-- Updates merge logs, and a log merged whole leaves what its pieces leave one after the other,
without the records of a piece whose version changes to the same status in a later one. -/
theorem update_in_pieces {isLocal : Bool} {h : History} {n : Int} {pieces : List (List Text)}
    (hcut : Log.IsCut pieces) (hcount : h.commitCount = .integer n) (hlow : -2 ^ 53 < n)
    (hhigh : n + (Log.itemsOf pieces.flatten).length < 2 ^ 53) :
    (∀ (spot : Spot) (range : Text) (before : History) (w : World) (lines : List Text),
      lines ∈ pieces.flatten :: pieces → spot.logOf range w = ⟨lines, none⟩ →
        (spot.update range before isLocal w).1 = .ok (before.mergeLog isLocal lines, none)) ∧
    (h.mergeLog isLocal pieces.flatten).commitCount =
      (pieces.foldl (mergeLog isLocal) h).commitCount ∧
    (h.mergeLog isLocal pieces.flatten).records.shape =
      (pieces.foldl (mergeLog isLocal) h).records.shape ∧
    (∀ c p s,
      (pieces.foldl (mergeLog isLocal) h).records.list c p s =
        h.records.list c p s ++ addedByEach isLocal c p s h pieces ∧
      (h.mergeLog isLocal pieces.flatten).records.list c p s =
        h.records.list c p s ++ lasting isLocal c p s h pieces) ∧
    (Apart isLocal pieces →
      h.mergeLog isLocal pieces.flatten = pieces.foldl (mergeLog isLocal) h) := by
  have hcommits : (h.mergeLog isLocal pieces.flatten).commitCount = _ :=
    commitCount_mergeLog_flatten hcut hcount hlow hhigh
  have hshape : (h.mergeLog isLocal pieces.flatten).records.shape = _ := shape_mergeLog_flatten hcut
  have hlists (c p s) : (h.mergeLog isLocal pieces.flatten).records.list c p s = _ :=
    list_mergeLog_flatten hcut hcount hlow hhigh c p s
  refine ⟨?_, hcommits, hshape, fun c p s => ⟨list_foldl_mergeLog pieces h c p s, hlists c p s⟩, ?_⟩
  · intro spot range before w lines hlines hlog
    have hread : (Log.entriesOf ⟨lines, none⟩).failure = none := by
      rcases List.mem_cons.mp hlines with rfl | hl
      · exact hcut.failure_flatten
      · exact hcut.read lines hl
    rw [Spot.update_of_log hlog hread]
  · intro hapart
    have hrecords : (h.mergeLog isLocal pieces.flatten).records =
        (pieces.foldl (mergeLog isLocal) h).records := by
      refine Tree.ext hshape fun c p s => ?_
      rw [hlists, list_foldl_mergeLog, lasting_of_apart hapart]
    cases hw : h.mergeLog isLocal pieces.flatten
    cases hp : pieces.foldl (mergeLog isLocal) h
    simp_all

/-- Two commits that change the same file. -/
def changedTwice : List (List Text) :=
  ["1a".toList, "2b".toList].map fun hash => Log.printCommit
    ⟨hash, "2024-01-01".toList, "A <a>".toList, "C <c>".toList, ["m".toList]⟩
    ["M\tsys-apps/foo/foo-1.ebuild".toList]

theorem update_changedTwice :
    Log.IsCut changedTwice ∧
      ((History.empty.mergeLog false changedTwice.flatten).records.list "sys-apps".toList
          "foo".toList .modified).map Record.seq = [1] ∧
      ((changedTwice.foldl (mergeLog false) .empty).records.list "sys-apps".toList "foo".toList
          .modified).map Record.seq = [0, 1] := by
  have hcut : Log.IsCut changedTwice := ⟨by decide +kernel, by decide +kernel⟩
  have hlists (c p s) :
      (changedTwice.foldl (mergeLog false) .empty).records.list c p s = _ ∧
        (History.empty.mergeLog false changedTwice.flatten).records.list c p s = _ :=
    (update_in_pieces (n := 0) hcut rfl (by decide) (by decide +kernel)).2.2.2.1 c p s
  rw [(hlists _ _ _).1, (hlists _ _ _).2]
  exact ⟨hcut, by decide +kernel, by decide +kernel⟩

end Cache
end PackageHistory
