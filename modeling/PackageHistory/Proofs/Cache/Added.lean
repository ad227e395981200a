import PackageHistory.Proofs.Cache.Built
import PackageHistory.Proofs.Merge.Keyed

/-!
# What an update adds

An update leaves what every list holds and puts the records of the latest changes of its log behind it.
Records from before stay, also those that look like new ones, and no package is taken for another.
-/

namespace PackageHistory

/-- What a history becomes when a range is added to it. -/
structure History.GrowsBy (isLocal : Bool) (h : History) (entries : List LogEntry) (merged : History) :
    Prop where
  lists : ∀ c p s, merged.records.list c p s = h.records.list c p s ++
    ((Change.latest (Change.ofEntries isLocal entries)).filter (·.isAt c p s)).map fun x =>
      { version := x.cpv.fullver
        date := x.commit.date
        seq := h.commitCount.plus x.index
        commit := if isLocal then .full x.commit else .hash x.commit.hash
        extra := if isLocal then some (x.extra.getD []) else none }
  indexed : ∀ x ∈ Change.ofEntries isLocal entries, ∃ e, entries[x.index]? = some e ∧
    x ∈ Change.ofEntry isLocal e ∧ x.commit = e.commit
  hasList : ∀ c p s, ((merged.records.statuses? c p).bind (·.get? s)).isSome ↔
    ((h.records.statuses? c p).bind (·.get? s)).isSome ∨
      ∃ x ∈ Change.ofEntries isLocal entries, x.isAt c p s = true
  hasPackage : ∀ c p, (merged.records.statuses? c p).isSome ↔ (h.records.statuses? c p).isSome ∨
    ∃ x ∈ Change.ofEntries isLocal entries, x.cpv.category = c ∧ x.cpv.package = p
  hasCategory : ∀ c, (merged.records.get? c).isSome ↔ (h.records.get? c).isSome ∨
    ∃ x ∈ Change.ofEntries isLocal entries, x.cpv.category = c
  commitCount : merged.commitCount = h.commitCount.plus entries.length
  /-- Records may as well be superseded by the text of their package version and by identity. -/
  keyed : merged.records =
    (Keyed.run isLocal h (Change.ofEntries isLocal entries)).tree.mapAll Held.record

theorem History.growsBy_merge (isLocal : Bool) (h : History) {entries : List LogEntry}
    {commits : List (Commit × List Text)} (hentries : entries = LogEntry.enumerate commits) :
    h.GrowsBy isLocal entries (h.merge isLocal entries) where
  lists := list_merge_latest isLocal h entries
  indexed _ := Change.exists_entry hentries
  hasList := hasList_merge isLocal h entries
  hasPackage := hasPackage_merge isLocal h entries
  hasCategory := hasCategory_merge isLocal h entries
  commitCount := rfl
  keyed := (Keyed.records_run isLocal h entries).symm

namespace Cache

/-- An update whose log can be read adds the commits of the log to the history it is given, whatever that
holds. -/
theorem Spot.update_grows (spot : Spot) (range : Text) (h : History) (isLocal : Bool) (w : World)
    (hread : (Log.entriesOf (spot.logOf range w)).failure = none) :
    ∃ merged, (spot.update range h isLocal w).1 =
        .ok (merged, (Log.entriesOf (spot.logOf range w)).warning) ∧
      h.GrowsBy isLocal (Log.entriesOf (spot.logOf range w)).items merged := by
  refine ⟨h.merge isLocal (Log.entriesOf (spot.logOf range w)).items, ?_, ?_⟩
  · rw [update_of_read hread]
  · exact h.growsBy_merge isLocal (Log.items_eq_enumerate _)

/-- The records of two changes that are yet to come. -/
def foreseen : History where
  commitCount := 1
  records := [("1a".toList, 1), ("2b".toList, 2)].foldl (fun t x =>
    t.append "sys-apps".toList "foo".toList .modified
      ⟨"1".toList, "2024-01-01".toList, x.2, .hash x.1, none⟩) .empty

theorem Spot.update_foreseen :
    (Log.entriesOf ⟨changedTwice.flatten, none⟩).failure = none ∧
      ∃ merged, (Spot.update Spot.savedSpot [] foreseen false repeatingWorld).1 = .ok (merged, none) ∧
        (merged.records.list "sys-apps".toList "foo".toList .modified).map Record.seq = [1, 2, 2] ∧
        merged.commitCount = 3 := by
  have hread : (Log.entriesOf ⟨changedTwice.flatten, none⟩).failure = none := by decide +kernel
  obtain ⟨merged, hupdate, hgrows⟩ :=
    update_grows savedSpot [] foreseen false repeatingWorld hread
  refine ⟨hread, merged, hupdate, ?_, ?_⟩
  · rw [hgrows.lists]
    decide +kernel
  · rw [hgrows.commitCount]
    decide +kernel

end Cache

end PackageHistory
