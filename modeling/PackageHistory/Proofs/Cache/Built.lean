import PackageHistory.Proofs.Cache.Refresh
import PackageHistory.Proofs.Cache.RoundTrip
import PackageHistory.Proofs.Cache.Update
import PackageHistory.Proofs.History.WellFormed
import PackageHistory.Proofs.Number.Exact

/-!
# Histories that caches build

Whatever logs are merged into the empty history, and however often it is saved and read on the way,
the history is well formed.
-/

namespace PackageHistory

open History (WellFormed)

namespace Cache

/-! ## Steps -/

theorem wellFormed_update {spot : Spot} {range : Text} {isLocal : Bool} {h merged : History}
    {warning : Option Text} {w w' : World} (hh : h.WellFormed)
    (hupdate : spot.update range h isLocal w = (.ok (merged, warning), w'))
    (hcount : merged.commitCount ≤ .integer (2 ^ 53 - 1)) : merged.WellFormed := by
  cases hfailure : (Log.entriesOf (spot.logOf range w)).failure with
  | some e =>
    rw [Spot.update_of_failure hfailure] at hupdate
    cases hupdate
  | none =>
    rw [Spot.update_of_read hfailure] at hupdate
    cases hupdate
    obtain ⟨n, -, hn⟩ := hh.count
    have hitems := Log.items_eq_enumerate (spot.logOf range w)
    rw [hitems] at hcount ⊢
    refine hh.merge hn (Number.short_of_plus_le (m := n) ?_)
    rw [← hn, ← LogEntry.length_enumerate]
    exact hcount

theorem isCount_of_wellFormed {h : History} (hh : h.WellFormed) : IsCount h.commitCount ∧
    ∀ c p s, ∀ r ∈ h.records.list c p s, IsCount r.seq := by
  obtain ⟨n, hn, hcount⟩ := hh.count
  refine ⟨⟨n, .of_lt hn, hcount⟩, fun c p s r hr => ?_⟩
  obtain ⟨k, hk⟩ := hh.natural c p s r hr
  have hbelow := hh.below c p s r hr
  rw [hk, hcount, Number.integer_lt_integer] at hbelow
  exact ⟨k, .of_lt (by omega), hk⟩

theorem wellFormed_reload {e : Entry} (hh : e.history.WellFormed) :
    (reload e).history.WellFormed := by
  have hstored {c p s} : ∀ r ∈ (reload e).history.records.list c p s,
      ∃ r' ∈ e.history.records.list c p s, r'.stored = r := by
    intro r hr
    rw [list_reload] at hr
    split at hr
    · cases hr
    · exact List.mem_map.mp hr
  refine ⟨isFull_treeOf _, hh.count, fun c p s r hr => ?_, fun c p s r hr => ?_,
    fun c p s r hr => ?_, fun c p s => ?_, fun c p s => ?_⟩
  · obtain ⟨r', hr', rfl⟩ := hstored r hr
    exact hh.valid c p s r' hr'
  · obtain ⟨r', hr', rfl⟩ := hstored r hr
    exact hh.natural c p s r' hr'
  · obtain ⟨r', hr', rfl⟩ := hstored r hr
    exact hh.below c p s r' hr'
  · rw [list_reload]
    split
    · exact .nil
    · exact List.pairwise_map.mpr (hh.ascending c p s)
  · rw [list_reload]
    split
    · exact .nil
    · exact List.pairwise_map.mpr (hh.strict c p s)

/-! ## Any number of steps -/

/-- The histories that come of the empty one by updates, as long as commits can be counted, and by
saves that are read again. -/
inductive Built : History → Prop where
  | empty : Built .empty
  | update {h merged : History} {warning : Option Text} {w w' : World} (spot : Spot) (range : Text)
      (isLocal : Bool) : Built h → spot.update range h isLocal w = (.ok (merged, warning), w') →
      merged.commitCount ≤ .integer (2 ^ 53 - 1) → Built merged
  | reload {e e' : Entry} {path : Text} {w w' : World} : Built e.history →
      (save path e w).1 = .ok () → w'.disk = (save path e w).2.disk →
      (read path e.schemaVersion w').1 = .ok (some e') → Built e'.history

/-- Nothing in a history that was built is empty. Its records name package versions, with ordinals
below the number of commits, which never go down in a list and go up within one version. -/
theorem wellFormed_of_built {h : History} (hbuilt : Built h) :
    h.records.IsFull ∧
      (∀ c p s, ∀ r ∈ h.records.list c p s, ∃ cpv, Cpv.make c p r.version = .ok cpv) ∧
      (∀ c p s, ∀ r ∈ h.records.list c p s, r.seq < h.commitCount) ∧
      (∀ c p s, (h.records.list c p s).Pairwise fun a b => a.seq ≤ b.seq) ∧
      ∀ c p s, (h.records.list c p s).Pairwise fun a b => a.version = b.version → a.seq < b.seq := by
  have hh : h.WellFormed := by
    induction hbuilt with
    | empty => exact History.wellFormed_empty
    | update spot range isLocal _ hupdate hcount ih => exact wellFormed_update ih hupdate hcount
    | reload _ hsave hdisk hread ih =>
      obtain ⟨hcount, hseqs⟩ := isCount_of_wellFormed ih
      have hfile := read_of_save hsave
      rw [← hdisk] at hfile
      rw [eq_reload_of_read hcount hseqs hfile hread]
      exact wellFormed_reload ih
  exact ⟨hh.full, hh.valid, hh.below, hh.ascending, hh.strict⟩

/-- Git answers with the same log of two commits whatever it is asked for. -/
def repeatingWorld : World where
  git := ⟨fun _ _ => .ok [], fun _ _ => ⟨changedTwice.flatten, none⟩, true⟩
  disk := Disk.empty []
  stamp := "1".toList

def firstHalf : Entry :=
  ⟨1, "2b".toList, History.empty.mergeLog false changedTwice.flatten⟩

theorem wellFormed_of_reloaded :
    ∃ h, Built h ∧ h.commitCount = 4 ∧
      (h.records.list "sys-apps".toList "foo".toList .modified).map Record.seq = [1, 3] ∧
      (h.records.list "sys-apps".toList "foo".toList .modified).Pairwise
        fun a b => a.version = b.version → a.seq < b.seq := by
  have hread : (Log.entriesOf ⟨changedTwice.flatten, none⟩).failure = none := by decide +kernel
  have hupdate (h : History) (isLocal : Bool) :
      Spot.update Spot.savedSpot [] h isLocal repeatingWorld =
        (.ok (h.mergeLog isLocal changedTwice.flatten, none), _) := Spot.update_of_log rfl hread
  have hfirst : firstHalf.history.commitCount ≤ .integer (2 ^ 53 - 1) := by decide +kernel
  have hstorable : Storable firstHalf :=
    have hcounts := isCount_of_wellFormed (wellFormed_update History.wellFormed_empty
      (hupdate .empty false) hfirst)
    ⟨⟨1, .of_lt (by decide), rfl⟩, by decide, hcounts.1, hcounts.2⟩
  have hsave : (save "/c".toList firstHalf repeatingWorld).1 = .ok () := rfl
  have hhalf : Built (reload firstHalf).history :=
    .reload (.update _ _ _ .empty (hupdate .empty false) hfirst) hsave rfl
      (read_of_stored hstorable rfl (read_of_save hsave))
  have hbuilt : Built ((reload firstHalf).history.mergeLog true changedTwice.flatten) :=
    .update _ _ _ hhalf (hupdate _ true) (by decide +kernel)
  exact ⟨_, hbuilt, by decide +kernel, by decide +kernel,
    (wellFormed_of_built hbuilt).2.2.2.2 _ _ _⟩

end Cache

end PackageHistory
