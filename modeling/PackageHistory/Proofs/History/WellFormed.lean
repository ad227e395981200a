import PackageHistory.Proofs.FullTree
import PackageHistory.Proofs.History.Events

/-!
# Well-formed histories

What merging and storing keep of a history: nothing in it is empty, its records name package
versions, and their ordinals count up to the number of commits.
-/

namespace PackageHistory

/-! ## Trees of merged histories -/

theorem Marked.supersede_ne_nil (r : Record) (l : List Marked) : Marked.supersede r l ≠ [] := by
  simp [Marked.supersede]

theorem History.isFull_merge {isLocal : Bool} {h : History} (hfull : h.records.IsFull)
    (entries : List LogEntry) : (h.merge isLocal entries).records.IsFull := by
  refine Tree.IsFull.mapAll ?_ Marked.record
  refine (hfull.mapAll Marked.old).foldl (fun t e ht => ?_) entries
  exact ht.foldl (fun t change ht => ht.alter (Marked.supersede_ne_nil _ _)) _

namespace History

/-! ## Well-formed histories -/

/-- Ordinals are below the number of commits. They never go down in a list, and go up from one record
of a version to the next. -/
structure WellFormed (h : History) : Prop where
  full : h.records.IsFull
  count : ∃ n : Nat, n < 2 ^ 53 ∧ h.commitCount = .integer n
  valid : ∀ c p s, ∀ r ∈ h.records.list c p s, ∃ cpv, Cpv.make c p r.version = .ok cpv
  natural : ∀ c p s, ∀ r ∈ h.records.list c p s, ∃ k : Nat, r.seq = .integer k
  below : ∀ c p s, ∀ r ∈ h.records.list c p s, r.seq < h.commitCount
  ascending : ∀ c p s, (h.records.list c p s).Pairwise fun a b => a.seq ≤ b.seq
  strict : ∀ c p s, (h.records.list c p s).Pairwise fun a b => a.version = b.version → a.seq < b.seq

theorem wellFormed_empty : WellFormed .empty where
  full := Tree.isFull_empty
  count := ⟨0, by decide, rfl⟩
  valid _ _ _ _ hr := by cases hr
  natural _ _ _ _ hr := by cases hr
  below _ _ _ _ hr := by cases hr
  ascending _ _ _ := .nil
  strict _ _ _ := .nil

variable {h : History} {isLocal : Bool} {commits : List (Commit × List Text)} {c p : Text}
  {s : Status} {r : Record} {n : Nat}

/-- A record of a range names a package version at its place, and its ordinal is one that the range
counts through. -/
theorem of_mem_recordsAt (hcount : h.commitCount = .integer n)
    (hshort : n + commits.length ≤ 2 ^ 53)
    (hr : r ∈ h.recordsAt isLocal (LogEntry.enumerate commits) c p s) :
    (∃ cpv, Cpv.make c p r.version = .ok cpv) ∧
      ∃ i < commits.length, r.seq = .integer (n + i : Nat) := by
  obtain ⟨e, he, change, -, hat, rfl⟩ := (mem_recordsAt isLocal h).mp hr
  obtain ⟨rfl, rfl, -⟩ := Change.isAt_iff.mp hat
  rw [LogEntry.mem_enumerate] at he
  obtain ⟨hlt, -⟩ := List.getElem?_eq_some_iff.mp he
  exact ⟨⟨_, change.cpv.make_self⟩, e.index, hlt, seqOf_eq hcount (by omega)⟩

theorem WellFormed.merge (hh : h.WellFormed) (hcount : h.commitCount = .integer n)
    (hshort : n + commits.length < 2 ^ 53) :
    (h.merge isLocal (LogEntry.enumerate commits)).WellFormed := by
  have htotal : (h.merge isLocal (LogEntry.enumerate commits)).commitCount =
      .integer (n + commits.length : Nat) := by
    show h.commitCount.plus (LogEntry.enumerate commits).length = _
    rw [hcount, LogEntry.length_enumerate, Number.integer_plus (by omega), Int.natCast_add]
  have hnew {c p s r} (hr : r ∈ h.recordsAt isLocal (LogEntry.enumerate commits) c p s) :=
    of_mem_recordsAt hcount (by omega) hr
  -- Ordinals of old records are below `n`, those of new ones are not.
  have hbelow (c p s) : ∀ a ∈ h.records.list c p s, a.seq < .integer n := fun a ha => by
    rw [← hcount]
    exact hh.below c p s a ha
  have hcross (c p s) : ∀ a ∈ h.records.list c p s,
      ∀ b ∈ lastOfEach (h.recordsAt isLocal (LogEntry.enumerate commits) c p s), a.seq < b.seq := by
    intro a ha b hb
    obtain ⟨-, i, -, hseq⟩ := hnew ((lastOfEach_sublist _).mem hb)
    refine Number.lt_of_lt_of_le (hbelow c p s a ha) ?_
    rw [hseq, Number.integer_le_integer]
    omega
  refine ⟨isFull_merge hh.full _, ⟨n + commits.length, hshort, htotal⟩,
    fun c p s => forall_mem_merge (hh.valid c p s) fun r hr => (hnew hr).1,
    fun c p s => forall_mem_merge (hh.natural c p s) fun r hr => ?_,
    fun c p s => forall_mem_merge (fun r hr => ?_) fun r hr => ?_,
    fun c p s => ?_, fun c p s => ?_⟩
  · obtain ⟨-, i, -, hseq⟩ := hnew hr
    exact ⟨n + i, hseq⟩
  · rw [htotal]
    refine Number.lt_of_lt_of_le (hbelow c p s r hr) ?_
    rw [Number.integer_le_integer]
    omega
  · obtain ⟨-, i, hi, hseq⟩ := hnew hr
    rw [htotal, hseq, Number.integer_lt_integer]
    omega
  · rw [list_merge, List.pairwise_append]
    refine ⟨hh.ascending c p s, ?_, fun a ha b hb => Number.le_of_lt (hcross c p s a ha b hb)⟩
    exact (recordsAt_ordered hcount (by omega) isLocal).sublist (lastOfEach_sublist _)
  · rw [list_merge, List.pairwise_append]
    refine ⟨hh.strict c p s, ?_, fun a ha b hb _ => hcross c p s a ha b hb⟩
    exact (lastOfEach_pairwise _).imp fun hne hversion => absurd hversion hne

end History

end PackageHistory
