import PackageHistory.Proofs.History.Query
import PackageHistory.Proofs.Merge
import PackageHistory.Proofs.Number

/-!
# Events

Every change that a list of commits makes is an event, with the place of its commit. A history that
was merged at once from nothing holds the last event of each version.
-/

namespace PackageHistory

namespace Change

theorem cpv_eq {a b : Change} {c p : Text} {s s' : Status} (ha : a.isAt c p s = true)
    (hb : b.isAt c p s' = true) (h : a.cpv.fullver = b.cpv.fullver) : a.cpv = b.cpv := by
  obtain ⟨hc, hp, -⟩ := isAt_iff.mp ha
  obtain ⟨hc', hp', -⟩ := isAt_iff.mp hb
  exact Cpv.eq_of_parts (hc.trans hc'.symm) (hp.trans hp'.symm) h

end Change

namespace History

variable {commits : List (Commit × List Text)} {c p : Text} {s s' : Status} {r r' : Record}

/-- The records of all changes at a place, oldest first. -/
def eventsOf (commits : List (Commit × List Text)) (c p : Text) (s : Status) : List Record :=
  empty.recordsAt false (LogEntry.enumerate commits) c p s

/-- The record of a change, with the place, the date and the hash of its commit. -/
def IsEventOf (commits : List (Commit × List Text)) (c p : Text) (s : Status) (r : Record) : Prop :=
  ∃ i commit lines change, commits[i]? = some (commit, lines) ∧
    change ∈ Change.ofEntry false ⟨commit, i, lines⟩ ∧ change.isAt c p s = true ∧
    r = ⟨change.cpv.fullver, commit.date, .integer i, .hash commit.hash, none⟩

theorem seqOf_eq {h : History} {n i : Nat} (hcount : h.commitCount = .integer n)
    (hshort : n + i < 2 ^ 53) : h.seqOf i = .integer (n + i : Nat) := by
  rw [seqOf, hcount, Number.integer_plus (by omega), Int.natCast_add]

theorem seqOf_empty {i : Nat} (h : i < 2 ^ 53) : empty.seqOf i = .integer i := by
  rw [seqOf_eq (n := 0) rfl (by omega), Nat.zero_add]

theorem mem_eventsOf (hshort : commits.length ≤ 2 ^ 53) :
    r ∈ eventsOf commits c p s ↔ IsEventOf commits c p s r := by
  simp only [eventsOf, mem_recordsAt, LogEntry.mem_enumerate]
  constructor
  · rintro ⟨e, he, change, hmem, hat, rfl⟩
    obtain ⟨hlength, -⟩ := List.getElem?_eq_some_iff.mp he
    refine ⟨e.index, e.commit, e.fileLines, change, he, hmem, hat, ?_⟩
    simp [recordOf, (Change.of_mem_ofEntry hmem).1, seqOf_empty (i := e.index) (by omega)]
  · rintro ⟨i, commit, lines, change, hi, hmem, hat, rfl⟩
    obtain ⟨hlength, -⟩ := List.getElem?_eq_some_iff.mp hi
    refine ⟨⟨commit, i, lines⟩, hi, change, hmem, hat, ?_⟩
    simp [recordOf, (Change.of_mem_ofEntry hmem).1, seqOf_empty (i := i) (by omega)]

/-- Events of one version that are as late as each other are of one commit. -/
theorem IsEventOf.same_commit (h : IsEventOf commits c p s r) (h' : IsEventOf commits c p s' r')
    (hle : r.seq ≤ r'.seq) (hge : r'.seq ≤ r.seq) (hversion : r.version = r'.version) :
    r = r' ∧ ∃ i commit lines, commits[i]? = some (commit, lines) ∧
      ∃ a ∈ Change.ofEntry false ⟨commit, i, lines⟩, ∃ b ∈ Change.ofEntry false ⟨commit, i, lines⟩,
        a.cpv = b.cpv ∧ a.status = s ∧ b.status = s' := by
  obtain ⟨i, commit, lines, a, hi, ha, hat, rfl⟩ := h
  obtain ⟨j, commit', lines', b, hj, hb, hbt, rfl⟩ := h'
  have hij : i = j := by
    have h1 := Number.integer_le_integer.mp hle
    have h2 := Number.integer_le_integer.mp hge
    omega
  subst hij
  rw [hi, Option.some.injEq] at hj
  obtain ⟨rfl, rfl⟩ := Prod.mk.inj hj
  dsimp only at hversion
  refine ⟨by rw [hversion], i, commit, lines, hi, a, ha, b, hb, Change.cpv_eq hat hbt hversion, ?_, ?_⟩
  · exact (Change.isAt_iff.mp hat).2.2
  · exact (Change.isAt_iff.mp hbt).2.2

/-- Records of a range that is merged behind `n` commits come in the order of their ordinals. -/
theorem recordsAt_ordered {h : History} {n : Nat} (hcount : h.commitCount = .integer n)
    (hshort : n + commits.length ≤ 2 ^ 53) (isLocal : Bool) :
    (h.recordsAt isLocal (LogEntry.enumerate commits) c p s).Pairwise fun a b => a.seq ≤ b.seq := by
  have hindices : (LogEntry.enumerate commits).Pairwise fun a b =>
      h.seqOf a.index ≤ h.seqOf b.index := by
    rw [List.pairwise_iff_getElem]
    intro i j hi hj hij
    rw [LogEntry.length_enumerate] at hi hj
    simp only [LogEntry.enumerate, List.getElem_map, List.getElem_zipIdx, Nat.zero_add]
    rw [seqOf_eq hcount (by omega), seqOf_eq hcount (by omega), Number.integer_le_integer]
    omega
  rw [recordsAt, List.pairwise_map]
  apply List.Pairwise.filter
  rw [numbered, List.pairwise_flatMap]
  refine ⟨fun e _ => ?_, hindices.imp fun {a b} hab x hx y hy => ?_⟩
  · rw [List.pairwise_map]
    exact List.pairwise_of_forall fun _ _ => Number.le_refl _
  · obtain ⟨_, -, rfl⟩ := List.mem_map.mp hx
    obtain ⟨_, -, rfl⟩ := List.mem_map.mp hy
    exact hab

theorem eventsOf_ordered (hshort : commits.length ≤ 2 ^ 53) :
    (eventsOf commits c p s).Pairwise fun a b => a.seq ≤ b.seq :=
  recordsAt_ordered (n := 0) rfl (by omega) false

theorem le_last (hshort : commits.length ≤ 2 ^ 53) (h : r ∈ lastOfEach (eventsOf commits c p s))
    (h' : r' ∈ eventsOf commits c p s) (hversion : r'.version = r.version) : r'.seq ≤ r.seq :=
  rel_of_mem_lastOfEach (fun _ => Number.le_refl _) (eventsOf_ordered hshort) h h' hversion

/-- Merged at once, a history holds the last event of each version and nothing else. -/
theorem list_merge_empty {items : List LogEntry} (hitems : items = LogEntry.enumerate commits)
    (c p : Text) (s : Status) :
    (empty.merge false items).records.list c p s = lastOfEach (eventsOf commits c p s) := by
  rw [list_merge, hitems, eventsOf]
  rfl

end History

end PackageHistory
