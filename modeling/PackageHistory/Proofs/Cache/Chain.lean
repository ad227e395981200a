import PackageHistory.Proofs.Cache.Codec
import PackageHistory.Proofs.History.Events

/-!
# Histories that track a chain of commits

A history that grew by ranges holds more than one that was merged at once: records that a later range
superseded stay. But all are events of the chain, and the last event of each version is among them,
which is what the views go by.
-/

namespace PackageHistory

/-- A linear history, oldest commit first, with a name for the head after any number of commits. -/
structure Chain where
  commits : List (Commit × List Text)
  head : Nat → Text
  short : commits.length < 2 ^ 53
  distinct : ∀ i j, i ≤ commits.length → j ≤ commits.length → head i = head j → i = j

namespace Chain

variable (chain : Chain) (k : Nat) (c p : Text) (s : Status)

/-! ## Events -/

/-- The records of all changes at a place among the first commits. -/
def events : List Record :=
  History.empty.recordsAt false (LogEntry.enumerate (chain.commits.take k)) c p s

/-- The record of a change of one of the first commits, with the place, the date and the hash of that
commit. -/
def IsEvent (r : Record) : Prop :=
  ∃ i commit lines change, i < k ∧ chain.commits[i]? = some (commit, lines) ∧
    change ∈ Change.ofEntry false ⟨commit, i, lines⟩ ∧ change.isAt c p s = true ∧
    r = ⟨change.cpv.fullver, commit.date, .integer i, .hash commit.hash, none⟩

variable {chain k c p s}

theorem short_take : (chain.commits.take k).length ≤ 2 ^ 53 := by
  have hshort := chain.short
  rw [List.length_take]
  omega

theorem isEvent_iff {r : Record} :
    chain.IsEvent k c p s r ↔ History.IsEventOf (chain.commits.take k) c p s r := by
  simp only [IsEvent, History.IsEventOf, List.getElem?_take]
  constructor
  · rintro ⟨i, commit, lines, change, hlt, hi, hevent⟩
    exact ⟨i, commit, lines, change, by rw [if_pos hlt]; exact hi, hevent⟩
  · rintro ⟨i, commit, lines, change, hi, hevent⟩
    split at hi
    · next hlt => exact ⟨i, commit, lines, change, hlt, hi, hevent⟩
    · cases hi

theorem mem_events {r : Record} : r ∈ chain.events k c p s ↔ chain.IsEvent k c p s r := by
  rw [isEvent_iff]
  exact History.mem_eventsOf short_take

theorem IsEvent.stored {r : Record} (h : chain.IsEvent k c p s r) : r.stored = r := by
  obtain ⟨i, commit, lines, change, -, -, -, -, rfl⟩ := h
  rfl

theorem IsEvent.isCount {r : Record} (h : chain.IsEvent k c p s r) : Cache.IsCount r.seq := by
  obtain ⟨i, commit, lines, change, -, hi, -, -, rfl⟩ := h
  obtain ⟨hlength, -⟩ := List.getElem?_eq_some_iff.mp hi
  have hshort := chain.short
  exact ⟨i, .of_lt (by omega), rfl⟩

/-- No commit has changes of one package version to two statuses. -/
def IsPlain (chain : Chain) : Prop :=
  ∀ i commit lines, chain.commits[i]? = some (commit, lines) →
    ∀ a ∈ Change.ofEntry false ⟨commit, i, lines⟩, ∀ b ∈ Change.ofEntry false ⟨commit, i, lines⟩,
      a.cpv = b.cpv → a.status = b.status

/-- In a plain chain no two events of one version are as late as each other. -/
theorem IsEvent.eq_of_le {s' : Status} {r r' : Record} (h : chain.IsEvent k c p s r)
    (h' : chain.IsEvent k c p s' r') (hle : r.seq ≤ r'.seq) (hge : r'.seq ≤ r.seq)
    (hversion : r.version = r'.version) : r = r' ∧ (chain.IsPlain → s = s') := by
  obtain ⟨heq, i, commit, lines, hi, a, ha, b, hb, hcpv, rfl, rfl⟩ :=
    (isEvent_iff.mp h).same_commit (isEvent_iff.mp h') hle hge hversion
  refine ⟨heq, fun hplain => hplain i commit lines ?_ a ha b hb hcpv⟩
  rw [List.getElem?_take] at hi
  split at hi
  · exact hi
  · cases hi

theorem le_last {r r' : Record} (h : r ∈ lastOfEach (chain.events k c p s))
    (h' : r' ∈ chain.events k c p s) (hversion : r'.version = r.version) : r'.seq ≤ r.seq :=
  History.le_last short_take h h' hversion

/-! ## Tracking -/

/-- A history that holds events of the first commits only, and the last one of each version. At
places of the lost name the last ones may be missing. -/
structure Tracks (chain : Chain) (k : Nat) (h : History) : Prop where
  count : h.commitCount = .integer k
  events : ∀ c p s, ∀ r ∈ h.records.list c p s, r ∈ chain.events k c p s
  last : ∀ c p s, c ≠ Cache.lostName → p ≠ Cache.lostName →
    ∀ r ∈ lastOfEach (chain.events k c p s), r ∈ h.records.list c p s

theorem tracks_empty : chain.Tracks 0 .empty where
  count := rfl
  events _ _ _ _ hr := by cases hr
  last _ _ _ _ _ _ hr := by cases hr

theorem events_append {j : Nat} {h : History} {items : List LogEntry} (hjk : j ≤ k)
    (hcount : h.commitCount = .integer j) (hk : k ≤ chain.commits.length)
    (hitems : items = LogEntry.enumerate ((chain.commits.take k).drop j)) (c p : Text) (s : Status) :
    chain.events k c p s = chain.events j c p s ++ h.recordsAt false items c p s := by
  have hshort := chain.short
  have hcut : chain.commits.take k =
      chain.commits.take j ++ (chain.commits.take k).drop j := by
    rw [← List.take_append_drop j (chain.commits.take k), List.take_take, Nat.min_eq_left hjk,
      List.drop_left' (by rw [List.length_take]; omega)]
  have hlength : (chain.commits.take j).length = j := by
    rw [List.length_take]
    omega
  rw [Chain.events, hcut, LogEntry.enumerate_append, History.recordsAt_append, hlength, ← hitems]
  congr 1
  apply History.recordsAt_shift
  intro e he
  rw [hitems, LogEntry.mem_enumerate] at he
  obtain ⟨hindex, -⟩ := List.getElem?_eq_some_iff.mp he
  rw [List.length_drop, List.length_take] at hindex
  rw [History.seqOf_empty (by omega), History.seqOf, hcount, Number.integer_plus (by omega)]
  congr 1

theorem Tracks.merge {j : Nat} {h : History} {items : List LogEntry} (ht : chain.Tracks j h)
    (hjk : j ≤ k) (hk : k ≤ chain.commits.length)
    (hitems : items = LogEntry.enumerate ((chain.commits.take k).drop j)) :
    chain.Tracks k (h.merge false items) := by
  have hshort := chain.short
  have hevents := events_append hjk ht.count hk hitems
  refine ⟨?_, fun c p s => History.forall_mem_merge (fun r hr => ?_) fun r hr => ?_,
    fun c p s hc hp r hr => ?_⟩
  · show h.commitCount.plus items.length = _
    have hlength : items.length = k - j := by
      rw [hitems, LogEntry.length_enumerate, List.length_drop, List.length_take]
      omega
    rw [ht.count, hlength, Number.integer_plus (by omega)]
    congr 1
    omega
  · rw [hevents, List.mem_append]
    exact .inl (ht.events c p s r hr)
  · rw [hevents, List.mem_append]
    exact .inr hr
  · rw [hevents, lastOfEach_append] at hr
    rw [History.list_merge, List.mem_append]
    rcases List.mem_append.mp hr with hr | hr
    · exact .inl (ht.last c p s hc hp r (List.mem_filter.mp hr).1)
    · exact .inr hr

theorem Tracks.isEvent {h : History} (ht : chain.Tracks k h) {r : Record}
    (hr : r ∈ h.records.list c p s) : chain.IsEvent k c p s r :=
  mem_events.mp (ht.events c p s r hr)

/-! ## Storing -/

theorem Tracks.list_reload {e : Cache.Entry} (ht : chain.Tracks k e.history) (c p : Text)
    (s : Status) :
    (Cache.reload e).history.records.list c p s =
      if c = Cache.lostName ∨ p = Cache.lostName then [] else e.history.records.list c p s := by
  rw [Cache.list_reload]
  split
  · rfl
  · calc (e.history.records.list c p s).map Record.stored
        = (e.history.records.list c p s).map id :=
          List.map_congr_left fun r hr => (ht.isEvent hr).stored
      _ = e.history.records.list c p s := List.map_id _

theorem Tracks.reload {e : Cache.Entry} (ht : chain.Tracks k e.history) :
    chain.Tracks k (Cache.reload e).history := by
  refine ⟨ht.count, fun c p s r hr => ?_, fun c p s hc hp r hr => ?_⟩
  · rw [ht.list_reload] at hr
    split at hr
    · cases hr
    · exact ht.events c p s r hr
  · rw [ht.list_reload, if_neg (not_or.mpr ⟨hc, hp⟩)]
    exact ht.last c p s hc hp r hr

theorem Tracks.storable {e : Cache.Entry} (ht : chain.Tracks k e.history)
    (hk : k ≤ chain.commits.length) (hhead : e.head ≠ []) {v : Int} (hv : v.natAbs < 2 ^ 53)
    (hversion : e.schemaVersion = .integer v) : Cache.Storable e := by
  have hshort := chain.short
  exact ⟨⟨v, .of_lt hv, hversion⟩, hhead, ⟨k, .of_lt (by omega), ht.count⟩, fun c p s r hr => (ht.isEvent hr).isCount⟩

/-- A tracking history as it comes back from a file. -/
structure Follows (chain : Chain) (k : Nat) (h : History) : Prop extends chain.Tracks k h where
  lost : ∀ c p s, c = Cache.lostName ∨ p = Cache.lostName → h.records.list c p s = []

theorem Tracks.follows {e : Cache.Entry} (ht : chain.Tracks k e.history) :
    chain.Follows k (Cache.reload e).history where
  toTracks := ht.reload
  lost c p s h := by rw [ht.list_reload, if_pos h]

/-! ## What histories that follow one chain agree on -/

/-- The record of a version at a place with the greatest ordinal. -/
def LatestAt (t : Tree Record) (c p v : Text) (s : Status) (r : Record) : Prop :=
  r ∈ t.list c p s ∧ r.version = v ∧ ∀ r' ∈ t.list c p s, r'.version = v → r'.seq ≤ r.seq

variable {h h' : History}

theorem Tracks.latestAt_iff (ht : chain.Tracks k h) (hc : c ≠ Cache.lostName)
    (hp : p ≠ Cache.lostName) {v : Text} {r : Record} :
    LatestAt h.records c p v s r ↔ r ∈ lastOfEach (chain.events k c p s) ∧ r.version = v := by
  constructor
  · rintro ⟨hr, hv, hmax⟩
    obtain ⟨last, hlast, hversion⟩ := exists_mem_lastOfEach (ht.events c p s r hr)
    have hin := ht.last c p s hc hp last hlast
    have heq : r = last := by
      refine (IsEvent.eq_of_le (ht.isEvent hr) (ht.isEvent hin) ?_ ?_ hversion.symm).1
      · exact le_last hlast (ht.events c p s r hr) hversion.symm
      · exact hmax last hin (hversion.trans hv)
    rw [heq] at hv ⊢
    exact ⟨hlast, hv⟩
  · rintro ⟨hlast, hv⟩
    refine ⟨ht.last c p s hc hp r hlast, hv, fun r' hr' hv' => ?_⟩
    exact le_last hlast (ht.events c p s r' hr') (hv'.trans hv.symm)

theorem Follows.latestAt_congr (hf : chain.Follows k h) (hf' : chain.Follows k h') {v : Text}
    {r : Record} : LatestAt h.records c p v s r ↔ LatestAt h'.records c p v s r := by
  by_cases hlost : c = Cache.lostName ∨ p = Cache.lostName
  · rw [LatestAt, LatestAt, hf.lost c p s hlost, hf'.lost c p s hlost]
  · obtain ⟨hc, hp⟩ := not_or.mp hlost
    rw [hf.latestAt_iff hc hp, hf'.latestAt_iff hc hp]

theorem Tracks.isDistinct (ht : chain.Tracks k h) (hplain : chain.IsPlain) :
    History.IsDistinct h.records := by
  intro c p s s' r r' hr hr' hversion hle hge
  obtain ⟨heq, hstatus⟩ := (ht.isEvent hr).eq_of_le (ht.isEvent hr') hle hge hversion
  exact ⟨hstatus hplain, heq⟩

theorem Follows.shows_removed_iff (hf : chain.Follows k h) {r : Record} :
    History.Shows h.records .removed c p s r ↔
      s = .deleted ∧ c ≠ Cache.lostName ∧ p ≠ Cache.lostName ∧
        r ∈ lastOfEach (chain.events k c p s) ∧
        ∀ s', ∀ r' ∈ lastOfEach (chain.events k c p s'), r'.version = r.version →
          r'.seq ≤ r.seq := by
  constructor
  · rintro ⟨hs, hr, hmax⟩
    have hlost : ¬ (c = Cache.lostName ∨ p = Cache.lostName) := by
      intro hlost
      rw [hf.lost c p s hlost] at hr
      cases hr
    obtain ⟨hc, hp⟩ := not_or.mp hlost
    have hlast : r ∈ lastOfEach (chain.events k c p s) ∧ r.version = r.version :=
      (hf.latestAt_iff hc hp).mp ⟨hr, rfl, fun r' hr' hv => hmax rfl s r' hr' hv⟩
    refine ⟨List.mem_singleton.mp hs, hc, hp, hlast.1, fun s' r' hr' hv => ?_⟩
    exact hmax rfl s' r' (hf.last c p s' hc hp r' hr') hv
  · rintro ⟨rfl, hc, hp, hlast, hmax⟩
    refine ⟨List.mem_singleton.mpr rfl, hf.last c p _ hc hp r hlast, fun _ s' r' hr' hv => ?_⟩
    obtain ⟨last, hin, hversion⟩ := exists_mem_lastOfEach (hf.events c p s' r' hr')
    exact Number.le_trans (le_last hin (hf.events c p s' r' hr') hversion.symm)
      (hmax s' last hin (hversion.trans hv))

theorem Follows.removed_congr (hf : chain.Follows k h) (hf' : chain.Follows k h')
    (hplain : chain.IsPlain) (id : Text) (q : Query) (x : HistoricalPackage) :
    x ∈ h.query .removed id q ↔ x ∈ h'.query .removed id q := by
  rw [History.mem_query_iff_shows fun _ => hf.isDistinct hplain,
    History.mem_query_iff_shows fun _ => hf'.isDistinct hplain]
  simp only [hf.shows_removed_iff, hf'.shows_removed_iff]

end Chain

end PackageHistory
