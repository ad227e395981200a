import PackageHistory.Proofs.Cache.Chain
import PackageHistory.Proofs.Cache.Refresh
import PackageHistory.Proofs.History.Sorting

/-!
# Refreshes along a chain of commits

However the commits of a chain are sliced into refreshes, and whichever of these fail, the cache that
a refresh leaves at a head agrees with one that is built anew there.
-/

namespace PackageHistory.Cache.Spot

variable (spot : Spot) (chain : Chain)

/-! ## Git along a chain -/

/-- A log that is read to its end is the one of these commits. -/
def Answers (source : LineSource) (commits : List (Commit × List Text)) : Prop :=
  Log.IsWhole source → (Log.entriesOf source).items.map LogEntry.content = commits

/-- What git answers while the head stands after `k` commits. Every call may fail. -/
structure Serves (git : Git) (k : Nat) : Prop where
  head : ∀ calls output, git.run calls (spot.revCall spot.publishedRef) = .ok output →
    output.trim = chain.head k
  whole : ∀ calls, Answers (git.stream calls (spot.logCall (chain.head k))) (chain.commits.take k)
  rest : ∀ calls, ∀ i ≤ k,
    Answers (git.stream calls (spot.logCall (chain.head i ++ "..".toList ++ chain.head k)))
      ((chain.commits.take k).drop i)

/-- The trees that refreshes leave whose heads only go on, the last of them at `k`. At first there
is no cache. -/
inductive Reached : Disk → Nat → Prop where
  | absent {d : Disk} : d.fileAt (d.resolve spot.file) = none → Reached d 0
  | refresh {w : World} {j k : Nat} (anew : Bool) : Reached w.disk j → j ≤ k →
      k ≤ chain.commits.length → spot.Serves chain w.git k → Reached (spot.refresh anew w).2.disk k

/-! ## What the file holds -/

/-- An entry that a refresh saved at the head after `i` commits. -/
structure IsSaved (e : Entry) (i : Nat) : Prop where
  inside : i ≤ chain.commits.length
  version : e.schemaVersion = spot.schemaVersion
  head : e.head = chain.head i
  storable : Storable e
  tracks : chain.Tracks i e.history

/-- There is no cache, or one that was saved at some head up to `j`. -/
def Holds (d : Disk) (j : Nat) : Prop :=
  d.fileAt (d.resolve spot.file) = none ∨
    ∃ e i, i ≤ j ∧ spot.IsSaved chain e i ∧
      d.fileAt (d.resolve spot.file) = some (content e, false)

/-- A loaded cache is the one in the file, and was saved. -/
def FromFile (d : Disk) (k : Nat) (cached : Option Entry) : Prop :=
  ∀ e', cached = some e' → readOutcome spot.file spot.schemaVersion d = .ok (some e') ∧
    ∃ e i, i ≤ k ∧ spot.IsSaved chain e i ∧ e' = reload e

variable {spot chain} {w : World} {j k : Nat} {cached : Option Entry}

theorem Holds.mono {d : Disk} (h : spot.Holds chain d j) (hjk : j ≤ k) : spot.Holds chain d k := by
  rcases h with h | ⟨e, i, hij, hsaved, hfile⟩
  · exact .inl h
  · exact .inr ⟨e, i, Nat.le_trans hij hjk, hsaved, hfile⟩

theorem Holds.of_file {d d' : Disk} (h : spot.Holds chain d j) (hcwd : d'.cwd = d.cwd)
    (hfile : d'.fileAt (d.resolve spot.file) = d.fileAt (d.resolve spot.file) ∨
      d'.fileAt (d.resolve spot.file) = none) : spot.Holds chain d' j := by
  have hresolve : d'.resolve spot.file = d.resolve spot.file := by
    rw [Disk.resolve, Disk.resolve, hcwd]
  unfold Holds at h ⊢
  rw [hresolve]
  rcases hfile with hsame | hnone
  · rw [hsame]
    exact h
  · exact .inl hnone

theorem IsSaved.outcome {d : Disk} {e : Entry} {i : Nat} (h : spot.IsSaved chain e i)
    (hread : d.read spot.file = .ok (content e)) :
    readOutcome spot.file spot.schemaVersion d = .ok (some (reload e)) := by
  rw [readOutcome_eq_some_iff]
  refine ⟨_, hread, ?_⟩
  rw [← h.version]
  exact ofContent_content h.storable _

theorem Holds.fromFile {d : Disk} (h : spot.Holds chain d k) {cached : Option Entry}
    (hcached : ∀ e', cached = some e' →
      readOutcome spot.file spot.schemaVersion d = .ok (some e')) :
    spot.FromFile chain d k cached := by
  intro e' he'
  refine ⟨hcached e' he', ?_⟩
  obtain ⟨c, hread, hc⟩ := readOutcome_eq_some_iff.mp (hcached e' he')
  have hfile := (Disk.read_eq_ok_iff.mp hread).2
  rcases h with h | ⟨e, i, hik, hsaved, hsome⟩
  · rw [h] at hfile
    cases hfile
  · rw [hsome] at hfile
    obtain ⟨rfl, -⟩ := Prod.mk.inj (Option.some.inj hfile)
    have houtcome := hsaved.outcome hread
    rw [hcached e' he'] at houtcome
    exact ⟨e, i, hik, hsaved, by simpa using houtcome⟩

/-! ## One refresh -/

theorem isSaved_mergedEntry {v : Int} (hv : v.natAbs < 2 ^ 53)
    (hversion : spot.schemaVersion = .integer v) (hk : k ≤ chain.commits.length)
    (hgit : spot.Serves chain w.git k) (hhead : chain.head k ≠ [])
    (hcached : spot.FromFile chain w.disk k cached)
    (hwhole : Log.IsWhole (spot.logOf (missingRange cached (chain.head k)) w)) :
    spot.IsSaved chain (spot.mergedEntry cached (chain.head k) w) k ∧
      (cached = none → ∀ c p s,
        (spot.mergedAt cached (chain.head k) w).records.list c p s =
          lastOfEach (chain.events k c p s)) := by
  have hitems := Log.items_eq_enumerate (spot.logOf (missingRange cached (chain.head k)) w)
  have htracks : chain.Tracks k (spot.mergedAt cached (chain.head k) w) := by
    cases cached with
    | none =>
      have hcommits := hgit.whole w.calls hwhole
      refine Chain.tracks_empty.merge (Nat.zero_le k) hk ?_
      rw [List.drop_zero, ← hcommits]
      exact hitems
    | some e' =>
      obtain ⟨-, e, i, hik, hsaved, rfl⟩ := hcached e' rfl
      have hrange : missingRange (some (reload e)) (chain.head k) =
          chain.head i ++ "..".toList ++ chain.head k := by
        rw [missingRange, show (reload e).head = e.head from rfl, hsaved.head]
      rw [hrange] at hwhole hitems
      have hcommits := hgit.rest w.calls i hik hwhole
      have hmerged : spot.mergedAt (some (reload e)) (chain.head k) w =
          (reload e).history.merge false
            (Log.entriesOf (spot.logOf (chain.head i ++ "..".toList ++ chain.head k) w)).items := by
        rw [mergedAt, hrange]
        rfl
      rw [hmerged]
      refine hsaved.tracks.reload.merge hik hk ?_
      rw [← hcommits]
      exact hitems
  refine ⟨⟨hk, rfl, rfl, htracks.storable hk hhead hv hversion, htracks⟩, ?_⟩
  rintro rfl c p s
  have hcommits := hgit.whole w.calls hwhole
  apply History.list_merge_empty
  rw [← hcommits]
  exact hitems

/-- What the file holds after a refresh that came to the head: an entry saved there, and one that was
merged at once when nothing was loaded. -/
def Arrived (spot : Spot) (chain : Chain) (k : Nat) (d : Disk) (fromStart : Prop) : Prop :=
  ∃ e, readOutcome spot.file spot.schemaVersion d = .ok (some (reload e)) ∧
    spot.IsSaved chain e k ∧
    (fromStart → ∀ c p s, e.history.records.list c p s = lastOfEach (chain.events k c p s))

theorem refreshTo_outcome {v : Int} (hv : v.natAbs < 2 ^ 53)
    (hversion : spot.schemaVersion = .integer v) (hk : k ≤ chain.commits.length)
    (hgit : spot.Serves chain w.git k) (hhead : chain.head k ≠ [])
    (hcached : spot.FromFile chain w.disk k cached) :
    (∀ r, (spot.refreshTo cached (chain.head k) w).1 = .ok (some r) →
        r.entry.head = chain.head k →
        spot.Arrived chain k (spot.refreshTo cached (chain.head k) w).2.disk (cached = none)) ∧
      (spot.Holds chain w.disk k →
        spot.Holds chain (spot.refreshTo cached (chain.head k) w).2.disk k) := by
  rcases refreshTo_cases spot cached (chain.head k) w with
    ⟨out, w', hto, hdisk, hout⟩ | ⟨hwhole, hsaving⟩
  · -- The cache is returned as it is, so it stands at the head already.
    rw [hto]
    dsimp only
    rw [hdisk]
    refine ⟨fun r hr hrhead => ?_, fun h => h⟩
    rcases hout with rfl | ⟨err, rfl⟩
    · cases cached with
      | none => cases hr
      | some e' =>
        cases hr
        obtain ⟨hread, e, i, hik, hsaved, rfl⟩ := hcached e' rfl
        have hi : i = k := by
          apply chain.distinct i k hsaved.inside hk
          rw [← hsaved.head]
          exact hrhead
        subst hi
        exact ⟨e, hread, hsaved, nofun⟩
    · cases hr
  obtain ⟨hsaved, hlists⟩ := isSaved_mergedEntry hv hversion hk hgit hhead hcached hwhole
  rcases hsaving with ⟨w', hto, -, hread, -⟩ | ⟨_, w', hto, hkeeps, -⟩
  · rw [hto]
    refine ⟨fun _ _ _ => ⟨_, hsaved.outcome hread, hsaved, hlists⟩, fun _ => .inr ?_⟩
    exact ⟨_, k, Nat.le_refl k, hsaved, (Disk.read_eq_ok_iff.mp hread).2⟩
  · rw [hto]
    exact ⟨nofun, fun h => h.of_file hkeeps.cwd (.inl (hkeeps.others _ (spot.file_ne_temp w)))⟩

theorem loaded_cases (anew : Bool) (hholds : spot.Holds chain w.disk k) :
    (∃ err w', (if anew then pure none else load spot.file spot.schemaVersion) w = (.error err, w') ∧
        spot.Holds chain w'.disk k) ∨
      ∃ cached w', (if anew then pure none else load spot.file spot.schemaVersion) w =
          (.ok cached, w') ∧ w'.git = w.git ∧ spot.Holds chain w'.disk k ∧
        spot.FromFile chain w'.disk k cached ∧ (anew = true → cached = none) := by
  obtain ⟨out, w', hstart, hgit, hcwd, hfiles, hread, hnone⟩ := spot.start_cases anew w
  have hholds' := hholds.of_file hcwd (hfiles _)
  cases out with
  | error err => exact .inl ⟨err, w', hstart, hholds'⟩
  | ok cached =>
    refine .inr ⟨cached, w', hstart, hgit, hholds', ?_, fun h => by simpa using hnone h⟩
    exact hholds'.fromFile fun e' he' => hread e' (by rw [he'])

theorem refresh_of_head (anew : Bool) (hgit : spot.Serves chain w.git k) :
    (∃ err, spot.refresh anew w = (.error err, w.asked (spot.revCall spot.publishedRef))) ∨
      chain.head k ≠ [] ∧ spot.refresh anew w =
        ((if anew then pure none else load spot.file spot.schemaVersion) >>= fun cached =>
          spot.refreshTo cached (chain.head k)) (w.asked (spot.revCall spot.publishedRef)) := by
  rw [refresh_eq]
  rcases spot.resolveCommit_cases w spot.publishedRef with
    ⟨output, hrun, hne, hresolve⟩ | ⟨err, hresolve⟩
  · rw [hgit.head _ _ hrun] at hne hresolve
    exact .inr ⟨hne, Action.bind_of_ok hresolve _⟩
  · exact .inl ⟨err, Action.bind_of_error hresolve _⟩

section Refresh

variable {v : Int} (hv : v.natAbs < 2 ^ 53) (hversion : spot.schemaVersion = .integer v)
  (hk : k ≤ chain.commits.length) (hgit : spot.Serves chain w.git k)

include hv hversion hk hgit

theorem refresh_outcome (anew : Bool) (hholds : spot.Holds chain w.disk k) :
    (∀ r, (spot.refresh anew w).1 = .ok (some r) → r.entry.head = chain.head k →
        spot.Arrived chain k (spot.refresh anew w).2.disk (anew = true)) ∧
      spot.Holds chain (spot.refresh anew w).2.disk k := by
  rcases refresh_of_head anew hgit with ⟨err, hrefresh⟩ | ⟨hne, hrefresh⟩
  · rw [hrefresh]
    exact ⟨nofun, hholds⟩
  rcases loaded_cases (w := w.asked (spot.revCall spot.publishedRef)) anew hholds with
    ⟨err, w', hload, hholds'⟩ | ⟨cached, w', hload, hsame, hholds', hcached, hnone⟩
  · rw [Action.bind_of_error hload] at hrefresh
    rw [hrefresh]
    exact ⟨nofun, hholds'⟩
  · rw [Action.bind_of_ok hload] at hrefresh
    have hgit' : spot.Serves chain w'.git k := by
      rw [hsame]
      exact hgit
    obtain ⟨harrived, hkept⟩ := refreshTo_outcome hv hversion hk hgit' hne hcached
    rw [hrefresh]
    refine ⟨fun r hr hhead => ?_, hkept hholds'⟩
    obtain ⟨e, hread, hsaved, hlists⟩ := harrived r hr hhead
    exact ⟨e, hread, hsaved, fun hanew => hlists (hnone hanew)⟩

theorem rebuild_outcome {r : Refreshed} (hr : (spot.refresh true w).1 = .ok (some r))
    (hhead : r.entry.head = chain.head k) :
    spot.Arrived chain k (spot.refresh true w).2.disk True := by
  rcases refresh_of_head true hgit with ⟨err, hrefresh⟩ | ⟨hne, hrefresh⟩
  · rw [hrefresh] at hr
    cases hr
  · have hnew : spot.refresh true w =
        spot.refreshTo none (chain.head k) (w.asked (spot.revCall spot.publishedRef)) := hrefresh
    rw [hnew] at hr ⊢
    have hgit' : spot.Serves chain (w.asked (spot.revCall spot.publishedRef)).git k := hgit
    have hcached : spot.FromFile chain (w.asked (spot.revCall spot.publishedRef)).disk k none := nofun
    obtain ⟨e, hread, hsaved, hlists⟩ :=
      (refreshTo_outcome hv hversion hk hgit' hne hcached).1 r hr hhead
    exact ⟨e, hread, hsaved, fun _ => hlists rfl⟩

end Refresh

/-! ## Any number of refreshes -/

theorem Reached.holds {v : Int} (hv : v.natAbs < 2 ^ 53) (hversion : spot.schemaVersion = .integer v)
    {d : Disk} (h : spot.Reached chain d j) : spot.Holds chain d j := by
  induction h with
  | absent hnone => exact .inl hnone
  | refresh anew _ hjk hk hgit ih =>
    exact (refresh_outcome hv hversion hk hgit anew (ih.mono hjk)).2

/-- What a forced refresh leaves in the file at a head, from any tree. -/
def IsRebuild (spot : Spot) (chain : Chain) (k : Nat) (full : Entry) : Prop :=
  ∃ w r, spot.Serves chain w.git k ∧ (spot.refresh true w).1 = .ok (some r) ∧
    r.entry.head = chain.head k ∧
    (Cache.read spot.file spot.schemaVersion (spot.refresh true w).2).1 = .ok (some full)

/-- After any refreshes along a chain, one that comes to a head leaves a cache there whose records are
events of the chain, among them all of a rebuild, with the same latest record of each version and the
same removed packages. -/
theorem refresh_agrees_with_rebuild {v : Int} (hv : v.natAbs < 2 ^ 53)
    (hversion : spot.schemaVersion = .integer v) (hreached : spot.Reached chain w.disk j)
    (hjk : j ≤ k) (hk : k ≤ chain.commits.length) (hgit : spot.Serves chain w.git k) {anew : Bool}
    {r : Refreshed} (hr : (spot.refresh anew w).1 = .ok (some r))
    (hhead : r.entry.head = chain.head k) :
    ∃ e, (Cache.read spot.file spot.schemaVersion (spot.refresh anew w).2).1 = .ok (some e) ∧
      e.head = chain.head k ∧ e.history.commitCount = .integer k ∧
      (∀ c p s, ∀ x ∈ e.history.records.list c p s, chain.IsEvent k c p s x) ∧
      ∀ full, spot.IsRebuild chain k full →
        (∀ c p s, ∀ x ∈ full.history.records.list c p s, x ∈ e.history.records.list c p s) ∧
        (∀ c p version s x, Chain.LatestAt e.history.records c p version s x ↔
          Chain.LatestAt full.history.records c p version s x) ∧
        (chain.IsPlain → ∀ id q, ∃ shown rebuilt,
          HistoryRepo.query ⟨id, View.removed.name, e.history⟩ q = .ok shown ∧
          HistoryRepo.query ⟨id, View.removed.name, full.history⟩ q = .ok rebuilt ∧
          ∀ x, x ∈ shown ↔ x ∈ rebuilt) := by
  have hholds := (hreached.holds hv hversion).mono hjk
  obtain ⟨e, hread, hsaved, -⟩ := (refresh_outcome hv hversion hk hgit anew hholds).1 r hr hhead
  have hfollows := hsaved.tracks.follows
  refine ⟨reload e, by rw [read_apply]; exact hread, hsaved.head, hfollows.count,
    fun c p s x hx => hfollows.isEvent hx, ?_⟩
  rintro full ⟨w', r', hgit', hr', hhead', hfull⟩
  obtain ⟨e', hread', hsaved', hlists⟩ := rebuild_outcome hv hversion hk hgit' hr' hhead'
  rw [read_apply, hread'] at hfull
  obtain rfl : reload e' = full := by simpa using hfull
  have hfollows' := hsaved'.tracks.follows
  refine ⟨fun c p s x hx => ?_, fun c p version s x => hfollows.latestAt_congr hfollows', ?_⟩
  · rw [hsaved'.tracks.list_reload] at hx
    split at hx
    · cases hx
    · next hlost =>
      obtain ⟨hc, hp⟩ := not_or.mp hlost
      rw [hlists trivial] at hx
      exact hfollows.last c p s hc hp x hx
  · intro hplain id q
    exact ⟨_, _, HistoryRepo.query_view id .removed _ q, HistoryRepo.query_view id .removed _ q,
      hfollows.removed_congr hfollows' hplain id q⟩

/-! ## One run -/

/-- A version that comes with the first commit and goes with the second, and one that both change. -/
def shortChain : Chain where
  commits :=
    [(⟨"1a".toList, "2024-01-01".toList, [], [], []⟩,
        ["A\tdev-libs/a/a-1.ebuild".toList, "M\tdev-libs/b/b-1.ebuild".toList]),
      (⟨"2b".toList, "2024-01-02".toList, [], [], []⟩,
        ["D\tdev-libs/a/a-1.ebuild".toList, "M\tdev-libs/b/b-1.ebuild".toList])]
  head i := List.replicate (i + 1) 'h'
  short := by decide
  distinct i j _ _ h := by simpa using h

theorem isPlain_shortChain : shortChain.IsPlain := by
  intro i commit lines hi
  match i, hi with
  | 0, rfl => decide +kernel
  | 1, rfl => decide +kernel
  | _ + 2, hi => cases hi

/-- What git answers while the head stands after `k` commits. It knows every range up to there, unless its logs
break off: then each ends inside of a header. -/
def shortGit (broken : Bool) (k : Nat) : Git where
  run _ _ := .ok (shortChain.head k)
  stream _ call :=
    let range i := shortChain.head i ++ "..".toList ++ shortChain.head k
    if broken then ⟨[Log.beginMarker], none⟩
    else if call.args.getLast? = some (shortChain.head k) then
      ⟨Log.print (shortChain.commits.take k), none⟩
    else match (List.range k).find? fun i => call.args.getLast? = some (range i) with
      | some i => ⟨Log.print ((shortChain.commits.take k).drop i), none⟩
      | none => ⟨[], none⟩
  available := true

theorem serves_shortGit (broken : Bool) {k : Nat} (hk : k ≤ 2) :
    savedSpot.Serves shortChain (shortGit broken k) k := by
  have hcases : k = 0 ∨ k = 1 ∨ k = 2 := by omega
  have hbroken : ¬ Log.IsWhole ⟨[Log.beginMarker], none⟩ := fun h => absurd h.read (by decide +kernel)
  refine ⟨fun _ _ h => ?_, fun calls hwhole => ?_, fun calls i hi hwhole => ?_⟩
  · cases h
    rcases hcases with rfl | rfl | rfl <;> decide +kernel
  · cases broken with
    | true => exact absurd hwhole hbroken
    | false =>
      have hread : (Log.entriesOf ((shortGit false k).stream []
          (savedSpot.logCall (shortChain.head k)))).items.map LogEntry.content =
            shortChain.commits.take k := by
        rcases hcases with rfl | rfl | rfl <;> decide +kernel
      exact hread
  · cases broken with
    | true => exact absurd hwhole hbroken
    | false =>
      have hread : ∀ i ≤ k, (Log.entriesOf ((shortGit false k).stream []
          (savedSpot.logCall (shortChain.head i ++ "..".toList ++ shortChain.head k)))).items.map
            LogEntry.content = (shortChain.commits.take k).drop i := by
        rcases hcases with rfl | rfl | rfl <;> decide +kernel
      exact hread i hi

/-- The head stands after the first commit, and there is no cache yet. -/
def firstWorld : World where
  git := shortGit false 1
  disk := Disk.empty []
  stamp := "1".toList

/-- What a refresh leaves there. By now the head stands after both commits, and every log breaks off. -/
def brokenOffWorld : World :=
  { (savedSpot.refresh false firstWorld).2 with git := shortGit true 2 }

/-- The same after git was asked for the head and, in vain, for a log. By now git has every log. -/
def resumedWorld : World :=
  { (brokenOffWorld.asked (savedSpot.revCall savedSpot.publishedRef)).asked
      (savedSpot.logCall (shortChain.head 1 ++ "..".toList ++ shortChain.head 2)) with
    git := shortGit false 2 }

def firstEntry : Entry :=
  savedSpot.mergedEntry none (shortChain.head 1)
    (firstWorld.asked (savedSpot.revCall savedSpot.publishedRef))

/-- What a refresh makes of a cache once git has every log. -/
def resumedEntry (cached : Option Entry) : Entry :=
  savedSpot.mergedEntry cached (shortChain.head 2)
    (resumedWorld.asked (savedSpot.revCall savedSpot.publishedRef))

theorem isSaved_firstEntry : savedSpot.IsSaved shortChain firstEntry 1 :=
  (isSaved_mergedEntry (v := 1) (by decide) rfl (by decide) (serves_shortGit false (by decide))
    (by decide) (fun _ h => by cases h) ⟨rfl, rfl⟩).1

theorem readOutcome_firstEntry :
    readOutcome savedSpot.file savedSpot.schemaVersion brokenOffWorld.disk =
      .ok (some (reload firstEntry)) :=
  isSaved_firstEntry.outcome rfl

/-- In both worlds a refresh starts from the cache that was saved at the first commit. -/
theorem refresh_of_firstEntry {w : World} {broken : Bool} (hgit : w.git = shortGit broken 2)
    (hdisk : w.disk = brokenOffWorld.disk) : savedSpot.refresh false w =
      savedSpot.refreshTo (some (reload firstEntry)) (shortChain.head 2)
        (w.asked (savedSpot.revCall savedSpot.publishedRef)) := by
  have hresolve : savedSpot.resolveCommit savedSpot.publishedRef w =
      (.ok (shortChain.head 2), w.asked (savedSpot.revCall savedSpot.publishedRef)) :=
    resolveCommit_of_run (by rw [hgit]; rfl) (by decide)
  refine refresh_of_loaded hresolve (load_of_read ?_)
  rw [read_apply, World.asked_disk, hdisk, readOutcome_firstEntry]

theorem refresh_brokenOffWorld : savedSpot.refresh false brokenOffWorld =
    (.ok (some ⟨reload firstEntry, false⟩), { resumedWorld with git := shortGit true 2 }) := by
  rw [refresh_of_firstEntry rfl rfl, refreshTo_of_breaksOff (by decide) (.inr ⟨[], rfl⟩)]
  rfl

theorem refresh_resumedWorld : ∃ w, savedSpot.refresh false resumedWorld =
    (.ok (some ⟨resumedEntry (some (reload firstEntry)), true⟩), w) ∧
      w.disk.read savedSpot.file = .ok (content (resumedEntry (some (reload firstEntry)))) := by
  rw [refresh_of_firstEntry (w := resumedWorld) rfl rfl,
    refreshTo_of_isWhole (by decide) ⟨rfl, by decide +kernel⟩]
  exact ⟨_, rfl, rfl⟩

theorem readOutcome_resumedEntry : readOutcome savedSpot.file savedSpot.schemaVersion
    (savedSpot.refresh false resumedWorld).2.disk =
      .ok (some (reload (resumedEntry (some (reload firstEntry))))) := by
  have hcached : savedSpot.FromFile shortChain resumedWorld.disk 2 (some (reload firstEntry)) := by
    rintro e ⟨⟩
    exact ⟨readOutcome_firstEntry, firstEntry, 1, by decide, isSaved_firstEntry, rfl⟩
  have hsaved : savedSpot.IsSaved shortChain (resumedEntry (some (reload firstEntry))) 2 :=
    (isSaved_mergedEntry (v := 1) (by decide) rfl (by decide) (serves_shortGit false (by decide))
      (by decide) hcached ⟨rfl, by decide +kernel⟩).1
  obtain ⟨w, hrefresh, hfile⟩ := refresh_resumedWorld
  rw [hrefresh]
  exact hsaved.outcome hfile

theorem isRebuild_resumedWorld : savedSpot.IsRebuild shortChain 2 (reload (resumedEntry none)) := by
  have hsaved : savedSpot.IsSaved shortChain (resumedEntry none) 2 :=
    (isSaved_mergedEntry (v := 1) (by decide) rfl (by decide) (serves_shortGit false (by decide))
      (by decide) (fun _ h => by cases h) ⟨rfl, by decide +kernel⟩).1
  have hfile : (savedSpot.refresh true resumedWorld).2.disk.read savedSpot.file =
      .ok (content (resumedEntry none)) := rfl
  refine ⟨resumedWorld, ⟨resumedEntry none, true⟩, serves_shortGit false (by decide), rfl, rfl, ?_⟩
  rw [read_apply]
  exact hsaved.outcome hfile

/-- The refresh from the first commit on keeps a record that the rebuild does not have, and shows the same
removed package. -/
theorem refresh_agrees_along_shortChain :
    savedSpot.refresh false brokenOffWorld =
        (.ok (some ⟨reload firstEntry, false⟩), { resumedWorld with git := shortGit true 2 }) ∧
      ∃ e full,
        (Cache.read savedSpot.file savedSpot.schemaVersion
          (savedSpot.refresh false resumedWorld).2).1 = .ok (some e) ∧
        savedSpot.IsRebuild shortChain 2 full ∧
        e.history.commitCount = 2 ∧ full.history.commitCount = 2 ∧
        (∀ c p s, ∀ x ∈ full.history.records.list c p s, x ∈ e.history.records.list c p s) ∧
        (full.history.records.list "dev-libs".toList "b".toList .modified).map Record.seq = [1] ∧
        (e.history.records.list "dev-libs".toList "b".toList .modified).map Record.seq = [0, 1] ∧
        ∃ shown rebuilt,
          HistoryRepo.query ⟨"r".toList, View.removed.name, e.history⟩ {} = .ok shown ∧
          HistoryRepo.query ⟨"r".toList, View.removed.name, full.history⟩ {} = .ok rebuilt ∧
          rebuilt.map HistoricalPackage.text = ["dev-libs/a-1::r".toList] ∧
          ∀ x, x ∈ shown ↔ x ∈ rebuilt := by
  have hfirst : savedSpot.Reached shortChain brokenOffWorld.disk 1 :=
    .refresh (w := firstWorld) (j := 0) false (.absent (by decide +kernel)) (by decide) (by decide)
      (serves_shortGit false (by decide))
  have hreached : savedSpot.Reached shortChain resumedWorld.disk 2 := by
    have hnext := Reached.refresh (w := brokenOffWorld) false hfirst (by decide : 1 ≤ 2) (by decide)
      (serves_shortGit true (by decide))
    rw [refresh_brokenOffWorld] at hnext
    exact hnext
  obtain ⟨w, hrefresh, -⟩ := refresh_resumedWorld
  obtain ⟨e, hread, -, hcount, -, hagrees⟩ := refresh_agrees_with_rebuild (v := 1) (by decide) rfl
    hreached (Nat.le_refl 2) (by decide) (serves_shortGit false (by decide))
    (congrArg Prod.fst hrefresh) rfl
  obtain ⟨hmem, -, hremoved⟩ := hagrees _ isRebuild_resumedWorld
  obtain ⟨shown, rebuilt, hshown, hrebuilt, hsame⟩ := hremoved isPlain_shortChain "r".toList {}
  obtain rfl : reload (resumedEntry (some (reload firstEntry))) = e := by
    rw [read_apply, readOutcome_resumedEntry] at hread
    simpa using hread
  refine ⟨refresh_brokenOffWorld, _, _, hread, isRebuild_resumedWorld, hcount, rfl, hmem,
    by decide +kernel, by decide +kernel, shown, rebuilt, hshown, hrebuilt, ?_, hsame⟩
  rw [HistoryRepo.query_view, Except.ok.injEq, History.query_of_ordered rfl (by decide +kernel)] at hrebuilt
  subst hrebuilt
  decide +kernel

end PackageHistory.Cache.Spot
