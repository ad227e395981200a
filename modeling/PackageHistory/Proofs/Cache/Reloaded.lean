import PackageHistory.Proofs.Cache.Refresh
import PackageHistory.Proofs.Cache.RoundTrip
import PackageHistory.Proofs.History.Ties
import PackageHistory.Proofs.Number.Exact

/-!
# Merged histories and loaded ones

The entry that a refresh returns and the one that the next refresh loads have the same lists, but
their statuses may stand in another order: the file knows one order only.
-/

namespace PackageHistory

namespace Cache

/-! ## Counting on -/

theorem IsCount.plus {n : Number} {k : Nat} (h : IsCount n) (hk : k < Binary64.halfOfLastPlace) :
    IsCount (n.plus k) := by
  obtain ⟨m, hm, rfl⟩ := h
  exact ⟨_, Binary64.isExact_roundNat hm hk, rfl⟩

/-- A history whose numbers can be stored, with records that are as they are stored. -/
structure IsStored (h : History) : Prop where
  count : IsCount h.commitCount
  seqs : ∀ c p s, ∀ r ∈ h.records.list c p s, IsCount r.seq
  records : ∀ c p s, ∀ r ∈ h.records.list c p s, r.stored = r

theorem isStored_empty : IsStored .empty where
  count := ⟨0, .of_lt (by decide), rfl⟩
  seqs _ _ _ _ hr := by cases hr
  records _ _ _ _ hr := by cases hr

theorem isStored_of_read {path : Text} {expected : Number} {w : World} {e : Entry}
    (h : (read path expected w).1 = .ok (some e)) : IsStored e.history := by
  obtain ⟨-, hstorable, hreload⟩ := storable_of_read h
  refine ⟨hstorable.count, hstorable.seqs, fun c p s r hr => ?_⟩
  rw [← hreload, list_reload] at hr
  split at hr
  · cases hr
  · obtain ⟨r', -, rfl⟩ := List.mem_map.mp hr
    rfl

theorem IsStored.merge {h : History} (hh : IsStored h) {commits : List (Commit × List Text)}
    (hshort : commits.length < Binary64.halfOfLastPlace) :
    IsStored (h.merge false (LogEntry.enumerate commits)) := by
  have hnew {c p s} : ∀ r ∈ h.recordsAt false (LogEntry.enumerate commits) c p s,
      IsCount r.seq ∧ r.stored = r := by
    intro r hr
    obtain ⟨e, he, change, -, -, rfl⟩ := (History.mem_recordsAt false h).mp hr
    rw [LogEntry.mem_enumerate] at he
    obtain ⟨hindex, -⟩ := List.getElem?_eq_some_iff.mp he
    exact ⟨hh.count.plus (by omega), rfl⟩
  exact {
    count := hh.count.plus (by rw [LogEntry.length_enumerate]; exact hshort)
    seqs := fun c p s => History.forall_mem_merge (hh.seqs c p s) fun r hr => (hnew r hr).1
    records := fun c p s => History.forall_mem_merge (hh.records c p s) fun r hr => (hnew r hr).2 }

theorem list_reload_of_isStored {e : Entry} (hh : IsStored e.history)
    (hnames : KeepsNames e.history.records) (c p : Text) (s : Status) :
    (reload e).history.records.list c p s = e.history.records.list c p s := by
  rw [list_reload_of_keepsNames hnames]
  exact (List.map_congr_left (hh.records c p s)).trans (List.map_id _)

/-! ## What a refresh saves -/

namespace Spot

variable {spot : Spot} {anew : Bool} {w w₁ w₂ : World} {e : Entry}

/-- A refresh that returns has found the head, and has what it starts from in the file. -/
theorem refresh_eq_ok {out : Option Refreshed} (h : spot.refresh anew w = (.ok out, w₁)) :
    ∃ cached head w', head ≠ [] ∧ w'.git = w.git ∧
      (∀ e₀, cached = some e₀ → (read spot.file spot.schemaVersion w').1 = .ok (some e₀)) ∧
      spot.refreshTo cached head w' = (.ok out, w₁) := by
  rw [refresh_eq] at h
  rcases spot.resolveCommit_cases w spot.publishedRef with
    ⟨output, -, hne, hresolve⟩ | ⟨err, hresolve⟩
  · rw [Action.bind_of_ok hresolve] at h
    obtain ⟨out, w', hstart, hgit, -, -, hread, -⟩ :=
      spot.start_cases anew (w.asked (spot.revCall spot.publishedRef))
    cases out with
    | error err =>
      rw [Action.bind_of_error hstart] at h
      cases h
    | ok cached =>
      rw [Action.bind_of_ok hstart] at h
      have hcached : ∀ e₀, cached = some e₀ →
          (read spot.file spot.schemaVersion w').1 = .ok (some e₀) := by
        intro e₀ he₀
        rw [read_apply]
        exact hread e₀ (by rw [he₀])
      exact ⟨cached, _, w', hne, hgit, hcached, h⟩
  · rw [Action.bind_of_error hresolve] at h
    cases h

/-- An updated entry is the merged log of what the cache lacked, and is in the file. -/
theorem refresh_updated (h : spot.refresh anew w = (.ok (some ⟨e, true⟩), w₁)) :
    ∃ cached head w', head ≠ [] ∧ w'.git = w.git ∧
      (∀ e₀, cached = some e₀ → (read spot.file spot.schemaVersion w').1 = .ok (some e₀)) ∧
      e = spot.mergedEntry cached head w' ∧ w₁.disk.read spot.file = .ok (content e) := by
  obtain ⟨cached, head, w', hne, hgit, hcached, hrun⟩ := refresh_eq_ok h
  refine ⟨cached, head, w', hne, hgit, hcached, ?_⟩
  rcases refreshTo_cases spot cached head w' with
    ⟨out, w'', hto, -, hout⟩ | ⟨-, ⟨w'', hto, -, hfile, -⟩ | ⟨err, w'', hto, -⟩⟩
  · cases hto.symm.trans hrun
    rcases hout with hout | ⟨err, hout⟩
    · cases cached <;> cases hout
    · cases hout
  · cases hto.symm.trans hrun
    exact ⟨rfl, hfile⟩
  · cases hto.symm.trans hrun

/-- An entry that was not updated is the one in the file. -/
theorem refresh_unchanged (h : spot.refresh anew w = (.ok (some ⟨e, false⟩), w₁)) :
    (read spot.file spot.schemaVersion w₁).1 = .ok (some e) := by
  obtain ⟨cached, head, w', -, -, hcached, hrun⟩ := refresh_eq_ok h
  rcases refreshTo_cases spot cached head w' with
    ⟨out, w'', hto, hdisk, hout⟩ | ⟨-, ⟨w'', hto, -⟩ | ⟨err, w'', hto, -⟩⟩
  · cases hto.symm.trans hrun
    rcases hout with hout | ⟨err, hout⟩
    · cases cached with
      | none => cases hout
      | some e₀ =>
        cases hout
        have hread := hcached _ rfl
        rw [read_apply] at hread ⊢
        rwa [hdisk]
    · cases hout
  · cases hto.symm.trans hrun
  · cases hto.symm.trans hrun

/-- No log that git answers has so many commits that to add them to a count leaves the range of numbers. -/
def HasCountableLogs (git : Git) : Prop :=
  ∀ calls call, (Log.entriesOf (git.stream calls call)).items.length < Binary64.halfOfLastPlace

/-- No log that git answers has more commits than can be counted one by one. -/
def HasShortLogs (git : Git) : Prop :=
  ∀ calls call, (Log.entriesOf (git.stream calls call)).items.length < 2 ^ 53

theorem HasShortLogs.countable {git : Git} (h : HasShortLogs git) : HasCountableLogs git :=
  fun calls call => Nat.lt_trans (h calls call) Binary64.short_lt_halfOfLastPlace

theorem isStored_mergedAt_of_countable {cached : Option Entry} (head : Text)
    (hcountable : HasCountableLogs w.git)
    (hcached : ∀ e₀, cached = some e₀ →
      (read spot.file spot.schemaVersion w).1 = .ok (some e₀)) :
    IsStored (spot.mergedAt cached head w) := by
  have hbase : IsStored (base cached) := by
    cases cached with
    | none => exact isStored_empty
    | some e₀ => exact isStored_of_read (hcached e₀ rfl)
  have hlength := hcountable w.calls (spot.logCall (missingRange cached head))
  rw [mergedAt, Log.items_eq_enumerate]
  refine hbase.merge ?_
  rw [List.length_map]
  exact hlength

theorem isStored_mergedAt {cached : Option Entry} (head : Text) (hshort : HasShortLogs w.git)
    (hcached : ∀ e₀, cached = some e₀ →
      (read spot.file spot.schemaVersion w).1 = .ok (some e₀)) :
    IsStored (spot.mergedAt cached head w) :=
  isStored_mergedAt_of_countable head hshort.countable hcached

theorem refresh_loaded (hstorable : Storable e) (hversion : e.schemaVersion = spot.schemaVersion)
    (hfile : w.disk.read spot.file = .ok (content e))
    (hhead : (spot.resolveCommit spot.publishedRef w).1 = .ok e.head) :
    (spot.refresh false w).1 = .ok (some ⟨reload e, false⟩) := by
  rcases refresh_of_good false (read_of_stored hstorable hversion hfile) with
    ⟨err, hresolve, -⟩ | ⟨head, hresolve, hrefresh⟩
  · rw [hresolve] at hhead
    cases hhead
  · rw [hresolve] at hhead
    cases hhead
    have hsame : (startOf false (reload e)).any (·.head = e.head) = true :=
      decide_eq_true (show (reload e).head = e.head from rfl)
    rw [hrefresh, refreshTo_of_same hsame]
    rfl

/-- What a refresh merged and what the next one loads at the same head answer alike, but for ties: a
view of all records shows the same packages of each status in the same order, and where no two
records of a package are tied all answers are the same. -/
theorem refresh_then_reload {v : Int} (hv : Binary64.IsExact v.natAbs)
    (hversion : spot.schemaVersion = .integer v) (hshort : HasShortLogs w.git)
    (hrefresh : spot.refresh anew w = (.ok (some ⟨e, true⟩), w₁))
    (hnames : KeepsNames e.history.records) (hdisk : w₂.disk = w₁.disk)
    (hhead : (spot.resolveCommit spot.publishedRef w₂).1 = .ok e.head) :
    ∃ e', (spot.refresh false w₂).1 = .ok (some ⟨e', false⟩) ∧ ∀ id view q, ∃ fresh loaded,
      HistoryRepo.query ⟨id, View.name view, e.history⟩ q = .ok fresh ∧
      HistoryRepo.query ⟨id, View.name view, e'.history⟩ q = .ok loaded ∧
      (view.latestOnly = false → ∀ s : Status,
        loaded.filter (fun x => x.status = s) = fresh.filter (fun x => x.status = s)) ∧
      (e.history.records.HasNoTies → loaded = fresh) := by
  obtain ⟨cached, head, w', hne, hgit, hcached, rfl, hfile⟩ := refresh_updated hrefresh
  rw [← hgit] at hshort
  have hstored := isStored_mergedAt head hshort hcached
  have hstorable : Storable (spot.mergedEntry cached head w') :=
    ⟨⟨v, hv, hversion⟩, hne, hstored.count, hstored.seqs⟩
  rw [← hdisk] at hfile
  refine ⟨_, refresh_loaded hstorable rfl hfile hhead, fun id view q => ?_⟩
  have hlists := fun c p s => (list_reload_of_isStored hstored hnames c p s).symm
  refine ⟨_, _, HistoryRepo.query_view id view _ q, HistoryRepo.query_view id view _ q,
    fun hview s => ?_, fun hties => ?_⟩
  · exact (History.filter_query_of_lists hlists hview s).symm
  · exact (History.query_of_lists hlists hties).symm

/-- There is no cache yet, and every log is one commit to these files. -/
def loggedWorld (files : List Text) : World where
  git := ⟨fun _ _ => .ok "h1".toList, fun _ _ => ⟨Log.printCommit
    ⟨"c1".toList, "2024-01-01".toList, "A <a@b.c>".toList, "A <a@b.c>".toList, ["m".toList]⟩ files,
    none⟩, true⟩
  disk := Disk.empty []
  stamp := "1".toList

/-- There all calls give the same log. -/
theorem hasShortLogs_loggedWorld {files : List Text}
    (h : (Log.entriesOf ((loggedWorld files).git.stream [] ⟨.lines, [], []⟩)).items.length < 2 ^ 53) :
    HasShortLogs (loggedWorld files).git :=
  fun _ _ => h

/-- What a refresh makes of it. -/
def loggedEntry (files : List Text) : Entry :=
  savedSpot.mergedEntry none "h1".toList
    ((loggedWorld files).asked (savedSpot.revCall savedSpot.publishedRef))

def addedFile : List Text := ["A\tdev-libs/foo/foo-1.ebuild".toList]

/-- Changes of every kind. The file of the cache has the modified versions behind the others. -/
def mixedFiles : List Text :=
  ["R090\tapp-misc/bar/bar-1.ebuild\tapp-misc/bar/bar-2.ebuild".toList,
    "M\tdev-libs/foo/foo-1.ebuild".toList, "A\tdev-libs/foo/foo-2.ebuild".toList,
    "D\tdev-libs/foo/foo-3.ebuild".toList]

theorem refresh_then_reload_mixedFiles :
    ∃ e' shown, (savedSpot.refresh false (savedSpot.refresh false (loggedWorld mixedFiles)).2).1 =
        .ok (some ⟨e', false⟩) ∧
      HistoryRepo.query ⟨"gentoo".toList, View.changed.name, (loggedEntry mixedFiles).history⟩ {} =
        .ok shown ∧
      HistoryRepo.query ⟨"gentoo".toList, View.changed.name, e'.history⟩ {} = .ok shown ∧
      shown.map (fun x => (x.text, x.status)) =
        [("app-misc/bar-2::gentoo".toList, .renamed), ("dev-libs/foo-1::gentoo".toList, .modified),
          ("dev-libs/foo-2::gentoo".toList, .added), ("dev-libs/foo-3::gentoo".toList, .deleted)] := by
  have hshort : HasShortLogs (loggedWorld mixedFiles).git := hasShortLogs_loggedWorld (by decide +kernel)
  have hrefresh : savedSpot.refresh false (loggedWorld mixedFiles) =
      (.ok (some ⟨loggedEntry mixedFiles, true⟩), _) := rfl
  have hnames : KeepsNames (loggedEntry mixedFiles).history.records :=
    keepsNames_of_keys (by decide +kernel)
  have hties : (loggedEntry mixedFiles).history.records.HasNoTies := by decide +kernel
  obtain ⟨e', he', hviews⟩ := refresh_then_reload (v := 1) (.of_lt (by decide)) rfl hshort hrefresh
    hnames rfl rfl
  obtain ⟨fresh, loaded, hfresh, hloaded, -, hsame⟩ := hviews "gentoo".toList .changed {}
  obtain rfl := hsame hties
  refine ⟨e', loaded, he', hfresh, hloaded, ?_⟩
  rw [HistoryRepo.query_view, Except.ok.injEq, History.query_of_ordered rfl (by decide +kernel)] at hfresh
  subst hfresh
  decide +kernel

/-- One commit takes a version away and adds one that compares equal to it. -/
def respelledFile : List Text :=
  ["D\tdev-libs/foo/foo-1-r0.ebuild".toList, "A\tdev-libs/foo/foo-1.ebuild".toList]

theorem reload_respelledFile :
    ∃ e', savedSpot.refresh false (loggedWorld respelledFile) =
        (.ok (some ⟨loggedEntry respelledFile, true⟩),
          (savedSpot.refresh false (loggedWorld respelledFile)).2) ∧
      KeepsNames (loggedEntry respelledFile).history.records ∧
      (savedSpot.refresh false (savedSpot.refresh false (loggedWorld respelledFile)).2).1 =
        .ok (some ⟨e', false⟩) ∧
      e'.head = (loggedEntry respelledFile).head ∧
      HistoryRepo.query ⟨"gentoo".toList, View.changed.name, e'.history⟩ {} ≠
        HistoryRepo.query ⟨"gentoo".toList, View.changed.name,
          (loggedEntry respelledFile).history⟩ {} := by
  have hstored : IsStored (loggedEntry respelledFile).history :=
    isStored_mergedAt _ (hasShortLogs_loggedWorld (by decide +kernel)) nofun
  have hstorable : Storable (loggedEntry respelledFile) :=
    ⟨⟨1, .of_lt (by decide), rfl⟩, by decide, hstored.count, hstored.seqs⟩
  have hloaded : (savedSpot.refresh false (savedSpot.refresh false (loggedWorld respelledFile)).2).1 =
      .ok (some ⟨reload (loggedEntry respelledFile), false⟩) :=
    refresh_loaded hstorable rfl rfl rfl
  refine ⟨_, rfl, keepsNames_of_keys (by decide +kernel), hloaded, rfl, ?_⟩
  rw [HistoryRepo.query_view, HistoryRepo.query_view, ne_eq, Except.ok.injEq,
    History.query_of_ordered rfl (by decide +kernel),
    History.query_of_ordered rfl (by decide +kernel)]
  decide +kernel

end Spot

end Cache

end PackageHistory
