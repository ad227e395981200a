import PackageHistory.Proofs.Cache.Beside
import PackageHistory.Tracker

/-!
# Registered caches and the files they came from

Whatever happens in a call of `update`, what a tracker has registered for a tree is what the cache file of
the tree holds.
-/

namespace PackageHistory

open Cache (SameRecords NamesStay lostName)
open Cache.Spot (loggedWorld addedFile)

namespace Cache

/-! ## Where caches are kept -/

theorem isName_fileName : Path.IsName fileName :=
  ⟨by decide +kernel, by decide +kernel, by decide +kernel, by decide +kernel⟩

theorem fileOf_eq (cacheDir : Text) (root : Path) :
    ∃ lead, Path.IsLead lead ∧ fileOf cacheDir root = lead ++ fileName :=
  Path.join_append [cacheDir, "repos".toList, root.text.dropWhile fun c => c = '/' || c = '\\']
    isName_fileName

theorem getLast?_resolve_fileOf (cwd : Path) (cacheDir : Text) (root : Path) :
    (Path.resolve cwd (fileOf cacheDir root)).getLast? = some fileName := by
  obtain ⟨lead, hlead, heq⟩ := fileOf_eq cacheDir root
  rw [heq]
  exact Path.getLast?_resolve hlead isName_fileName cwd

theorem getLast?_resolve_tempPath {stamp : Text} (hstamp : '/' ∉ stamp) (cwd : Path)
    (cacheDir : Text) (root : Path) :
    (Path.resolve cwd (tempPath (fileOf cacheDir root) stamp)).getLast? =
      some (fileName ++ (".tmp.".toList ++ stamp)) := by
  obtain ⟨lead, hlead, heq⟩ := fileOf_eq cacheDir root
  rw [heq, tempPath_append]
  exact Path.getLast?_resolve hlead (isName_temp isName_fileName.slash hstamp) cwd

/-- The file beside a cache is not the place of any cache. -/
theorem resolve_fileOf_ne_tempPath {stamp : Text} (hstamp : '/' ∉ stamp) (cwd : Path)
    (cacheDir : Text) (root root' : Path) :
    Path.resolve cwd (fileOf cacheDir root) ≠
      Path.resolve cwd (tempPath (fileOf cacheDir root') stamp) := by
  intro hsame
  have hlast := congrArg List.getLast? hsame
  rw [getLast?_resolve_fileOf, getLast?_resolve_tempPath hstamp, Option.some.injEq] at hlast
  have hlength := congrArg List.length hlast
  simp at hlength

/-- What can be read of a cache stays when its path is spared. -/
theorem read_of_spares {path : Text} {expected : Number} {e : Entry} {w w' : World}
    (h : (read path expected w).1 = .ok (some e)) (hspares : w.Spares (w.disk.resolve path) w') :
    (read path expected w').1 = .ok (some e) := by
  rw [read_apply, readOutcome_eq_some_iff] at h ⊢
  obtain ⟨c, hread, hcontent⟩ := h
  refine ⟨c, ?_, hcontent⟩
  rw [Disk.read_eq_ok_iff, hspares.resolve]
  exact hspares.holds c (Disk.read_eq_ok_iff.mp hread)

end Cache

namespace Tracker

/-! ## What is registered -/

/-- The cache file of a tree. -/
def cacheFile (t : Tracker) (d : Disk) (tree : Repository) : Text :=
  Cache.fileOf t.settings.cacheDir (d.resolve tree.location)

/-- The cache of a tree. -/
def spotOf (t : Tracker) (d : Disk) (tree : Repository) : Cache.Spot where
  location := tree.location
  file := t.cacheFile d tree
  publishedRef := t.settings.publishedRef

/-- No cache file is that of another tree or below it. -/
def KeepsApart (t : Tracker) (d : Disk) : Prop :=
  ∀ a ∈ t.target.trees, ∀ b ∈ t.target.trees, d.resolve a.location ≠ d.resolve b.location →
    ¬ d.resolve (t.cacheFile d a) <+: d.resolve (t.cacheFile d b)

/-- The cache file of a tree can be read and says the same as an entry. -/
def Stores (t : Tracker) (w : World) (tree : Repository) (e : Cache.Entry) : Prop :=
  ∃ e', (Cache.read (t.cacheFile w.disk tree) Cache.currentVersion w).1 = .ok (some e') ∧
    SameRecords e e'

/-- What is registered is what the files hold. -/
structure Agrees (t : Tracker) (w : World) : Prop where
  /-- Only trees are registered. -/
  known : ∀ root e, t.registry.get? root = some e →
    ∃ tree ∈ t.target.trees, w.disk.resolve tree.location = root
  stored : ∀ tree ∈ t.target.trees, ∀ e,
    t.registry.get? (w.disk.resolve tree.location) = some e → t.Stores w tree e

/-- No log is too long to be counted, and no name is lost. -/
structure IsOrdinary (w : World) : Prop where
  short : Cache.Spot.HasShortLogs w.git
  names : NamesStay w.git

variable {t t' : Tracker} {anew : Bool} {tree b : Repository} {w w' : World} {p : Path}
  {e : Cache.Entry}

theorem cacheFile_of_spares (t : Tracker) (tree : Repository) (hspares : w.Spares p w') :
    t.cacheFile w'.disk tree = t.cacheFile w.disk tree := by
  rw [cacheFile, cacheFile, hspares.resolve]

theorem cacheFile_of_root {d : Disk} (hroot : d.resolve b.location = d.resolve tree.location) :
    t.cacheFile d b = t.cacheFile d tree := by
  rw [cacheFile, cacheFile, hroot]

/-- The file beside the cache of a tree is no cache of a tree. -/
theorem cacheFile_ne_tempPath (t : Tracker) (tree b : Repository) (w : World) :
    w.disk.resolve (t.cacheFile w.disk b) ≠
      w.disk.resolve (Cache.tempPath (t.cacheFile w.disk tree) w.stamp) :=
  Cache.resolve_fileOf_ne_tempPath w.stamp_plain _ _ _ _

theorem IsOrdinary.spared (hw : IsOrdinary w) (hspares : w.Spares p w') : IsOrdinary w' where
  short := hspares.git ▸ hw.short
  names := hspares.git ▸ hw.names

theorem KeepsApart.spared (h : t.KeepsApart w.disk) (hspares : w.Spares p w') :
    t.KeepsApart w'.disk := by
  intro a ha b hb hne
  rw [cacheFile_of_spares t a hspares, cacheFile_of_spares t b hspares]
  simp only [hspares.resolve] at hne ⊢
  exact h a ha b hb hne

theorem Stores.spared (h : t.Stores w b e)
    (hspares : w.Spares (w.disk.resolve (t.cacheFile w.disk b)) w') : t.Stores w' b e := by
  obtain ⟨e', hread, hsame⟩ := h
  refine ⟨e', ?_, hsame⟩
  rw [cacheFile_of_spares t b hspares]
  exact Cache.read_of_spares hread hspares

/-! ## One tree -/

theorem spot_apply (t : Tracker) (tree : Repository) (w : World) :
    t.spot tree w = (.ok (t.spotOf w.disk tree), w) := rfl

/-- A tree is registered when its refresh gives an entry, else nothing is. -/
theorem refreshTree_cases (t : Tracker) (anew : Bool) (tree : Repository) (w : World) :
    ∃ out w', (t.spotOf w.disk tree).refresh anew w = (out, w') ∧
      ((∃ r, out = .ok (some r) ∧ t.refreshTree anew tree w =
          (.ok ({ t with
            registry := t.registry.insert (w'.disk.resolve tree.location) r.entry }, .ok ()), w')) ∨
        (∀ r, out ≠ .ok (some r)) ∧ ∃ ended, t.refreshTree anew tree w = (.ok (t, ended), w')) := by
  cases hrefresh : (t.spotOf w.disk tree).refresh anew w with
  | mk out w' =>
    have hattempt : ((t.spotOf w.disk tree).refresh anew).attempt w = (.ok out, w') := by
      rw [Action.attempt_apply, hrefresh]
    refine ⟨out, w', rfl, ?_⟩
    unfold refreshTree
    rw [Action.bind_of_ok (spot_apply t tree w), Action.bind_of_ok hattempt]
    cases out with
    | ok refreshed =>
      cases refreshed with
      | none => exact .inr ⟨nofun, .ok (), rfl⟩
      | some r => exact .inl ⟨r, rfl, rfl⟩
    | error e =>
      refine .inr ⟨nofun, ?_⟩
      cases e <;> exact ⟨_, rfl⟩

theorem refresh_spares_root (t : Tracker) (tree : Repository) (anew : Bool) (w : World) :
    w.Spares [] ((t.spotOf w.disk tree).refresh anew w).2 := by
  have hfile := Cache.getLast?_resolve_fileOf w.disk.cwd t.settings.cacheDir
    (w.disk.resolve tree.location)
  have htemp := Cache.getLast?_resolve_tempPath w.stamp_plain w.disk.cwd t.settings.cacheDir
    (w.disk.resolve tree.location)
  refine Cache.Spot.refresh_spares (fun hprefix => ?_) fun hsame => ?_
  · have hnone := congrArg List.getLast? (List.prefix_nil.mp hprefix)
    exact absurd (hfile.symm.trans hnone) nofun
  · have hnone := congrArg List.getLast? hsame.symm
    exact absurd (htemp.symm.trans hnone) nofun

/-- The refresh of a tree leaves the caches of the others as they are. -/
theorem Stores.refresh_other (h : t.Stores w b e) (hapart : t.KeepsApart w.disk)
    (htree : tree ∈ t.target.trees) (hb : b ∈ t.target.trees)
    (hne : w.disk.resolve b.location ≠ w.disk.resolve tree.location) (anew : Bool) :
    t.Stores ((t.spotOf w.disk tree).refresh anew w).2 b e :=
  h.spared (Cache.Spot.refresh_spares (hapart tree htree b hb hne.symm)
    (cacheFile_ne_tempPath t tree b w))

/-- A refresh that gives no entry leaves the cache of its tree as it is. -/
theorem Stores.refresh_none (h : t.Stores w b e)
    (hroot : w.disk.resolve b.location = w.disk.resolve tree.location) (anew : Bool)
    (hnone : ∀ r, ((t.spotOf w.disk tree).refresh anew w).1 ≠ .ok (some r)) :
    t.Stores ((t.spotOf w.disk tree).refresh anew w).2 b e := by
  have ⟨e', hread, _⟩ := h
  refine h.spared ?_
  rw [cacheFile_of_root hroot] at hread ⊢
  have hgood : (Cache.read (t.spotOf w.disk tree).file (t.spotOf w.disk tree).schemaVersion w).1 =
      .ok (some e') := hread
  exact Cache.Spot.refresh_spares_cache hgood (cacheFile_ne_tempPath t tree tree w)
    fun r hr => absurd hr (hnone r)

/-- A refresh that gives an entry leaves the same in the cache of its tree. -/
theorem stores_of_refresh {r : Cache.Spot.Refreshed} (hw : IsOrdinary w)
    (hroot : w.disk.resolve b.location = w.disk.resolve tree.location)
    (hrefresh : (t.spotOf w.disk tree).refresh anew w = (.ok (some r), w')) :
    t.Stores w' b r.entry := by
  have hspares := refresh_spares_root t tree anew w
  rw [hrefresh] at hspares
  rw [Stores, cacheFile_of_spares t b hspares, cacheFile_of_root hroot]
  have hversion : (t.spotOf w.disk tree).schemaVersion = .integer 1 := rfl
  have hexact : Binary64.IsExact (1 : Int).natAbs := .of_lt (by decide)
  have hreported := Cache.Spot.refresh_reported hexact hversion hw.short hw.names hrefresh
  exact hreported

theorem Agrees.refreshTree (h : t.Agrees w) (hw : IsOrdinary w) (hapart : t.KeepsApart w.disk)
    (anew : Bool) (htree : tree ∈ t.target.trees) :
    ∃ registry ended w', t.refreshTree anew tree w = (.ok ({ t with registry }, ended), w') ∧
      w.Spares [] w' ∧ Agrees { t with registry } w' := by
  obtain ⟨out, w', hrefresh, hcases⟩ := t.refreshTree_cases anew tree w
  have hspares := refresh_spares_root t tree anew w
  rw [hrefresh] at hspares
  -- Trees at one place share their cache file, so the cases are split by place and not by tree.
  have hother : ∀ b ∈ t.target.trees, w.disk.resolve b.location ≠ w.disk.resolve tree.location →
      ∀ e, t.Stores w b e → t.Stores w' b e := by
    intro b hb hne e he
    have hstores := he.refresh_other hapart htree hb hne anew
    rwa [hrefresh] at hstores
  rcases hcases with ⟨r, rfl, hrun⟩ | ⟨hnone, ended, hrun⟩
  · refine ⟨_, _, w', hrun, hspares, fun root e he => ?_, fun b hb e he => ?_⟩
    · rw [OrderedMap.get?_insert, hspares.resolve] at he
      split at he
      · next hroot => exact ⟨tree, htree, by rw [hspares.resolve, hroot]⟩
      · simpa only [hspares.resolve] using h.known root e he
    · rw [OrderedMap.get?_insert, hspares.resolve, hspares.resolve] at he
      split at he
      · next hroot =>
        cases he
        exact stores_of_refresh hw hroot hrefresh
      · next hroot => exact hother b hb hroot e (h.stored b hb e he)
  · refine ⟨t.registry, ended, w', hrun, hspares, fun root e he => ?_, fun b hb e he => ?_⟩
    · simpa only [hspares.resolve] using h.known root e he
    · rw [hspares.resolve] at he
      have hstored := h.stored b hb e he
      by_cases hroot : w.disk.resolve b.location = w.disk.resolve tree.location
      · have hstores := hstored.refresh_none hroot anew (by rwa [hrefresh])
        rwa [hrefresh] at hstores
      · exact hother b hb hroot e hstored

/-! ## All trees -/

/-- The trees still to do are among those of the target, so the induction is on them alone. -/
theorem Agrees.refreshTrees (h : t.Agrees w) (hw : IsOrdinary w) (hapart : t.KeepsApart w.disk)
    (anew : Bool) (trees : List Repository) (htrees : ∀ tree ∈ trees, tree ∈ t.target.trees) :
    ∃ registry ended w', refreshTrees anew t trees w = (.ok ({ t with registry }, ended), w') ∧
      w.Spares [] w' ∧ Agrees { t with registry } w' := by
  induction trees generalizing t w with
  | nil => exact ⟨t.registry, .ok (), w, rfl, .refl [] w, h⟩
  | cons tree rest ih =>
    obtain ⟨registry, ended, w₁, hrun, hspares, hagrees⟩ :=
      h.refreshTree hw hapart anew (htrees tree List.mem_cons_self)
    unfold Tracker.refreshTrees
    rw [Action.bind_of_ok hrun]
    cases ended with
    | error err => exact ⟨registry, .error err, w₁, rfl, hspares, hagrees⟩
    | ok _ =>
      obtain ⟨registry', ended', w₂, hrest, hspares', hagrees'⟩ :=
        ih hagrees (hw.spared hspares) (KeepsApart.spared (t := { t with registry }) hapart hspares)
          fun tree htree => htrees tree (List.mem_cons_of_mem _ htree)
      exact ⟨registry', ended', w₂, hrest, hspares.trans hspares', hagrees'⟩

theorem checkEnabled_apply (t : Tracker) (w : World) :
    ∃ on, t.checkEnabled w = (.ok ({ t with enabled := some on }, on), w) := by
  obtain ⟨target, settings, registry, enabled, rules⟩ := t
  cases enabled with
  | some on => exact ⟨on, rfl⟩
  | none =>
    unfold checkEnabled
    cases settings.gitEnabled with
    | true => exact ⟨w.git.available, rfl⟩
    | false => exact ⟨false, rfl⟩

/-- An update gives the tracker back, whether it ended well or not, with a registry that agrees with the
files. -/
theorem Agrees.update (h : t.Agrees w) (hw : IsOrdinary w) (hapart : t.KeepsApart w.disk)
    (anew : Bool) :
    ∃ registry enabled ended w',
      t.update anew w = (.ok ({ t with registry, enabled }, ended), w') ∧
        w.Spares [] w' ∧ Agrees { t with registry, enabled } w' := by
  obtain ⟨on, hcheck⟩ := t.checkEnabled_apply w
  have hchecked : Agrees { t with enabled := some on } w := ⟨h.known, h.stored⟩
  unfold Tracker.update
  rw [Action.bind_of_ok hcheck]
  cases on with
  | false => exact ⟨t.registry, some false, .ok (), w, rfl, .refl [] w, hchecked⟩
  | true =>
    obtain ⟨registry, ended, w', hrun, hspares, hagrees⟩ :=
      hchecked.refreshTrees hw hapart anew t.target.trees fun _ htree => htree
    exact ⟨registry, some true, ended, w', hrun, hspares, hagrees⟩

/-! ## Any number of updates -/

theorem Agrees.of_empty (hempty : t.registry = .empty) (w : World) : t.Agrees w where
  known root e he := by rw [hempty] at he; cases he
  stored tree _ e he := by rw [hempty] at he; cases he

theorem Agrees.of_disk (h : t.Agrees w) (hdisk : w'.disk = w.disk) : t.Agrees w' := by
  refine ⟨fun root e he => ?_, fun tree htree e he => ?_⟩
  · rw [hdisk]
    exact h.known root e he
  · rw [hdisk] at he
    obtain ⟨e', hread, hsame⟩ := h.stored tree htree e he
    refine ⟨e', ?_, hsame⟩
    rw [Cache.read_apply] at hread ⊢
    rwa [hdisk]

/-- What updates one after another make of a tracker and a world. Git and what the disk refuses may be
others at each of them; the files are those that the update before left. -/
inductive Updated (t₀ : Tracker) (w₀ : World) : Tracker → World → Prop
  | start : Updated t₀ w₀ t₀ w₀
  | update {t t' : Tracker} {w w₁ w' : World} {anew : Bool} {ended : Except Failure Unit} :
      Updated t₀ w₀ t w → w₁.disk = w.disk → IsOrdinary w₁ →
        t.update anew w₁ = (.ok (t', ended), w') → Updated t₀ w₀ t' w'

variable {t₀ : Tracker} {w₀ w₁ : World}

theorem Updated.agrees (h : Updated t₀ w₀ t w) (hempty : t₀.registry = .empty)
    (hapart : t₀.KeepsApart w₀.disk) :
    ∃ registry enabled, t = { t₀ with registry, enabled } ∧ t.KeepsApart w.disk ∧ t.Agrees w := by
  induction h with
  | start => exact ⟨_, _, rfl, hapart, .of_empty hempty w₀⟩
  | update _ hdisk hw hrun ih =>
    -- Git is another one in every world: it is the disk that carries the invariant on.
    obtain ⟨registry, enabled, rfl, hapart, hagrees⟩ := ih
    rw [← hdisk] at hapart
    obtain ⟨registry', enabled', ended', w', hupdate, hspares, hagrees'⟩ :=
      (hagrees.of_disk hdisk).update hw hapart _
    cases hrun.symm.trans hupdate
    exact ⟨registry', enabled', rfl, hapart.spared hspares, hagrees'⟩

/-- A tracker that starts with nothing registered has, after each of its updates, only caches of trees
registered, and for each of them the cache file says the same: also after an update that failed, in part
or as a whole. -/
theorem registry_agrees_with_files (hempty : t₀.registry = .empty) (hapart : t₀.KeepsApart w₀.disk)
    (h : Updated t₀ w₀ t w) (hdisk : w₁.disk = w.disk) (hw : IsOrdinary w₁) (anew : Bool) :
    ∃ registry enabled ended w',
      t.update anew w₁ = (.ok ({ t₀ with registry, enabled }, ended), w') ∧
        Agrees { t₀ with registry, enabled } w' := by
  obtain ⟨registry, enabled, rfl, hapart, hagrees⟩ := h.agrees hempty hapart
  rw [← hdisk] at hapart
  obtain ⟨registry', enabled', ended, w', hupdate, -, hagrees'⟩ :=
    (hagrees.of_disk hdisk).update hw hapart anew
  exact ⟨registry', enabled', ended, w', hupdate, hagrees'⟩

/-- A repository that inherits from another one. -/
def overlayTracker : Tracker where
  target := ⟨"overlay".toList, "/o".toList, [], [⟨"gentoo".toList, "/g".toList, [], []⟩]⟩
  settings := { cacheDir := "/c".toList }

/-- Every edit of the disk is refused. -/
def lockedWorld (d : Disk) : World :=
  { loggedWorld addedFile with
    disk := d
    refuses := fun _ _ => some { error := ⟨.denied, .opening "/c".toList⟩ } }

theorem isOrdinary_loggedWorld : IsOrdinary (loggedWorld addedFile) := by
  have hnames : ∀ entry ∈ (Log.entriesOf
      ((loggedWorld addedFile).git.stream [] ⟨.lines, [], []⟩)).items,
      ∀ change ∈ Change.ofEntry false entry,
        change.cpv.category ≠ lostName ∧ change.cpv.package ≠ lostName := by decide +kernel
  exact ⟨Cache.Spot.hasShortLogs_loggedWorld (by decide +kernel), fun _ _ => hnames⟩

/-- Both caches are built, then neither of them can be built anew. -/
theorem registry_agrees_overlayTracker : ∃ t w, Updated overlayTracker (loggedWorld addedFile) t w ∧
    (t.registry.get? ["g".toList]).isSome ∧
    ∃ registry enabled ended w',
      t.update true (lockedWorld w.disk) = (.ok ({ overlayTracker with registry, enabled }, ended), w') ∧
        Agrees { overlayTracker with registry, enabled } w' := by
  have hapart : overlayTracker.KeepsApart (loggedWorld addedFile).disk := by
    unfold KeepsApart
    decide +kernel
  have hlocked (d : Disk) : IsOrdinary (lockedWorld d) :=
    ⟨isOrdinary_loggedWorld.short, isOrdinary_loggedWorld.names⟩
  have hbuilt : (overlayTracker.update false (loggedWorld addedFile)).1.toOption.any
      fun out => (out.1.registry.get? ["g".toList]).isSome := by decide +kernel
  obtain ⟨registry, enabled, ended, w, hrun, -⟩ :=
    registry_agrees_with_files rfl hapart .start rfl isOrdinary_loggedWorld false
  rw [hrun] at hbuilt
  have h := Updated.update .start rfl isOrdinary_loggedWorld hrun
  have hdisk : (lockedWorld w.disk).disk = w.disk := rfl
  exact ⟨_, w, h, hbuilt, registry_agrees_with_files rfl hapart h hdisk (hlocked w.disk) true⟩

end Tracker

end PackageHistory
