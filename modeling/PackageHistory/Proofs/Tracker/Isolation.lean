import PackageHistory.Proofs.Cache.Placement

/-!
# Caches of different repositories

A refresh leaves the cache of another repository as it is, unless the one file is that of both or one stands
below the other.
-/

namespace PackageHistory

namespace Disk

/-- What was done to a tree is nothing to a file at a path: it is there, or missing, as it was, the folders on
the way to it are left, and where none was there may now be one that files can be made in. -/
structure Undisturbed (p : Path) (d d' : Disk) : Prop where
  node : d'.get? p = d.get? p
  folders : ∀ q ∈ ancestors p, ∀ rights, d.get? q = some (.folder rights) →
    d'.get? q = some (.folder rights)
  free : ∀ q ∈ ancestors p, d.get? q = none → d'.get? q = none ∨ d'.get? q = some (.folder .all)

theorem Bypasses.undisturbed {p : Path} {d d' : Disk} (h : Bypasses p d d')
    (hfiles : ∀ q ∈ ancestors p, d'.fileAt q = d.fileAt q ∨ d'.fileAt q = none) :
    Undisturbed p d d' where
  node := h.node
  folders q hq rights hfolder := (h.folders q hq rights hfolder).trans hfolder
  free q hq hnone := by
    have hnofile : d'.fileAt q = none := by
      rcases hfiles q hq with hsame | hgone
      · rw [hsame, fileAt, hnone]
        rfl
      · exact hgone
    cases hnode : d'.get? q with
    | none => exact .inl rfl
    | some n =>
      cases n with
      | file content locked => rw [fileAt_eq_some_iff.mpr hnode] at hnofile; cases hnofile
      | folder rights =>
        rcases h.made q rights hnode with hbefore | rfl
        · rw [hnone] at hbefore
          cases hbefore
        · exact .inr rfl

end Disk

namespace Cache.Spot

variable {spot : Spot} {w : World} {anew : Bool}

/-- A refresh does nothing to a file that is not its own, is not beside its own, and stands neither below nor
above it; only what is below the file beside its own is barred where that could not be removed. -/
theorem refresh_undisturbed {p : Path} (hbelow : ¬ w.disk.resolve spot.file <+: p)
    (hbeside : p ≠ w.disk.resolve (tempPath spot.file w.stamp))
    (habove : ¬ p <+: w.disk.resolve (Path.parentText spot.file)) :
    w.disk.Undisturbed p (spot.refresh anew w).2.disk ∨
      w.disk.resolve (tempPath spot.file w.stamp) ∈ Disk.ancestors p ∧
        (spot.refresh anew).LeavesBehind (tempPath spot.file w.stamp) w := by
  have hne : p ≠ w.disk.resolve spot.file := fun h => hbelow (h ▸ List.prefix_rfl)
  have hfiles : ∀ q ∈ Disk.ancestors p, q ≠ w.disk.resolve spot.file := fun q hq h =>
    hbelow (h ▸ Disk.prefix_of_mem_ancestors hq)
  have hbypasses : w.disk.Bypasses p (spot.refresh anew w).2.disk := by
    refine (spot.refresh_evolves anew w).bypasses fun e he => ?_
    cases e with
    | makeFolders folder => cases he; exact ⟨trivial, fun folder h => by cases h; exact habove⟩
    | write file content => cases he; exact ⟨hbeside, nofun⟩
    | rename src dst => obtain ⟨rfl, rfl⟩ := he; exact ⟨⟨hbeside, hne⟩, nofun⟩
    | unlink file => cases he; exact ⟨hbeside, nofun⟩
    | remove file => cases he; exact ⟨hbelow, nofun⟩
  by_cases hleft : w.disk.resolve (tempPath spot.file w.stamp) ∈ Disk.ancestors p ∧
      (spot.refresh anew).LeavesBehind (tempPath spot.file w.stamp) w
  · exact .inr hleft
  refine .inl (hbypasses.undisturbed fun q hq => ?_)
  rcases fileAt_refresh (hfiles q hq) with hsame | hgone | ⟨rfl, hbehind⟩
  · exact .inl hsame
  · exact .inr hgone
  · exact absurd ⟨hq, hbehind⟩ hleft

end Cache.Spot

namespace Tracker

variable {w : World}

theorem world_refreshTree (t : Tracker) (anew : Bool) (tree : Repository) (w : World) :
    (t.refreshTree anew tree w).2 = ((t.spotOf w.disk tree).refresh anew w).2 := by
  obtain ⟨out, w', hrefresh, ⟨r, -, hrun⟩ | ⟨-, ended, hrun⟩⟩ := t.refreshTree_cases anew tree w
  · rw [hrefresh, hrun]
  · rw [hrefresh, hrun]

/-- Repositories of which no location begins with a backslash have the same cache file only when they are at
one place. A cache file stands above another one only when the other repository is in a folder with the name
of cache files; where neither is, the refresh of one does nothing to the cache of the other. The one exception
is a repository in a folder with the name of the file that the refresh left behind beside its cache. -/
theorem caches_stand_apart (t : Tracker) (a b : Repository)
    (hcwd : ∀ name ∈ w.disk.cwd, Path.IsName name)
    (ha : Cache.BeginsPlainly (w.disk.resolve a.location))
    (hb : Cache.BeginsPlainly (w.disk.resolve b.location)) :
    let p := w.disk.resolve a.location
    let q := w.disk.resolve b.location
    (t.cacheFile w.disk a = t.cacheFile w.disk b ↔ p = q) ∧
    (w.disk.resolve (t.cacheFile w.disk a) <+: w.disk.resolve (t.cacheFile w.disk b) ↔
      p = q ∨ p ++ [Cache.fileName] <+: q) ∧
    (p ≠ q → ¬ p ++ [Cache.fileName] <+: q → ¬ q ++ [Cache.fileName] <+: p →
      ∀ anew, w.disk.Undisturbed (w.disk.resolve (t.cacheFile w.disk b)) (t.refreshTree anew a w).2.disk ∨
        w.disk.resolve (Cache.tempPath (t.cacheFile w.disk a) w.stamp) ∈
            Disk.ancestors (w.disk.resolve (t.cacheFile w.disk b)) ∧
          (t.refreshTree anew a).LeavesBehind (Cache.tempPath (t.cacheFile w.disk a) w.stamp) w) := by
  intro p q
  have hp : Cache.IsPlain p := ⟨Path.isName_of_mem_resolve hcwd a.location, ha⟩
  have hq : Cache.IsPlain q := ⟨Path.isName_of_mem_resolve hcwd b.location, hb⟩
  have habove_iff := Cache.resolve_fileOf_prefix_iff hp hq w.disk.cwd t.settings.cacheDir
  refine ⟨Cache.fileOf_eq_iff hp hq t.settings.cacheDir, habove_iff, fun hne hbelow habove anew => ?_⟩
  have hworld := t.world_refreshTree anew a w
  have hrefresh (hleft : ((t.spotOf w.disk a).refresh anew).LeavesBehind
      (Cache.tempPath (t.cacheFile w.disk a) w.stamp) w) :
      (t.refreshTree anew a).LeavesBehind (Cache.tempPath (t.cacheFile w.disk a) w.stamp) w :=
    hleft.of_last .start hworld
  rw [hworld]
  refine (Cache.Spot.refresh_undisturbed (fun h => ?_)
    (Cache.resolve_fileOf_ne_tempPath w.stamp_plain _ _ _ _) fun h => ?_).imp_right (And.imp_right hrefresh)
  · exact (habove_iff.mp h).elim hne hbelow
  -- The folders that a refresh makes are those of its own root.
  · have hparent : w.disk.resolve (Path.parentText (t.spotOf w.disk a).file) = _ :=
      Cache.resolve_parentText_fileOf hp w.disk.cwd t.settings.cacheDir
    have hfile : w.disk.resolve (t.cacheFile w.disk b) = _ :=
      Cache.resolve_fileOf hq w.disk.cwd t.settings.cacheDir
    rw [hparent, hfile, List.prefix_append_right_inj] at h
    exact habove h

def treeAt (location : Text) : Repository := ⟨"r".toList, location, [], []⟩

/-- A place and one below it, spelled with dots. -/
theorem caches_stand_apart_nested :
    let w := Cache.Spot.loggedWorld Cache.Spot.addedFile
    let outer := treeAt "/g".toList
    let inner := treeAt "/h/../g//./o/".toList
    overlayTracker.cacheFile w.disk outer ≠ overlayTracker.cacheFile w.disk inner ∧
      ¬ w.disk.resolve (overlayTracker.cacheFile w.disk outer) <+:
        w.disk.resolve (overlayTracker.cacheFile w.disk inner) ∧
      ∀ anew, w.disk.Undisturbed (w.disk.resolve (overlayTracker.cacheFile w.disk inner))
        (overlayTracker.refreshTree anew outer w).2.disk := by
  intro w outer inner
  have hcwd : ∀ name ∈ w.disk.cwd, Path.IsName name := nofun
  have houter : w.disk.resolve outer.location = ["g".toList] := by decide +kernel
  have hinner : w.disk.resolve inner.location = ["g".toList, "o".toList] := by decide +kernel
  have hne : w.disk.resolve outer.location ≠ w.disk.resolve inner.location := by
    rw [houter, hinner]
    decide +kernel
  obtain ⟨hsame, habove_iff, hrefresh⟩ := caches_stand_apart (w := w) overlayTracker outer inner hcwd
    (by rw [houter]; unfold Cache.BeginsPlainly; decide +kernel)
    (by rw [hinner]; unfold Cache.BeginsPlainly; decide +kernel)
  have hbelow : ¬ w.disk.resolve outer.location ++ [Cache.fileName] <+:
      w.disk.resolve inner.location := by
    rw [houter, hinner]
    decide +kernel
  have habove : ¬ w.disk.resolve inner.location ++ [Cache.fileName] <+:
      w.disk.resolve outer.location := by
    rw [houter, hinner]
    decide +kernel
  have hbeside : w.disk.resolve (Cache.tempPath (overlayTracker.cacheFile w.disk outer) w.stamp) ∉
      Disk.ancestors (w.disk.resolve (overlayTracker.cacheFile w.disk inner)) := by decide +kernel
  refine ⟨fun h => hne (hsame.mp h), fun h => (habove_iff.mp h).elim hne hbelow, fun anew => ?_⟩
  exact (hrefresh hne hbelow habove anew).resolve_right fun hleft => hbeside hleft.1

/-- A backslash that a location begins with is lost on the way to its cache file. And the cache of a
repository in a folder with the name of cache files is removed with the folder it is in, when the repository
above is refreshed. -/
theorem caches_collide :
    let d := Disk.empty []
    let spared := treeAt "/x/git.json".toList
    let file := d.resolve (overlayTracker.cacheFile d spared)
    let w := { Cache.Spot.loggedWorld Cache.Spot.addedFile with disk := d.put file (.file [] false) }
    d.resolve "/foo".toList ≠ d.resolve "/\\foo".toList ∧
      overlayTracker.cacheFile d (treeAt "/foo".toList) =
        overlayTracker.cacheFile d (treeAt "/\\foo".toList) ∧
      w.disk.resolve spared.location ≠ w.disk.resolve "/x".toList ∧
      w.disk.fileAt file = some ([], false) ∧
      (overlayTracker.refreshTree false (treeAt "/x".toList) w).2.disk.get? file = none := by
  decide +kernel

end Tracker

end PackageHistory
