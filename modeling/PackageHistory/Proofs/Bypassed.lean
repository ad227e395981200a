import PackageHistory.Proofs.Disk

/-!
# Edits that pass a path by

What stands at a path, and the folders on the way to it, stay as they are when edits name neither the path
nor a folder to be removed that it is in. A write or a move never takes the place of a folder, so folders on
the way need no care.
-/

namespace PackageHistory.Disk

variable {d d₁ d' : Disk} {p q : Path} {path src dst content : Text}

/-- Of two trees the second has at a path and on the way to it what the first has, but for files that are
gone from the way and folders that were made. -/
structure Bypasses (p : Path) (d d' : Disk) : Prop where
  cwd : d'.cwd = d.cwd
  node : d'.get? p = d.get? p
  folders : ∀ q ∈ ancestors p, ∀ rights, d.get? q = some (.folder rights) → d'.get? q = d.get? q
  /-- Folders that were made can be used. -/
  made : ∀ q rights, d'.get? q = some (.folder rights) →
    d.get? q = some (.folder rights) ∨ rights = .all

namespace Bypasses

theorem refl (p : Path) (d : Disk) : Bypasses p d d :=
  ⟨rfl, rfl, fun _ _ _ _ => rfl, fun _ _ h => .inl h⟩

theorem trans (h : Bypasses p d d₁) (h' : Bypasses p d₁ d') : Bypasses p d d' where
  cwd := h'.cwd.trans h.cwd
  node := h'.node.trans h.node
  folders q hq rights hfolder := by
    have hsame := h.folders q hq rights hfolder
    rw [h'.folders q hq rights (hsame.trans hfolder), hsame]
  made q rights hfolder := by
    rcases h'.made q rights hfolder with hmade | hall
    · exact h.made q rights hmade
    · exact .inr hall

theorem set (hne : p ≠ q) (hfolder : ∀ rights, d.get? q ≠ some (.folder rights)) {n : Node}
    (hn : ∀ rights, n = .folder rights → rights = .all) : Bypasses p d (d.set q n) where
  cwd := rfl
  node := by rw [get?_set, if_neg hne]
  folders q' _ rights hq' := by
    rw [get?_set, if_neg]
    rintro rfl
    exact hfolder rights hq'
  made q' rights hq' := by
    rw [get?_set] at hq'
    split at hq'
    · exact .inr (hn rights (Option.some.inj hq'))
    · exact .inl hq'

/-- What is left out is neither at the path nor a folder on the way to it. -/
theorem leaveOut {gone : Path → Bool} (hnode : gone p = false)
    (hfolders : ∀ q ∈ ancestors p, ∀ rights, d.get? q = some (.folder rights) → gone q = false) :
    Bypasses p d (d.leaveOut gone) where
  cwd := rfl
  node := by rw [get?_leaveOut, hnode]; rfl
  folders q hq rights hfolder := by rw [get?_leaveOut, hfolders q hq rights hfolder]; rfl
  made q rights hfolder := by
    rw [get?_leaveOut] at hfolder
    split at hfolder
    · cases hfolder
    · exact .inl hfolder

theorem erase (hne : p ≠ q) (hfolder : ∀ rights, d.get? q ≠ some (.folder rights)) :
    Bypasses p d (d.erase q) := by
  refine leaveOut (decide_eq_false hne) fun q' _ rights hq' => decide_eq_false ?_
  rintro rfl
  exact hfolder rights hq'

/-! ## Edits -/

theorem makeFolder {whole : Path} (hne : p ≠ q) (h : Disk.makeFolder whole path d q = .ok d') :
    Bypasses p d d' := by
  unfold Disk.makeFolder at h
  split at h
  · cases h
    exact refl p d
  · cases h
  · next hnone =>
    split at h
    · cases h
      exact set hne (by rw [hnone]; nofun) fun rights h => by cases h; rfl
    · cases h

theorem makeFirst {count : Nat} (hnot : ¬ p <+: d.resolve path)
    (h : d.makeFirst count path = .ok d') : Bypasses p d d' :=
  makeFirst_induct (R := Bypasses p) (refl p) trans
    (fun _ hq _ _ hmade => makeFolder (fun hpq => hnot (hpq ▸ hq)) hmade) h

theorem write (hne : p ≠ d.resolve path) (h : d.write path content = .ok d') :
    Bypasses p d d' := by
  have hfolder : ∀ rights, d.get? (d.resolve path) ≠ some (.folder rights) := by
    intro rights hfolder
    simp only [Disk.write, hfolder] at h
    split at h <;> cases h
  obtain ⟨-, rfl⟩ := write_eq_ok h
  exact set hne hfolder nofun

theorem unlink (hne : p ≠ d.resolve path) (h : d.unlink path = .ok d') : Bypasses p d d' := by
  have hfolder : ∀ rights, d.get? (d.resolve path) ≠ some (.folder rights) := by
    intro rights hfolder
    simp only [Disk.unlink, hfolder] at h
    split at h <;> cases h
  rw [unlink_eq_ok h]
  exact erase hne hfolder

theorem rename (hsrc : p ≠ d.resolve src) (hdst : p ≠ d.resolve dst)
    (h : d.rename src dst = .ok d') : Bypasses p d d' := by
  have hfolder : ∀ rights, d.get? (d.resolve dst) ≠ some (.folder rights) := by
    intro rights hfolder
    simp only [Disk.rename, hfolder] at h
    split at h
    · cases h
    · cases h
    · split at h <;> simp_all
  obtain ⟨content, locked, hfile, -, rfl⟩ := rename_eq_ok h
  rw [fileAt_eq_some_iff] at hfile
  -- A file leaves the source, and only a file can be replaced: no folder on the way is touched.
  refine (erase hsrc (by rw [hfile]; nofun)).trans (set hdst (fun rights => ?_) nofun)
  rw [get?_erase]
  split
  · nofun
  · exact hfolder rights

theorem removal {gone : Path → Bool} (hnot : ¬ d.resolve path <+: p)
    (hgone : ∀ q, gone q = true → d.resolve path <+: q) : Bypasses p d (d.leaveOut gone) :=
  leaveOut (Bool.eq_false_iff.mpr fun h => hnot (hgone p h)) fun q hq _ _ =>
    Bool.eq_false_iff.mpr fun h => hnot ((hgone q h).trans (prefix_of_mem_ancestors hq))

end Bypasses

/-- The edit leaves a path alone, and does not remove it with a folder it is in. -/
def Edit.Avoids (d : Disk) (p : Path) : Edit → Prop
  | .makeFolders _ => True
  | .write path _ => p ≠ d.resolve path
  | .rename src dst => p ≠ d.resolve src ∧ p ≠ d.resolve dst
  | .unlink path => p ≠ d.resolve path
  | .remove path => ¬ d.resolve path <+: p

/-- The edit avoids a path, and does not make a folder of it. -/
def Edit.PassesBy (d : Disk) (p : Path) (e : Edit) : Prop :=
  e.Avoids d p ∧ ∀ path, e = .makeFolders path → ¬ p <+: d.resolve path

theorem Edit.Avoids.of_cwd {e : Edit} (h : e.Avoids d p) (hcwd : d'.cwd = d.cwd) : e.Avoids d' p := by
  have hresolve (t : Text) : d'.resolve t = d.resolve t := by rw [resolve, resolve, hcwd]
  cases e with
  | makeFolders path => trivial
  | _ => simpa only [Avoids, hresolve] using h

theorem Edit.PassesBy.of_cwd {e : Edit} (h : e.PassesBy d p) (hcwd : d'.cwd = d.cwd) :
    e.PassesBy d' p := by
  refine ⟨h.1.of_cwd hcwd, fun path he => ?_⟩
  rw [resolve, hcwd]
  exact h.2 path he

namespace Bypasses

/-- An edit that fails touches no more than one that is done. -/
theorem part {e : Edit} (hpasses : e.PassesBy d p) (h : d.Part e d') : Bypasses p d d' := by
  obtain ⟨havoids, hmakes⟩ := hpasses
  cases h with
  | nothing => exact refl p d
  | folders h => exact makeFirst (hmakes _ rfl) h
  | torn _ h => exact write havoids h
  | removal gone hgone => exact removal havoids hgone

theorem apply {e : Edit} (hpasses : e.PassesBy d p) (happly : d.apply e = .ok d') :
    Bypasses p d d' := by
  have ⟨havoids, hmakes⟩ := hpasses
  cases e with
  | makeFolders path => exact makeFirst (hmakes path rfl) happly
  | write path content => exact write havoids happly
  | rename src dst => exact rename havoids.1 havoids.2 happly
  | unlink path => exact unlink havoids happly
  | remove path => exact part hpasses (part_remove happly)

end Bypasses

end PackageHistory.Disk
