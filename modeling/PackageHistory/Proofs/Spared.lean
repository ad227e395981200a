import PackageHistory.Proofs.Action
import PackageHistory.Proofs.Bypassed

/-!
# What edits leave readable

A file that can be read stays so, with what it holds, unless an edit names its path or removes a folder it
is in: folders on the way to it are never replaced.
-/

namespace PackageHistory

namespace Disk

variable {d d' : Disk} {p q : Path} {c path src dst content : Text}

/-- The file at a path can be read and holds this. -/
def Holds (d : Disk) (p : Path) (c : Text) : Prop :=
  d.blocked? p = none ∧ d.fileAt p = some (c, false)

/-- It is the node at the path and the folders on the way that count. -/
theorem Holds.of_same (h : d.Holds p c) (hp : d'.get? p = d.get? p)
    (hfolders : ∀ q ∈ ancestors p, ∀ rights, d.get? q = some (.folder rights) →
      d'.get? q = d.get? q) : d'.Holds p c := by
  refine ⟨blocked?_of_get?_eq h.1 hfolders, ?_⟩
  rw [fileAt, hp]
  exact h.2

theorem Holds.bypassed (h : d.Holds p c) (hbypasses : Bypasses p d d') : d'.Holds p c :=
  h.of_same hbypasses.node hbypasses.folders

/-! ## Edits -/

theorem Holds.makeFolder {whole : Path} (h : d.Holds p c)
    (hmake : Disk.makeFolder whole path d q = .ok d') : d'.Holds p c := by
  unfold Disk.makeFolder at hmake
  split at hmake
  · cases hmake
    exact h
  · cases hmake
  · next hnone =>
    split at hmake
    · cases hmake
      refine h.bypassed (.set ?_ (by rw [hnone]; nofun) fun rights h => by cases h; rfl)
      rintro rfl
      rw [fileAt_eq_some_iff.mp h.2] at hnone
      cases hnone
    · cases hmake

theorem Holds.makeFirst {count : Nat} (h : d.Holds p c) (hmake : d.makeFirst count path = .ok d') :
    d'.Holds p c :=
  makeFirst_induct (R := fun d d' => d.Holds p c → d'.Holds p c) (fun _ h => h)
    (fun h h' hd => h' (h hd)) (fun _ _ _ _ hmade hd => hd.makeFolder hmade) hmake h

theorem Holds.part {e : Edit} (h : d.Holds p c) (havoids : e.Avoids d p) (hpart : d.Part e d') :
    d'.Holds p c := by
  cases hpart with
  | nothing => exact h
  | folders hmake => exact h.makeFirst hmake
  | torn _ hwrite => exact h.bypassed (.write havoids hwrite)
  | removal gone hgone => exact h.bypassed (.removal havoids hgone)

theorem Holds.apply {e : Edit} (h : d.Holds p c) (havoids : e.Avoids d p)
    (happly : d.apply e = .ok d') : d'.Holds p c := by
  cases e with
  | makeFolders path => exact h.makeFirst happly
  | write path content => exact h.bypassed (.write havoids happly)
  | rename src dst => exact h.bypassed (.rename havoids.1 havoids.2 happly)
  | unlink path => exact h.bypassed (.unlink havoids happly)
  | remove path => exact h.part havoids (part_remove happly)

theorem cwd_apply {e : Edit} (happly : d.apply e = .ok d') : d'.cwd = d.cwd := by
  cases e with
  | makeFolders path => exact (fileAt_makeFirst happly).1
  | write path content => rw [(write_eq_ok happly).2]; rfl
  | rename src dst =>
    obtain ⟨_, _, _, _, rfl⟩ := rename_eq_ok happly
    rfl
  | unlink path => rw [unlink_eq_ok happly]; rfl
  | remove path => exact (part_remove happly).cwd

end Disk

/-! ## Worlds -/

/-- A world that comes from another one, with what can be read at a path still there. -/
structure World.Spares (p : Path) (w w' : World) : Prop where
  git : w'.git = w.git
  stamp : w'.stamp = w.stamp
  cwd : w'.disk.cwd = w.disk.cwd
  holds : ∀ c, w.disk.Holds p c → w'.disk.Holds p c

namespace World.Spares

variable {p : Path} {w w₁ w₂ : World}

theorem refl (p : Path) (w : World) : w.Spares p w := ⟨rfl, rfl, rfl, fun _ h => h⟩

theorem trans (h₁ : w.Spares p w₁) (h₂ : w₁.Spares p w₂) : w.Spares p w₂ :=
  ⟨h₂.git.trans h₁.git, h₂.stamp.trans h₁.stamp, h₂.cwd.trans h₁.cwd,
    fun c h => h₂.holds c (h₁.holds c h)⟩

theorem asked (p : Path) (w : World) (call : GitCall) : w.Spares p (w.asked call) :=
  ⟨rfl, rfl, rfl, fun _ h => h⟩

theorem resolve (h : w.Spares p w₁) (t : Text) : w₁.disk.resolve t = w.disk.resolve t := by
  rw [Disk.resolve, Disk.resolve, h.cwd]

end World.Spares

namespace Action

variable {α β : Type} {p : Path} {w : World}

theorem bind_spares {x : Action α} {f : α → Action β} (hx : w.Spares p (x w).2)
    (hf : ∀ a w', x w = (.ok a, w') → w'.Spares p (f a w').2) : w.Spares p ((x >>= f) w).2 := by
  cases hrun : x w with
  | mk out w' =>
    rw [hrun] at hx
    cases out with
    | ok a =>
      rw [bind_of_ok hrun]
      exact hx.trans (hf a w' hrun)
    | error e =>
      rw [bind_of_error hrun]
      exact hx

theorem edit_spares {e : Disk.Edit} (h : e.Avoids w.disk p) : w.Spares p (edit e w).2 := by
  rcases edit_cases e w with ⟨d, happly, hedit⟩ | ⟨err, d, hpart, hedit⟩
  · rw [hedit]
    exact ⟨rfl, rfl, Disk.cwd_apply happly, fun c hc => hc.apply h happly⟩
  · rw [hedit]
    exact ⟨rfl, rfl, hpart.cwd, fun c hc => hc.part h hpart⟩

/-- A file that cannot be moved stays, as does that which it was to replace. -/
theorem rename_spares {src dst : Text} (p : Path) (h : (edit (.rename src dst) w).1 ≠ .ok ()) :
    w.Spares p (edit (.rename src dst) w).2 := by
  rcases edit_cases (.rename src dst) w with ⟨d, -, hedit⟩ | ⟨err, d, hpart, hedit⟩
  · exact absurd (congrArg Prod.fst hedit) h
  · obtain rfl := hpart.eq_of_rename
    rw [hedit]
    exact ⟨rfl, rfl, rfl, fun _ h => h⟩

end Action

end PackageHistory
