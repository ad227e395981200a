import PackageHistory.Proofs.Action

/-!
# Worlds that no action tells apart

Actions see git, the disk and which of their edits fail, not the edits that were tried before. What two worlds
agree on in this way they agree on after every action: an action follows the relation of the worlds it is run in.
-/

namespace PackageHistory

/-- Worlds that may differ in the edits tried so far, as long as the same edits fail from now on. -/
structure Alike (w v : World) : Prop where
  git : w.git = v.git
  disk : w.disk = v.disk
  stamp : w.stamp = v.stamp
  calls : w.calls = v.calls
  refuses : ∀ tried e, w.refuses (tried ++ w.edits) e = v.refuses (tried ++ v.edits) e

namespace Alike

variable {w v : World}

theorem asked (h : Alike w v) (call : GitCall) : Alike (w.asked call) (v.asked call) where
  git := h.git
  disk := h.disk
  stamp := h.stamp
  calls := congrArg (call :: ·) h.calls
  refuses := h.refuses

theorem edited (h : Alike w v) (e : Disk.Edit) (d : Disk) : Alike (w.edited e d) (v.edited e d) where
  git := h.git
  disk := rfl
  stamp := h.stamp
  calls := h.calls
  refuses tried e' := by
    have hmore := h.refuses (tried ++ [e]) e'
    rwa [List.append_assoc, List.append_assoc, List.singleton_append, List.singleton_append] at hmore

end Alike

namespace Action

variable {α β : Type} {R : World → World → Prop}

/-- Run in worlds that are related the action has the same outcome in both, and leaves them related. -/
def Follows (R : World → World → Prop) (act : Action α) : Prop :=
  ∀ w v, R w v → (act w).1 = (act v).1 ∧ R (act w).2 (act v).2

theorem follows_pure (a : α) : (pure a : Action α).Follows R := fun _ _ h => ⟨rfl, h⟩

theorem follows_fail (e : Failure) : (fail e : Action α).Follows R := fun _ _ h => ⟨rfl, h⟩

theorem Follows.cases {x : Action α} {w v : World} (hx : x.Follows R) (h : R w v) :
    (∃ a w₁ v₁, x w = (.ok a, w₁) ∧ x v = (.ok a, v₁) ∧ R w₁ v₁) ∨
      ∃ e w₁ v₁, x w = (.error e, w₁) ∧ x v = (.error e, v₁) ∧ R w₁ v₁ := by
  obtain ⟨hout, hrelated⟩ := hx w v h
  cases hw : x w with
  | mk out w₁ =>
    cases hv : x v with
    | mk out' v₁ =>
      rw [hw, hv] at hout hrelated
      dsimp only at hout hrelated
      subst hout
      cases out with
      | ok a => exact .inl ⟨a, w₁, v₁, rfl, rfl, hrelated⟩
      | error e => exact .inr ⟨e, w₁, v₁, rfl, rfl, hrelated⟩

theorem Follows.bind {x : Action α} {f : α → Action β} (hx : x.Follows R)
    (hf : ∀ a, (f a).Follows R) : (x >>= f).Follows R := by
  intro w v h
  rcases hx.cases h with ⟨a, w₁, v₁, hw, hv, h₁⟩ | ⟨e, w₁, v₁, hw, hv, h₁⟩
  · rw [bind_of_ok hw, bind_of_ok hv]
    exact hf a w₁ v₁ h₁
  · rw [bind_of_error hw, bind_of_error hv]
    exact ⟨rfl, h₁⟩

theorem Follows.attempt {x : Action α} (hx : x.Follows R) : x.attempt.Follows R := by
  intro w v h
  obtain ⟨hout, hrelated⟩ := hx w v h
  exact ⟨congrArg Except.ok hout, hrelated⟩

theorem follows_discard {path : Text} (h : (edit (.unlink path)).Follows R) : (discard path).Follows R :=
  h.attempt.bind fun _ => follows_pure ()

/-- The action ends alike in worlds that are alike. -/
def Respects (act : Action α) : Prop :=
  ∀ w v, Alike w v → (act w).1 = (act v).1 ∧ Alike (act w).2 (act v).2

theorem respects_streamGit (args : List Text) (cwd : Text) : (streamGit args cwd).Respects := by
  intro w v h
  rw [streamGit_apply, streamGit_apply, h.git, h.calls]
  exact ⟨rfl, h.asked _⟩

theorem respects_edit (e : Disk.Edit) : (edit e).Respects := by
  intro w v h
  have hrefuses : w.refuses w.edits e = v.refuses v.edits e := h.refuses [] e
  unfold edit
  dsimp only
  rw [hrefuses, h.disk]
  cases v.refuses v.edits e with
  | some s => exact ⟨rfl, h.edited e _⟩
  | none =>
    cases v.disk.apply e with
    | ok d => exact ⟨rfl, h.edited e d⟩
    | error err => exact ⟨rfl, h.edited e v.disk⟩

theorem respects_discard (path : Text) : (discard path).Respects :=
  follows_discard (respects_edit (.unlink path))

end Action

end PackageHistory
