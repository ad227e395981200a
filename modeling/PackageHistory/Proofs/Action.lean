import PackageHistory.Proofs.Disk
import PackageHistory.World

/-!
# Running actions

An action takes the world it is run in to an outcome and the world after it.
-/

namespace PackageHistory

/-- The world after git was called. -/
def World.asked (w : World) (call : GitCall) : World := { w with calls := call :: w.calls }

@[simp] theorem World.asked_disk (w : World) (call : GitCall) : (w.asked call).disk = w.disk := rfl
@[simp] theorem World.asked_git (w : World) (call : GitCall) : (w.asked call).git = w.git := rfl
@[simp] theorem World.asked_stamp (w : World) (call : GitCall) : (w.asked call).stamp = w.stamp := rfl

/-- The world after an edit was tried. -/
def World.edited (w : World) (e : Disk.Edit) (d : Disk) : World :=
  { w with edits := e :: w.edits, disk := d }

@[simp] theorem World.edited_disk (w : World) (e : Disk.Edit) (d : Disk) :
    (w.edited e d).disk = d := rfl

namespace Action

variable {α β : Type}

@[simp] theorem pure_apply (a : α) (w : World) : (pure a : Action α) w = (.ok a, w) := rfl

@[simp] theorem fail_apply (e : Failure) (w : World) : (fail e : Action α) w = (.error e, w) := rfl

theorem ofExcept_ok {ε : Type} (wrap : ε → Failure) (a : α) (w : World) :
    ofExcept wrap (.ok a) w = (.ok a, w) := rfl

theorem ofExcept_error {ε : Type} (wrap : ε → Failure) (e : ε) (w : World) :
    (ofExcept wrap (.error e) : Action α) w = (.error (wrap e), w) := rfl

theorem bind_apply (x : Action α) (f : α → Action β) (w : World) :
    (x >>= f) w =
      match x w with
      | (.ok a, w') => f a w'
      | (.error e, w') => (.error e, w') := by
  show ExceptT.bindCont f (x w).1 (x w).2 = _
  cases x w with
  | mk outcome w' => cases outcome <;> rfl

theorem bind_of_ok {x : Action α} {w w' : World} {a : α} (h : x w = (.ok a, w'))
    (f : α → Action β) : (x >>= f) w = f a w' := by
  rw [bind_apply, h]

theorem bind_of_error {x : Action α} {w w' : World} {e : Failure} (h : x w = (.error e, w'))
    (f : α → Action β) : (x >>= f) w = (.error e, w') := by
  rw [bind_apply, h]

theorem bind_fails {x : Action α} {w : World} {e : Failure} (h : (x w).1 = .error e)
    (f : α → Action β) : ((x >>= f) w).1 = .error e := by
  rw [bind_apply]
  cases hx : x w with
  | mk out w₁ =>
    rw [hx] at h
    obtain rfl : out = .error e := h
    rfl

/-- A run of two actions that succeeds is one of the first and then one of the second. -/
theorem bind_apply_eq_ok {x : Action α} {f : α → Action β} {w w' : World} {b : β}
    (h : (x >>= f) w = (.ok b, w')) : ∃ a w₁, x w = (.ok a, w₁) ∧ f a w₁ = (.ok b, w') := by
  rw [bind_apply] at h
  cases hx : x w with
  | mk out w₁ =>
    rw [hx] at h
    cases out with
    | ok a => exact ⟨a, w₁, rfl, h⟩
    | error e => cases h

@[simp] theorem attempt_apply (x : Action α) (w : World) : x.attempt w = (.ok (x w).1, (x w).2) := rfl

@[simp] theorem stamp_apply (w : World) : stamp w = (.ok w.stamp, w) := rfl

@[simp] theorem runGit_apply (args : List Text) (cwd : Text) (w : World) :
    runGit args cwd w = (w.git.run w.calls ⟨.run, args, cwd⟩, w.asked ⟨.run, args, cwd⟩) := rfl

@[simp] theorem streamGit_apply (args : List Text) (cwd : Text) (w : World) :
    streamGit args cwd w =
      (.ok (w.git.stream w.calls ⟨.lines, args, cwd⟩), w.asked ⟨.lines, args, cwd⟩) := rfl

theorem look_of_ok {f : Disk → Except Disk.Error α} {w : World} {a : α} (h : f w.disk = .ok a) :
    look f w = (.ok a, w) := by
  rw [look, h]

theorem look_of_error {f : Disk → Except Disk.Error α} {w : World} {e : Disk.Error}
    (h : f w.disk = .error e) : look f w = (.error (.disk e), w) := by
  rw [look, h]

/-- An edit is done as the tree allows it, or fails, which may leave a part of it done. -/
theorem edit_cases (e : Disk.Edit) (w : World) :
    (∃ d, w.disk.apply e = .ok d ∧ edit e w = (.ok (), w.edited e d)) ∨
      ∃ err d, w.disk.Part e d ∧ edit e w = (.error (.disk err), w.edited e d) := by
  unfold edit
  dsimp only
  cases w.refuses w.edits e with
  | some s => exact .inr ⟨s.error, _, w.disk.part_tear s e, rfl⟩
  | none =>
    cases h : w.disk.apply e with
    | ok d => exact .inl ⟨d, rfl, rfl⟩
    | error err => exact .inr ⟨err, w.disk, .nothing e, rfl⟩

theorem edit_eq_ok {e : Disk.Edit} {w w' : World} (h : edit e w = (.ok (), w')) :
    ∃ d, w.disk.apply e = .ok d ∧ w' = w.edited e d := by
  rcases edit_cases e w with ⟨d, happly, hedit⟩ | ⟨err, d, -, hedit⟩
  · rw [hedit] at h
    exact ⟨d, happly, (congrArg Prod.snd h).symm⟩
  · rw [hedit] at h
    cases h

/-- An edit that the disk does not refuse fails only where the tree does not allow it. -/
theorem edit_eq_ok_iff {e : Disk.Edit} {w : World} :
    (edit e w).1 = .ok () ↔ w.refuses w.edits e = none ∧ ∃ d, w.disk.apply e = .ok d := by
  unfold edit
  dsimp only
  cases w.refuses w.edits e with
  | some s => simp
  | none => cases w.disk.apply e <;> simp

theorem edit_keepsBut (file : Text) (e : Disk.Edit) (he : e.IsOf file) (w : World) :
    w.disk.KeepsBut file (edit e w).2.disk := by
  rcases edit_cases e w with ⟨d, happly, hedit⟩ | ⟨err, d, hpart, hedit⟩
  · rw [hedit]
    exact Disk.keepsBut_apply he happly
  · rw [hedit]
    exact Disk.keepsBut_part he hpart

/-- What cannot be discarded is let be. -/
theorem discard_apply (path : Text) (w : World) :
    discard path w = (.ok (), (edit (.unlink path) w).2) :=
  bind_of_ok (attempt_apply (edit (.unlink path)) w) _

end Action

end PackageHistory
