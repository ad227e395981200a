import PackageHistory.Proofs.Spared

/-!
# What becomes of a world

An action asks git and tries edits. What holds of each edit that it may try holds of all that becomes of a
world in which it is run. A world knows what was asked and tried, which tells apart the worlds that a run goes
through.
-/

namespace PackageHistory

/-- What may become of a world when git is asked and no edits but some are tried, in whatever order. -/
inductive World.Evolves (Tries : Disk.Edit → Prop) (w : World) : World → Prop where
  | start : Evolves Tries w w
  | asked {w' : World} (call : GitCall) : Evolves Tries w w' → Evolves Tries w (w'.asked call)
  | edit {w' : World} (e : Disk.Edit) :
      Evolves Tries w w' → Tries e → Evolves Tries w (Action.edit e w').2

namespace World.Evolves

variable {Tries : Disk.Edit → Prop} {p : Path} {w w₁ w₂ : World}

theorem trans (h : w.Evolves Tries w₁) (h' : w₁.Evolves Tries w₂) : w.Evolves Tries w₂ := by
  induction h' with
  | start => exact h
  | asked call _ ih => exact .asked call ih
  | edit e _ he ih => exact .edit e ih he

theorem mono {Tries' : Disk.Edit → Prop} (h : w.Evolves Tries w₁) (hTries : ∀ e, Tries e → Tries' e) :
    w.Evolves Tries' w₁ := by
  induction h with
  | start => exact .start
  | asked call _ ih => exact .asked call ih
  | edit e _ he ih => exact .edit e ih (hTries e he)

theorem stamp (h : w.Evolves Tries w₁) : w₁.stamp = w.stamp := by
  induction h with
  | start => rfl
  | asked call _ ih => exact ih
  | @edit w' e _ _ ih =>
    rcases Action.edit_cases e w' with ⟨d, -, hedit⟩ | ⟨err, d, -, hedit⟩ <;> rw [hedit] <;> exact ih

/-- When each edit avoids a path, what can be read there stays. -/
theorem spares (h : w.Evolves Tries w₁) (havoids : ∀ e, Tries e → e.Avoids w.disk p) :
    w.Spares p w₁ := by
  induction h with
  | start => exact .refl p w
  | asked call _ ih => exact ih.trans (.asked p _ call)
  | edit e _ he ih => exact ih.trans (Action.edit_spares ((havoids e he).of_cwd ih.cwd))

/-- When each edit passes a path by, so does all that happens. -/
theorem bypasses (h : w.Evolves Tries w₁) (hpasses : ∀ e, Tries e → e.PassesBy w.disk p) :
    w.disk.Bypasses p w₁.disk := by
  induction h with
  | start => exact .refl p w.disk
  | asked call _ ih => exact ih
  | @edit w' e _ he ih =>
    have hpass : e.PassesBy w'.disk p := (hpasses e he).of_cwd ih.cwd
    rcases Action.edit_cases e w' with ⟨d, happly, hedit⟩ | ⟨err, d, hpart, hedit⟩
    · rw [hedit]
      exact ih.trans (.apply hpass happly)
    · rw [hedit]
      exact ih.trans (.part hpass hpart)

end World.Evolves

/-! ## What was tried -/

namespace Action

theorem edit_tried (e : Disk.Edit) (w : World) :
    (edit e w).2.edits = e :: w.edits ∧ (edit e w).2.calls = w.calls := by
  rcases edit_cases e w with ⟨d, -, hedit⟩ | ⟨err, d, -, hedit⟩ <;> rw [hedit] <;> exact ⟨rfl, rfl⟩

end Action

/-- The world after some edits were tried, latest first. -/
def World.after (w : World) (tried : List Disk.Edit) : World :=
  tried.foldr (fun e v => (Action.edit e v).2) w

theorem World.after_cons (w : World) (e : Disk.Edit) (tried : List Disk.Edit) :
    w.after (e :: tried) = (Action.edit e (w.after tried)).2 := rfl

theorem World.after_tried (w : World) (tried : List Disk.Edit) :
    (w.after tried).edits = tried ++ w.edits ∧ (w.after tried).calls = w.calls := by
  induction tried with
  | nil => exact ⟨rfl, rfl⟩
  | cons e rest ih =>
    obtain ⟨hedits, hcalls⟩ := Action.edit_tried e (w.after rest)
    rw [World.after_cons, hedits, hcalls, ih.1]
    exact ⟨rfl, ih.2⟩

theorem World.after_keepsBut (file : Text) (w : World) (tried : List Disk.Edit)
    (h : ∀ e ∈ tried, e.IsOf file) : w.disk.KeepsBut file (w.after tried).disk := by
  induction tried with
  | nil => exact .refl file w.disk
  | cons e rest ih =>
    obtain ⟨he, hrest⟩ := List.forall_mem_cons.mp h
    exact (ih hrest).trans (Action.edit_keepsBut file e he _)

namespace World.Evolves

variable {Tries : Disk.Edit → Prop} {w w₁ : World} {tried : List Disk.Edit}

theorem edits_suffix (h : w.Evolves Tries w₁) : w.edits <:+ w₁.edits := by
  induction h with
  | start => exact List.suffix_rfl
  | asked call _ ih => exact ih
  | edit e _ _ ih =>
    rw [(Action.edit_tried ..).1]
    exact ih.trans (List.suffix_cons ..)

theorem calls_suffix (h : w.Evolves Tries w₁) : w.calls <:+ w₁.calls := by
  induction h with
  | start => exact List.suffix_rfl
  | asked call _ ih => exact ih.trans (List.suffix_cons ..)
  | edit e _ _ ih => rwa [(Action.edit_tried ..).2]

/-- Where git was not asked, what was tried tells what became of a world. -/
theorem eq_after (h : w.Evolves Tries w₁) (hcalls : w₁.calls = w.calls)
    (hedits : w₁.edits = tried ++ w.edits) : w₁ = w.after tried := by
  induction h generalizing tried with
  | start =>
    rw [List.self_eq_append_left] at hedits
    rw [hedits]
    rfl
  | asked call hw' =>
    -- One more call would have been written down.
    have hlength := hw'.calls_suffix.length_le
    rw [← hcalls] at hlength
    exact absurd hlength (Nat.not_succ_le_self _)
  | @edit w' e hw' _ ih =>
    obtain ⟨rest, hrest⟩ := hw'.edits_suffix
    rw [(Action.edit_tried ..).1, ← hrest, ← List.cons_append, List.append_cancel_right_eq] at hedits
    subst hedits
    rw [(Action.edit_tried ..).2] at hcalls
    rw [World.after_cons, ← ih hcalls hrest.symm]

theorem eq_of_tried (h : w.Evolves Tries w₁) (hcalls : w₁.calls = w.calls)
    (hedits : w₁.edits = w.edits) : w₁ = w :=
  h.eq_after hcalls (hedits.trans (List.nil_append _).symm)

end World.Evolves

theorem Action.bind_evolves {α β : Type} {Tries : Disk.Edit → Prop} {w : World} {x : Action α}
    {f : α → Action β} (hx : w.Evolves Tries (x w).2)
    (hf : ∀ a w', x w = (.ok a, w') → w'.Evolves Tries (f a w').2) :
    w.Evolves Tries ((x >>= f) w).2 := by
  cases hrun : x w with
  | mk out w' =>
    rw [hrun] at hx
    cases out with
    | ok a =>
      rw [bind_of_ok hrun]
      exact hx.trans (hf a w' hrun)
    | error e =>
      rw [bind_of_error hrun]
      exact hx

/-! ## What a run goes through -/

namespace Action

variable {α β : Type} {act : Action α} {last : Action β} {file : Text} {w w₁ : World}

/-- A world that a run goes through comes of the first one, and the last one comes of it. All that was asked
and tried is written down in a world, so no step but those of the run can be between them. -/
def PassesThrough (act : Action α) (w v : World) : Prop :=
  w.Evolves (fun _ => True) v ∧ v.Evolves (fun _ => True) (act w).2

/-- The last that a run does is to try to remove a file, which fails. -/
def LeavesBehind (act : Action α) (file : Text) (w : World) : Prop :=
  ∃ v err, act.PassesThrough w v ∧ edit (.unlink file) v = (.error err, (act w).2)

theorem LeavesBehind.of_last (h : last.LeavesBehind file w₁) (hw : w.Evolves (fun _ => True) w₁)
    (hend : (act w).2 = (last w₁).2) : act.LeavesBehind file w := by
  obtain ⟨v, err, ⟨hv, hlast⟩, hedit⟩ := h
  rw [← hend] at hlast hedit
  exact ⟨v, err, ⟨hw.trans hv, hlast⟩, hedit⟩

end Action

end PackageHistory
