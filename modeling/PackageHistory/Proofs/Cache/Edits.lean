import PackageHistory.Proofs.Cache.Refresh
import PackageHistory.Proofs.Evolution

/-!
# What a refresh edits

A refresh edits its own cache file, the file beside it and the folders they are in, and nothing else.
-/

namespace PackageHistory.Cache

theorem load_evolves (path temp : Text) (expected : Number) (w : World) :
    w.Evolves (Edits path temp) (load path expected w).2 := by
  have hread : (read path expected).attempt w = (.ok (readOutcome path expected w.disk), w) := by
    rw [Action.attempt_apply, read_apply]
  unfold load
  rw [Action.bind_of_ok hread]
  cases readOutcome path expected w.disk with
  | ok cached => exact .start
  | error err =>
    dsimp only
    split
    · exact Action.bind_evolves (.edit _ .start rfl) fun _ _ _ => .start
    · exact .start

theorem save_evolves (path : Text) (e : Entry) (w : World) :
    w.Evolves (Edits path (tempPath path w.stamp)) (save path e w).2 := by
  have hevolves := saveSteps_evolves path (tempPath path w.stamp) e w
  rcases saveSteps_cases path (tempPath path w.stamp) e w with
    ⟨w', hsteps, -⟩ | ⟨err, w', hsteps, -⟩
  · rw [hsteps] at hevolves
    rw [save_of_written hsteps]
    exact hevolves
  · rw [hsteps] at hevolves
    rw [save_of_failed hsteps]
    exact .edit _ hevolves rfl

namespace Spot

variable {spot : Spot} {anew : Bool} {w : World} {p : Path}

theorem refreshTo_evolves (spot : Spot) (cached : Option Entry) (head : Text) (w : World) :
    w.Evolves (Edits spot.file (tempPath spot.file w.stamp)) (spot.refreshTo cached head w).2 := by
  by_cases hsame : cached.any (·.head = head) = true
  · rw [refreshTo_of_same hsame]
    exact .start
  have hasked : w.Evolves (Edits spot.file (tempPath spot.file w.stamp))
      (w.asked (spot.logCall (missingRange cached head))) := .asked _ .start
  rcases Log.source_cases (spot.logOf (missingRange cached head) w) with
    hwhole | hbreaks | ⟨err, hfailure, hgit, htruncated⟩
  · rw [refreshTo_of_isWhole hsame hwhole]
    have hsaved := save_evolves spot.file (spot.mergedEntry cached head w)
      (w.asked (spot.logCall (missingRange cached head)))
    exact hasked.trans (Action.bind_evolves hsaved fun _ _ _ => .start)
  · rw [refreshTo_of_breaksOff hsame hbreaks]
    exact hasked
  · rw [refreshTo_of_failure hsame hfailure hgit htruncated]
    exact hasked

theorem resolveCommit_evolves (spot : Spot) (tries : Disk.Edit → Prop) (ref : Text) (w : World) :
    w.Evolves tries (spot.resolveCommit ref w).2 := by
  rcases spot.resolveCommit_cases w ref with ⟨_, -, -, hresolve⟩ | ⟨_, hresolve⟩ <;>
    rw [hresolve] <;> exact .asked _ .start

/-- A load writes nothing, so the file beside the cache may be any. -/
theorem start_evolves (spot : Spot) (anew : Bool) (temp : Text) (w : World) :
    w.Evolves (Edits spot.file temp)
      ((if anew then pure none else load spot.file spot.schemaVersion) w).2 := by
  cases anew with
  | true => exact .start
  | false => exact load_evolves _ _ _ _

/-- A refresh edits nothing but its cache file, the file beside it and the folders it is in. -/
theorem refresh_evolves (spot : Spot) (anew : Bool) (w : World) :
    w.Evolves (Edits spot.file (tempPath spot.file w.stamp)) (spot.refresh anew w).2 := by
  rw [refresh_eq]
  refine Action.bind_evolves (spot.resolveCommit_evolves _ _ w) fun head w₁ hw₁ => ?_
  have hstamp₁ : w₁.stamp = w.stamp := by
    have h := spot.resolveCommit_evolves (fun _ => False) spot.publishedRef w
    rw [hw₁] at h
    exact h.stamp
  refine Action.bind_evolves (spot.start_evolves anew _ w₁) fun cached w₂ hw₂ => ?_
  have hstamp₂ : w₂.stamp = w₁.stamp := by
    have h := spot.start_evolves anew [] w₁
    rw [hw₂] at h
    exact h.stamp
  rw [← hstamp₁, ← hstamp₂]
  exact refreshTo_evolves spot cached head w₂

theorem fileAt_refreshTo (cached : Option Entry) (head : Text) (hp : p ≠ w.disk.resolve spot.file) :
    (spot.refreshTo cached head w).2.disk.fileAt p = w.disk.fileAt p ∨
      (spot.refreshTo cached head w).2.disk.fileAt p = none ∨
      p = w.disk.resolve (tempPath spot.file w.stamp) ∧
        (spot.refreshTo cached head).LeavesBehind (tempPath spot.file w.stamp) w := by
  rcases refreshTo_cases spot cached head w with
    ⟨_, w', hto, hdisk, -⟩ | ⟨-, ⟨w', hto, -, -, hfiles⟩ | ⟨_, w', hto, hkeeps, htemp⟩⟩
  · rw [hto, hdisk]
    exact .inl rfl
  · rw [hto, hfiles, if_neg hp]
    split
    · exact .inr (.inl rfl)
    · exact .inl rfl
  · rw [hto]
    by_cases hbeside : p = w.disk.resolve (tempPath spot.file w.stamp)
    · rw [hbeside]
      exact .inr (htemp.imp_right fun hleft => ⟨rfl, hleft⟩)
    · exact .inl (hkeeps.others p hbeside)

/-- Where no file was, a refresh leaves none but its cache and a file beside it that it cannot remove. -/
theorem fileAt_refresh (hp : p ≠ w.disk.resolve spot.file) :
    (spot.refresh anew w).2.disk.fileAt p = w.disk.fileAt p ∨
      (spot.refresh anew w).2.disk.fileAt p = none ∨
      p = w.disk.resolve (tempPath spot.file w.stamp) ∧
        (spot.refresh anew).LeavesBehind (tempPath spot.file w.stamp) w := by
  rcases spot.resolveCommit_cases w spot.publishedRef with
    ⟨output, -, -, hresolve⟩ | ⟨err, hresolve⟩
  · obtain ⟨out, w₂, hstart, -, hcwd, hfiles, -⟩ :=
      start_cases spot anew (w.asked (spot.revCall spot.publishedRef))
    have hevolves := spot.start_evolves anew [] (w.asked (spot.revCall spot.publishedRef))
    rw [hstart] at hevolves
    have hrefresh := (refresh_eq anew).trans (Action.bind_of_ok hresolve _)
    cases out with
    | error err =>
      rw [hrefresh, Action.bind_of_error hstart]
      exact (hfiles p).imp_right .inl
    | ok cached =>
      rw [Action.bind_of_ok hstart] at hrefresh
      have hresolve₂ (t : Text) : w₂.disk.resolve t = w.disk.resolve t := congrArg (Path.resolve · t) hcwd
      have hto := spot.fileAt_refreshTo (w := w₂) cached output.trim (hresolve₂ _ ▸ hp)
      rw [← hrefresh, hevolves.stamp, hresolve₂] at hto
      rcases hto with hsame | hgone | ⟨hbeside, hleft⟩
      · rw [hsame]
        exact (hfiles p).imp_right .inl
      · exact .inr (.inl hgone)
      · refine .inr (.inr ⟨hbeside, hleft.of_last ?_ (congrArg Prod.snd hrefresh)⟩)
        exact (World.Evolves.asked _ .start).trans (hevolves.mono fun _ _ => trivial)
  · rw [refresh_of_unresolved hresolve]
    exact .inl rfl

end Spot

end PackageHistory.Cache
