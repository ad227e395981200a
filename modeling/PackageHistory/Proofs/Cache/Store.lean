import PackageHistory.Cache.Store
import PackageHistory.Proofs.Evolution
import PackageHistory.Proofs.Path.Resolve

/-!
# Reading and saving a cache

A save either puts the whole new content at the path of the cache, or leaves every other file as it was;
the file beside the cache is gone in both cases, unless it was the removal of it that failed.
-/

namespace PackageHistory.Cache

variable {path : Text} {expected : Number} {w : World}

/-! ## Reading -/

/-- What reading a cache gives, which changes nothing. -/
def readOutcome (path : Text) (expected : Number) (d : Disk) : Except Failure (Option Entry) :=
  match d.read path with
  | .ok c => (ofContent path expected c).map some
  | .error ⟨.noEntry, _⟩ => .ok none
  | .error e => .error (.cacheCorrupt path (.unreadable e))

theorem read_apply : read path expected w = (readOutcome path expected w.disk, w) := by
  unfold read readOutcome
  cases h : w.disk.read path with
  | ok c =>
    have hlook : (Action.look (·.read path)).attempt w = (.ok (.ok c), w) := by
      rw [Action.attempt_apply, Action.look_of_ok h]
    rw [Action.bind_of_ok hlook]
    dsimp only
    cases ofContent path expected c with
    | ok e => exact Action.bind_of_ok (Action.ofExcept_ok id e w) _
    | error err => exact Action.bind_of_error (Action.ofExcept_error id err w) _
  | error err =>
    have hlook : (Action.look (·.read path)).attempt w = (.ok (.error (.disk err)), w) := by
      rw [Action.attempt_apply, Action.look_of_error h]
    rw [Action.bind_of_ok hlook]
    obtain ⟨code, attempt⟩ := err
    cases code <;> rfl

theorem readOutcome_eq_some_iff {d : Disk} {e : Entry} :
    readOutcome path expected d = .ok (some e) ↔
      ∃ c, d.read path = .ok c ∧ ofContent path expected c = .ok e := by
  unfold readOutcome
  cases d.read path with
  | ok c => cases hc : ofContent path expected c <;> simp [hc, Except.map]
  | error err =>
    obtain ⟨code, attempt⟩ := err
    cases code <;> simp

theorem load_of_read {e : Entry} (h : (read path expected w).1 = .ok (some e)) :
    load path expected w = (.ok (some e), w) := by
  have hread : (read path expected).attempt w = (.ok (.ok (some e)), w) := by
    rw [Action.attempt_apply, h, read_apply]
  unfold load
  rw [Action.bind_of_ok hread]
  rfl

/-- A cache that is of no use is removed, and nothing is loaded. -/
theorem load_cases (path : Text) (expected : Number) (w : World) :
    (∃ cached, readOutcome path expected w.disk = .ok cached ∧
        load path expected w = (.ok cached, w)) ∨
      ∃ out w', load path expected w = (out, w') ∧ (∀ e, out ≠ .ok (some e)) ∧ w'.git = w.git ∧
        w'.disk.cwd = w.disk.cwd ∧
        ∀ p, w'.disk.fileAt p = w.disk.fileAt p ∨ w'.disk.fileAt p = none := by
  have hread : (read path expected).attempt w = (.ok (readOutcome path expected w.disk), w) := by
    rw [Action.attempt_apply, read_apply]
  unfold load
  rw [Action.bind_of_ok hread]
  cases readOutcome path expected w.disk with
  | ok cached => exact .inl ⟨cached, rfl, rfl⟩
  | error e =>
    right
    dsimp only
    by_cases hinvalid : e.isCacheInvalid = true
    · rw [if_pos hinvalid]
      rcases Action.edit_cases (.remove path) w with ⟨d, happly, hedit⟩ | ⟨err, d, hpart, hedit⟩
      · have hpart := Disk.part_remove happly
        exact ⟨_, _, Action.bind_of_ok hedit _, nofun, rfl, hpart.cwd, hpart.fileAt_removal⟩
      · exact ⟨_, _, Action.bind_of_error hedit _, nofun, rfl, hpart.cwd, hpart.fileAt_removal⟩
    · rw [if_neg hinvalid]
      exact ⟨.error e, w, rfl, nofun, rfl, rfl, fun _ => .inl rfl⟩

/-! ## The file beside a cache -/

theorem tempPath_append (lead last stamp : Text) :
    tempPath (lead ++ last) stamp = lead ++ (last ++ (".tmp.".toList ++ stamp)) := by
  rw [tempPath, List.append_assoc, List.append_assoc]

theorem isName_temp {last stamp : Text} (hlast : '/' ∉ last) (hstamp : '/' ∉ stamp) :
    Path.IsName (last ++ (".tmp.".toList ++ stamp)) := by
  have hlong : 5 ≤ (last ++ (".tmp.".toList ++ stamp)).length := by simp; omega
  refine ⟨fun hmem => ?_, ?_, ?_, ?_⟩
  · rcases List.mem_append.mp hmem with hmem | hmem
    · exact hlast hmem
    · exact (List.mem_append.mp hmem).elim (by decide) hstamp
  all_goals
    intro heq
    rw [heq] at hlong
    exact absurd hlong (by decide)

/-- The file that a save writes is another one than that it is to replace. -/
theorem resolve_ne_tempPath {stamp : Text} (hstamp : '/' ∉ stamp) (cwd : Path) (path : Text) :
    Path.resolve cwd path ≠ Path.resolve cwd (tempPath path stamp) := by
  obtain ⟨lead, last, rfl, hlead, hlast⟩ := Path.exists_lead path
  have hname := isName_temp hlast hstamp
  rw [tempPath_append, Path.resolve_append hlead hlast, Path.resolve_append hlead hname.slash,
    Path.step_of_isName hname]
  intro hsame
  unfold Path.step at hsame
  split at hsame
  · have hlength := congrArg List.length hsame
    simp at hlength
  · split at hsame
    · have hlength := congrArg List.length hsame
      simp at hlength
    · have hlength := congrArg List.length (List.singleton_inj.mp (List.append_cancel_left hsame))
      simp at hlength

/-! ## Saving -/

/-- The edits that bring a cache file up to date by way of a file beside it. -/
def Edits (path temp : Text) : Disk.Edit → Prop
  | .makeFolders folder => folder = Path.parentText path
  | .write file _ => file = temp
  | .rename src dst => src = temp ∧ dst = path
  | .unlink file => file = temp
  | .remove file => file = path

/-- The steps of a save. -/
def saveSteps (path temp : Text) (e : Entry) : Action Unit := do
  Action.edit (.makeFolders (Path.parentText path))
  Action.edit (.write temp (content e))
  Action.edit (.rename temp path)

theorem rename_written {path temp c : Text} {d d₁ d₂ : Disk} (hwrite : d.write temp c = .ok d₁)
    (hrename : d₁.rename temp path = .ok d₂) :
    d₂.cwd = d.cwd ∧ d₂.read path = .ok c ∧ ∀ p, d₂.fileAt p =
      if p = d.resolve path then some (c, false)
      else if p = d.resolve temp then none else d.fileAt p := by
  have hblocked := Disk.blocked?_of_rename hrename
  obtain ⟨-, rfl⟩ := Disk.write_eq_ok hwrite
  obtain ⟨c', locked, hsrc, -, rfl⟩ := Disk.rename_eq_ok hrename
  have hresolve (t : Text) : (d.set (d.resolve temp) (.file c false)).resolve t = d.resolve t := rfl
  rw [hresolve] at hsrc hblocked
  rw [Disk.fileAt_set_file, if_pos rfl] at hsrc
  obtain ⟨rfl, rfl⟩ : c = c' ∧ false = locked := by simpa using hsrc
  have hfiles (p : Path) :
      (((d.set (d.resolve temp) (.file c false)).erase (d.resolve temp)).set (d.resolve path)
          (.file c false)).fileAt p =
        if p = d.resolve path then some (c, false)
        else if p = d.resolve temp then none else d.fileAt p := by
    rw [Disk.fileAt_set_file, Disk.fileAt_erase, Disk.fileAt_set_file]
    split
    · rfl
    · split <;> rfl
  refine ⟨rfl, Disk.read_eq_ok_iff.mpr ⟨hblocked, ?_⟩, hfiles⟩
  exact (hfiles _).trans (if_pos rfl)

theorem saveSteps_evolves (path temp : Text) (e : Entry) (w : World) :
    w.Evolves (Edits path temp) (saveSteps path temp e w).2 := by
  unfold saveSteps
  refine Action.bind_evolves (.edit _ .start rfl) fun _ w₁ _ => ?_
  exact Action.bind_evolves (.edit _ .start rfl) fun _ w₂ _ => .edit _ .start ⟨rfl, rfl⟩

theorem saveSteps_cases (path temp : Text) (e : Entry) (w : World) :
    (∃ w', saveSteps path temp e w = (.ok (), w') ∧ w'.disk.cwd = w.disk.cwd ∧
        w'.disk.read path = .ok (content e) ∧ ∀ p, w'.disk.fileAt p =
          if p = w.disk.resolve path then some (content e, false)
          else if p = w.disk.resolve temp then none else w.disk.fileAt p) ∨
      ∃ err w', saveSteps path temp e w = (.error (.disk err), w') ∧
        w.disk.KeepsBut temp w'.disk := by
  have hmade := Action.edit_keepsBut temp (.makeFolders (Path.parentText path)) trivial w
  unfold saveSteps
  rcases Action.edit_cases (.makeFolders (Path.parentText path)) w with
    ⟨d₁, hmake, hedit₁⟩ | ⟨err, d₁, -, hedit₁⟩
  · have hwritten := Action.edit_keepsBut temp (.write temp (content e)) rfl
      (w.edited (.makeFolders (Path.parentText path)) d₁)
    rw [hedit₁] at hmade
    rw [Action.bind_of_ok hedit₁]
    rcases Action.edit_cases (.write temp (content e)) (w.edited _ d₁) with
      ⟨d₂, hwrite, hedit₂⟩ | ⟨err, d₂, -, hedit₂⟩
    · rw [hedit₂] at hwritten
      rw [Action.bind_of_ok hedit₂]
      rcases Action.edit_cases (.rename temp path) ((w.edited _ d₁).edited _ d₂) with
        ⟨d₃, hrename, hedit₃⟩ | ⟨err, d₃, hpart, hedit₃⟩
      · left
        have hfiles₁ := (Disk.fileAt_makeFirst hmake).2
        obtain ⟨hcwd₃, hread, hfiles₃⟩ := rename_written (show d₁.write _ _ = _ from hwrite) hrename
        have hresolve (t : Text) : d₁.resolve t = w.disk.resolve t := hmade.resolve t
        simp only [hresolve, hfiles₁] at hfiles₃
        exact ⟨_, hedit₃, hcwd₃.trans hmade.cwd, hread, hfiles₃⟩
      · obtain rfl : d₃ = d₂ := hpart.eq_of_rename
        exact .inr ⟨err, _, hedit₃, hmade.trans hwritten⟩
    · rw [hedit₂] at hwritten
      exact .inr ⟨err, _, Action.bind_of_error hedit₂ _, hmade.trans hwritten⟩
  · rw [hedit₁] at hmade
    exact .inr ⟨err, _, Action.bind_of_error hedit₁ _, hmade⟩

theorem save_of_written {path : Text} {e : Entry} {w w' : World}
    (h : saveSteps path (tempPath path w.stamp) e w = (.ok (), w')) :
    save path e w = (.ok (), w') := by
  have hattempt : (saveSteps path (tempPath path w.stamp) e).attempt w = (.ok (.ok ()), w') := by
    rw [Action.attempt_apply, h]
  unfold save
  rw [Action.bind_of_ok (Action.stamp_apply w)]
  exact Action.bind_of_ok hattempt _

theorem save_of_failed {path : Text} {e : Entry} {w w' : World} {err : Disk.Error}
    (h : saveSteps path (tempPath path w.stamp) e w = (.error (.disk err), w')) :
    save path e w = (.error (.cachePersist path (.disk err)),
      (Action.edit (.unlink (tempPath path w.stamp)) w').2) := by
  have hattempt : (saveSteps path (tempPath path w.stamp) e).attempt w =
      (.ok (.error (.disk err)), w') := by
    rw [Action.attempt_apply, h]
  unfold save
  rw [Action.bind_of_ok (Action.stamp_apply w)]
  refine (Action.bind_of_ok hattempt _).trans ?_
  exact Action.bind_of_ok (Action.discard_apply ..) _

/-- A save puts the whole new content in its place, or fails and changes no file but the one beside it. That
is gone then, unless it could not be removed. -/
theorem save_cases (path : Text) (e : Entry) (w : World) :
    (∃ w', save path e w = (.ok (), w') ∧ w'.disk.cwd = w.disk.cwd ∧
        w'.disk.read path = .ok (content e) ∧ ∀ p, w'.disk.fileAt p =
          if p = w.disk.resolve path then some (content e, false)
          else if p = w.disk.resolve (tempPath path w.stamp) then none else w.disk.fileAt p) ∨
      ∃ reason w', save path e w = (.error (.cachePersist path reason), w') ∧
        w.disk.KeepsBut (tempPath path w.stamp) w'.disk ∧
        (w'.disk.fileAt (w.disk.resolve (tempPath path w.stamp)) = none ∨
          (save path e).LeavesBehind (tempPath path w.stamp) w) := by
  rcases saveSteps_cases path (tempPath path w.stamp) e w with
    ⟨w', hsteps, hcwd, hread, hfiles⟩ | ⟨err, w', hsteps, hkeeps⟩
  · exact .inl ⟨w', save_of_written hsteps, hcwd, hread, hfiles⟩
  · have hsave := save_of_failed hsteps
    have hunlinked := Action.edit_keepsBut _ (.unlink (tempPath path w.stamp)) rfl w'
    refine .inr ⟨.disk err, _, hsave, hkeeps.trans hunlinked, ?_⟩
    rcases Action.edit_cases (.unlink (tempPath path w.stamp)) w' with
      ⟨d, happly, hedit⟩ | ⟨failure, d, -, hedit⟩
    · left
      rw [hedit, World.edited_disk, Disk.unlink_eq_ok happly, hkeeps.resolve, Disk.fileAt_erase, if_pos rfl]
    · right
      have hevolves := saveSteps_evolves path (tempPath path w.stamp) e w
      rw [hsteps] at hevolves
      refine ⟨w', .disk failure, ⟨hevolves.mono fun _ _ => trivial, ?_⟩, ?_⟩
      · rw [hsave]
        exact .edit _ .start trivial
      · rw [hsave, hedit]

end PackageHistory.Cache
