import PackageHistory.Proofs.Cache.RoundTrip
import PackageHistory.Proofs.Evolution

/-!
# Saving is all or nothing

A save writes beside the cache and moves what it wrote to the cache. Until the move the file at the cache is the
old one, after it the whole new one, and a save that fails leaves all files as they were, but for the one beside
the cache where that cannot be removed again.
-/

namespace PackageHistory

namespace Cache

variable {path temp : Text} {e : Entry} {w v : World} {p : Path}

/-! ## Steps of a save -/

/-- What a save tries unless one of it fails, latest first. -/
def saveEdits (path temp : Text) (e : Entry) : List Disk.Edit :=
  [.rename temp path, .write temp (content e), .makeFolders (Path.parentText path)]

theorem saveSteps_after (path temp : Text) (e : Entry) (w : World) :
    ∃ tried, tried <:+ saveEdits path temp e ∧ (saveSteps path temp e w).2 = w.after tried := by
  unfold saveSteps saveEdits
  cases hmake : Action.edit (.makeFolders (Path.parentText path)) w with
  | mk out₁ w₁ =>
    cases out₁ with
    | error err =>
      rw [Action.bind_of_error hmake]
      exact ⟨[_], List.suffix_append [_, _] _, (congrArg Prod.snd hmake).symm⟩
    | ok =>
      rw [Action.bind_of_ok hmake]
      obtain rfl : w₁ = w.after [.makeFolders (Path.parentText path)] := (congrArg Prod.snd hmake).symm
      cases hwrite : Action.edit (.write temp (content e)) (w.after [.makeFolders (Path.parentText path)]) with
      | mk out₂ w₂ =>
        obtain rfl : w₂ = w.after [.write temp (content e), .makeFolders (Path.parentText path)] :=
          (congrArg Prod.snd hwrite).symm
        cases out₂ with
        | error err =>
          rw [Action.bind_of_error hwrite]
          exact ⟨_, List.suffix_cons _ _, rfl⟩
        | ok =>
          rw [Action.bind_of_ok hwrite]
          exact ⟨_, List.suffix_rfl, rfl⟩

/-- As long as a save only makes folders and writes beside the cache, the cache is as it was. -/
theorem fileAt_before_rename {tried : List Disk.Edit}
    (htried : tried <:+ [.write temp (content e), .makeFolders (Path.parentText path)])
    (hp : p ≠ w.disk.resolve temp) : (w.after tried).disk.fileAt p = w.disk.fileAt p := by
  refine (w.after_keepsBut temp tried fun edit hmem => ?_).others p hp
  rcases List.mem_cons.mp (htried.subset hmem) with rfl | hmem
  · exact rfl
  · rw [List.mem_singleton.mp hmem]
    trivial

/-- What a save goes through before it cleans up. -/
theorem saveSteps_between (hw : w.Evolves (fun _ => True) v) (hcalls : v.calls = w.calls)
    (hedits : v.edits <:+ (saveSteps path temp e w).2.edits) (hp : p ≠ w.disk.resolve temp) :
    v = (saveSteps path temp e w).2 ∨ v.disk.fileAt p = w.disk.fileAt p := by
  obtain ⟨tried, htried, hend⟩ := saveSteps_after path temp e w
  obtain ⟨first, hfirst⟩ := hw.edits_suffix
  have hsuffix : first <:+ tried := by
    rw [hend, (World.after_tried ..).1, ← hfirst] at hedits
    obtain ⟨rest, hrest⟩ := hedits
    rw [← List.append_assoc] at hrest
    exact ⟨rest, List.append_cancel_right hrest⟩
  have hv : v = w.after first := hw.eq_after hcalls hfirst.symm
  rcases List.suffix_cons_iff.mp (hsuffix.trans htried) with hall | hbefore
  · -- All was tried, so this is the end.
    left
    rw [hend, hv, hsuffix.eq_of_length_le (hall ▸ htried.length_le)]
  · right
    rw [hv]
    exact fileAt_before_rename hbefore hp

theorem save_between (h : (save path e).PassesThrough w v)
    (hp : p ≠ w.disk.resolve (tempPath path w.stamp)) :
    v = (save path e w).2 ∨ v = (saveSteps path (tempPath path w.stamp) e w).2 ∨
      v.disk.fileAt p = w.disk.fileAt p := by
  obtain ⟨hw, hv⟩ := h
  obtain ⟨tried, -, hafter⟩ := saveSteps_after path (tempPath path w.stamp) e w
  have hcalls : (saveSteps path (tempPath path w.stamp) e w).2.calls = w.calls := by
    rw [hafter, (World.after_tried ..).2]
  rcases saveSteps_cases path (tempPath path w.stamp) e w with
    ⟨w', hsteps, -⟩ | ⟨err, w', hsteps, -⟩
  · rw [save_of_written hsteps] at hv
    rw [hsteps] at hcalls
    right
    have hsame : v.calls = w.calls :=
      (hw.calls_suffix.eq_of_length_le (hcalls ▸ hv.calls_suffix.length_le)).symm
    exact saveSteps_between hw hsame (by rw [hsteps]; exact hv.edits_suffix) hp
  · obtain ⟨hedits', hcalls'⟩ := Action.edit_tried (.unlink (tempPath path w.stamp)) w'
    rw [hsteps] at hcalls
    rw [save_of_failed hsteps] at hv ⊢
    have hsame : v.calls = w.calls := by
      have hlength := hv.calls_suffix.length_le
      rw [hcalls', hcalls] at hlength
      exact (hw.calls_suffix.eq_of_length_le hlength).symm
    have hsuffix := hv.edits_suffix
    rw [hedits'] at hsuffix
    rcases List.suffix_cons_iff.mp hsuffix with hall | hbefore
    · left
      exact (hv.eq_of_tried ((hcalls'.trans hcalls).trans hsame.symm) (hedits'.trans hall.symm)).symm
    · right
      exact saveSteps_between hw hsame (by rw [hsteps]; exact hbefore) hp

/-- Where the file beside the cache is new, a save puts the whole new content in place of the cache and changes
no other file, or it fails and changes none, but for that file beside the cache if it cannot be removed again.
All that it goes through has the old file there or the new one. -/
theorem save_all_or_nothing (path : Text) (e : Entry) (w : World)
    (hfresh : w.disk.fileAt (w.disk.resolve (tempPath path w.stamp)) = none) :
    (((save path e w).1 = .ok () ∧ (save path e w).2.disk.read path = .ok (content e) ∧
        ∀ p, (save path e w).2.disk.fileAt p =
          if p = w.disk.resolve path then some (content e, false) else w.disk.fileAt p) ∨
      ∃ reason, (save path e w).1 = .error (.cachePersist path reason) ∧
        (∀ p, p ≠ w.disk.resolve (tempPath path w.stamp) →
          (save path e w).2.disk.fileAt p = w.disk.fileAt p) ∧
        ((∀ p, (save path e w).2.disk.fileAt p = w.disk.fileAt p) ∨
          (save path e).LeavesBehind (tempPath path w.stamp) w)) ∧
    ∀ v, (save path e).PassesThrough w v →
      v.disk.fileAt (w.disk.resolve path) = w.disk.fileAt (w.disk.resolve path) ∨
        v.disk.fileAt (w.disk.resolve path) = some (content e, false) := by
  have hne : w.disk.resolve path ≠ w.disk.resolve (tempPath path w.stamp) :=
    resolve_ne_tempPath w.stamp_plain w.disk.cwd path
  refine ⟨?_, fun v hv => ?_⟩
  · rcases save_cases path e w with ⟨w', hsave, -, hread, hfiles⟩ | ⟨reason, w', hsave, hkeeps, htemp⟩
    · rw [hsave]
      refine .inl ⟨rfl, hread, fun p => (hfiles p).trans ?_⟩
      split
      · rfl
      · split
        · next htemp => rw [htemp, hfresh]
        · rfl
    · rw [hsave]
      refine .inr ⟨reason, rfl, hkeeps.others, htemp.imp_left fun hgone p => ?_⟩
      by_cases hp : p = w.disk.resolve (tempPath path w.stamp)
      · rw [hp, hfresh]
        exact hgone
      · exact hkeeps.others p hp
  rcases save_between hv hne with rfl | rfl | hsame
  · rcases save_cases path e w with ⟨w', hsave, -, -, hfiles⟩ | ⟨reason, w', hsave, hkeeps, -⟩
    · rw [hsave]
      exact .inr ((hfiles _).trans (if_pos rfl))
    · rw [hsave]
      exact .inl (hkeeps.others _ hne)
  · rcases saveSteps_cases path (tempPath path w.stamp) e w with
      ⟨w', hsteps, -, -, hfiles⟩ | ⟨err, w', hsteps, hkeeps⟩
    · rw [hsteps]
      exact .inr ((hfiles _).trans (if_pos rfl))
    · rw [hsteps]
      exact .inl (hkeeps.others _ hne)
  · exact .inl hsame

/-- An old file is at the cache. -/
def heldWorld : World :=
  { blankWorld with disk := (Disk.empty []).put ["c".toList] (.file "old".toList false) }

theorem save_all_or_nothing_onFile :
    heldWorld.disk.fileAt ["c.tmp.1".toList] = none ∧
      ∀ v, (save "/c".toList linkedEntry).PassesThrough heldWorld v →
        v.disk.fileAt ["c".toList] = some ("old".toList, false) ∨
          v.disk.fileAt ["c".toList] = some (content linkedEntry, false) :=
  ⟨rfl, (save_all_or_nothing "/c".toList linkedEntry heldWorld rfl).2⟩

/-- Names can be put into the folder of the cache but not taken out of it. -/
def addOnlyWorld : World :=
  { heldWorld with disk := heldWorld.disk.set [] (.folder { removing := false }) }

/-- A save that fails there leaves its file behind. -/
theorem save_addOnlyWorld :
    addOnlyWorld.disk.fileAt ["c.tmp.1".toList] = none ∧
      (save "/c".toList linkedEntry addOnlyWorld).1 =
        .error (.cachePersist "/c".toList (.disk ⟨.denied, .moving "/c.tmp.1".toList "/c".toList⟩)) ∧
      (save "/c".toList linkedEntry addOnlyWorld).2.disk.fileAt ["c.tmp.1".toList] =
        some (content linkedEntry, false) :=
  ⟨rfl, rfl, rfl⟩

end Cache

end PackageHistory
