import PackageHistory.Proofs.Cache.Saving
import PackageHistory.Proofs.Cache.Unusable
import PackageHistory.Proofs.Differing

/-!
# Caches built anew

A refresh from scratch does not look at the cache. It ends as it would with nothing there, unless a folder is in
the way, whose place no file can take.
-/

namespace PackageHistory

/-- A text whose last segment is a name. -/
def Path.EndsInName (t : Text) : Prop := ∃ lead name, t = lead ++ name ∧ IsLead lead ∧ IsName name

namespace Disk

variable {d d' : Disk} {path src dst : Text}

/-- No file takes the place of a folder that it is in. -/
theorem rename_of_ancestor (h : d.resolve dst ∈ ancestors (d.resolve src)) : d.rename src dst ≠ .ok d' := by
  intro hrename
  unfold rename at hrename
  dsimp only at hrename
  cases hb : d.blocked? (d.resolve src) with
  | some code =>
    rw [hb] at hrename
    cases hrename
  | none =>
    obtain ⟨rights, hfolder⟩ := blocked?_eq_none_iff.mp hb _ h
    rw [hb, hfolder] at hrename
    split at hrename
    · cases hrename
    · cases hrename
    · split at hrename <;> simp_all

theorem differ_without (hfolder : ∀ rights, d.get? (d.resolve path) ≠ some (.folder rights)) :
    d.SameBut (d.resolve path) (d.without (d.resolve path)) := by
  refine ⟨rfl, fun q hq => ?_, hfolder, fun rights => ?_⟩
  · rw [get?_without, if_neg fun hbelow => hq (List.isPrefixOf_iff_prefix.mp hbelow)]
  · rw [get?_without, if_pos (List.isPrefixOf_iff_prefix.mpr List.prefix_rfl)]
    nofun

end Disk

namespace Cache

variable {path stamp : Text} {w : World}

/-! ## Saving over what is there -/

/-- The file beside a cache is in the folder of it. Neither is at the cache or below it. -/
theorem beside_of_endsInName (hpath : Path.EndsInName path) (hstamp : '/' ∉ stamp) (d : Disk) :
    ¬ d.resolve path <+: d.resolve (Path.parentText path) ∧
      ¬ d.resolve path <+: d.resolve (tempPath path stamp) ∧
      (d.resolve (tempPath path stamp)).dropLast = (d.resolve path).dropLast := by
  obtain ⟨lead, name, rfl, hlead, hname⟩ := hpath
  obtain ⟨folder, hfolder⟩ := Path.resolve_lead hlead d.cwd
  rw [tempPath_append, Disk.resolve, Disk.resolve, Disk.resolve, (hfolder name hname).1,
    (hfolder name hname).2, (hfolder _ (isName_temp hname.slash hstamp)).1]
  refine ⟨fun hbelow => ?_, fun hbelow => ?_, ?_⟩
  · have hlength := hbelow.length_le
    simp at hlength
  · have hsame := hbelow.eq_of_length (by simp)
    have hlength := congrArg List.length (List.singleton_inj.mp (List.append_cancel_left hsame))
    simp at hlength
  · rw [List.dropLast_concat, List.dropLast_concat]

theorem follows_save_of_endsInName (hpath : Path.EndsInName path) (hstamp : '/' ∉ stamp) (e : Entry) :
    (save path e).Follows (World.DifferAt path stamp) := by
  have hbeside := beside_of_endsInName hpath hstamp
  refine follows_save (fun h => h.left.trans h.right.symm) (fun h => ?_) fun h => ?_
  · rw [h.left]
    exact Action.Follows.bind (Action.follows_edit fun d => (hbeside d).1) fun _ =>
      Action.Follows.bind (Action.follows_edit fun d => (hbeside d).2.1) fun _ =>
        Action.follows_edit fun d => ⟨(hbeside d).2.1, rfl, (hbeside d).2.2⟩
  · rw [h.left]
    exact Action.follows_discard (Action.follows_edit fun d => (hbeside d).2.1)

/-- Where the text of a cache ends in no name, the file beside it would be below it. -/
theorem mem_ancestors_of_not_endsInName (hpath : ¬ Path.EndsInName path) (hstamp : '/' ∉ stamp)
    (d : Disk) : d.resolve path ∈ Disk.ancestors (d.resolve (tempPath path stamp)) := by
  obtain ⟨lead, last, rfl, hlead, hlast⟩ := Path.exists_lead path
  have hname := isName_temp hlast hstamp
  have hbelow : Path.step (Path.resolve d.cwd lead) last <+: Path.resolve d.cwd lead := by
    unfold Path.step
    split
    · exact List.prefix_rfl
    · next hpass =>
      obtain ⟨hfilled, hdot⟩ := not_or.mp hpass
      split
      · exact List.dropLast_prefix _
      · next hdots => exact absurd ⟨lead, last, rfl, hlead, hlast, hfilled, hdot, hdots⟩ hpath
  rw [tempPath_append, Disk.resolve, Disk.resolve, Path.resolve_append hlead hlast,
    Path.resolve_append hlead hname.slash, Path.step_of_isName hname, Disk.ancestors, List.mem_map]
  refine ⟨_, List.mem_range.mpr ?_,
    (List.prefix_iff_eq_take.mp (hbelow.trans (List.prefix_append _ [_]))).symm⟩
  rw [List.length_append]
  exact Nat.lt_add_one_of_le hbelow.length_le

theorem save_of_not_endsInName (hpath : ¬ Path.EndsInName path) (e : Entry) (w : World) :
    ∃ reason, (save path e w).1 = .error (.cachePersist path reason) := by
  rcases saveSteps_cases path (tempPath path w.stamp) e w with
    ⟨w', hsteps, -⟩ | ⟨err, w', hsteps, -⟩
  · obtain ⟨_, w₁, -, hsteps⟩ := Action.bind_apply_eq_ok hsteps
    obtain ⟨_, w₂, -, hrename⟩ := Action.bind_apply_eq_ok hsteps
    obtain ⟨d, happly, -⟩ := Action.edit_eq_ok hrename
    exact absurd happly
      (Disk.rename_of_ancestor (mem_ancestors_of_not_endsInName hpath w.stamp_plain _))
  · exact ⟨.disk err, by rw [save_of_failed hsteps]⟩

namespace Spot

variable {spot : Spot}

/-! ## Refreshing from scratch -/

theorem follows_resolveCommit (spot : Spot) (ref : Text) {path stamp : Text} :
    (spot.resolveCommit ref).Follows (World.DifferAt path stamp) := by
  refine (Action.follows_runGit _ _).attempt.bind fun out => ?_
  split
  · dsimp only
    split
    · exact Action.follows_fail _
    · exact Action.follows_pure _
  · exact Action.follows_fail _
  · exact Action.follows_fail _

theorem follows_refresh_anew (hfile : Path.EndsInName spot.file) (hstamp : '/' ∉ stamp) :
    (spot.refresh true).Follows (World.DifferAt spot.file stamp) := by
  intro w v h
  rw [refresh_eq, refresh_eq]
  refine ((spot.follows_resolveCommit _).bind fun head => ?_) w v h
  refine (Action.follows_pure none).bind fun cached => ?_
  exact spot.follows_refreshTo cached head Action.follows_streamGit
    (follows_save_of_endsInName hfile hstamp)

/-- What is returned can only differ in why the cache could not be saved. -/
theorem refresh_anew_of_not_endsInName {v : World} (hfile : ¬ Path.EndsInName spot.file)
    (h : w.DifferAt spot.file stamp v) :
    (spot.refresh true w).1 = (spot.refresh true v).1 ∨
      (∃ reason, (spot.refresh true w).1 = .error (.cachePersist spot.file reason)) ∧
        ∃ reason, (spot.refresh true v).1 = .error (.cachePersist spot.file reason) := by
  rcases (spot.follows_resolveCommit spot.publishedRef).cases h with
    ⟨head, w₁, v₁, hw, hv, h₁⟩ | ⟨err, w₁, v₁, hw, hv, -⟩
  · rw [(refresh_of_resolved hw).2, (refresh_of_resolved hv).2]
    unfold refreshTo
    rw [if_neg (by simp)]
    rcases (spot.follows_mergeMissing none head Action.follows_streamGit).cases h₁ with
      ⟨merged, w₂, v₂, hw, hv, h₂⟩ | ⟨err, w₂, v₂, hw, hv, -⟩
    · rw [Action.bind_of_ok hw, Action.bind_of_ok hv]
      cases merged with
      | none => exact .inl rfl
      | some history =>
        obtain ⟨reason, hreason⟩ :=
          save_of_not_endsInName hfile ⟨spot.schemaVersion, head, history⟩ w₂
        obtain ⟨reason', hreason'⟩ :=
          save_of_not_endsInName hfile ⟨spot.schemaVersion, head, history⟩ v₂
        exact .inr ⟨⟨reason, Action.bind_fails hreason _⟩, reason', Action.bind_fails hreason' _⟩
    · rw [Action.bind_of_error hw, Action.bind_of_error hv]
      exact .inl rfl
  · rw [refresh_of_unresolved hw, refresh_of_unresolved hv]
    exact .inl rfl

/-- A refresh from scratch that returns an entry leaves the content of that, any other leaves what there was. -/
theorem fileAt_refresh_anew (spot : Spot) (w : World) :
    (∀ r, (spot.refresh true w).1 = .ok (some r) →
      (spot.refresh true w).2.disk.fileAt (w.disk.resolve spot.file) = some (content r.entry, false)) ∧
    ((∀ r, (spot.refresh true w).1 ≠ .ok (some r)) →
      (spot.refresh true w).2.disk.fileAt (w.disk.resolve spot.file) =
        w.disk.fileAt (w.disk.resolve spot.file)) := by
  rcases spot.resolveCommit_cases w spot.publishedRef with ⟨output, -, -, hresolve⟩ | ⟨err, hresolve⟩
  · rw [(refresh_of_resolved hresolve).2]
    rcases refreshTo_cases spot none output.trim (w.asked (spot.revCall spot.publishedRef)) with
      ⟨out, w', hto, hdisk, hout⟩ | ⟨-, ⟨w', hto, -, -, hfiles⟩ | ⟨reason, w', hto, hkeeps, -⟩⟩
    · rw [hto]
      refine ⟨fun r hr => ?_, fun _ => by rw [hdisk]; rfl⟩
      rcases hout with rfl | ⟨e, rfl⟩ <;> cases hr
    · rw [hto]
      refine ⟨fun r hr => ?_, fun hnone => absurd rfl (hnone _)⟩
      cases hr
      exact (hfiles _).trans (if_pos rfl)
    · rw [hto]
      exact ⟨nofun, fun _ => hkeeps.others _ (spot.file_ne_temp w)⟩
  · rw [refresh_of_unresolved hresolve]
    exact ⟨nofun, fun _ => rfl⟩

end Spot

/-! ## Caches of no use -/

/-- A load that finds what is no cache, and yet succeeds, has removed it. -/
theorem load_of_error {expected : Number} {e : Failure} {cached : Option Entry}
    (hread : (read path expected w).1 = .error e) (hload : (load path expected w).1 = .ok cached) :
    load path expected w =
      (.ok none, w.edited (.remove path) (w.disk.without (w.disk.resolve path))) := by
  by_cases hinvalid : e.isCacheInvalid = true
  · rw [load_of_invalid hread hinvalid] at hload ⊢
    rcases Action.edit_cases (.remove path) w with ⟨d, happly, hedit⟩ | ⟨err, d, -, hedit⟩
    · have hreached : w.disk.blocked? (w.disk.resolve path) = none := by
        rcases w.disk.blocked?_cases (w.disk.resolve path) with hb | hb | ⟨hb, -⟩
        · exact hb
        · rw [read_apply, readOutcome, Disk.read_of_missing hb] at hread
          cases hread
        · have hremove : w.disk.remove path = .ok d := happly
          unfold Disk.remove at hremove
          simp only [hb] at hremove
          cases hremove
      rw [Action.bind_of_ok (Action.edit_remove_of_ok hreached (congrArg Prod.fst hedit))]
      rfl
    · rw [Action.bind_of_error hedit] at hload
      cases hload
  · have hattempt : (read path expected).attempt w = (.ok (.error e), w) := by
      rw [Action.attempt_apply, hread, read_apply]
    unfold load at hload
    rw [Action.bind_of_ok hattempt] at hload
    dsimp only at hload
    rw [if_neg hinvalid] at hload
    cases hload

namespace Spot

variable {spot : Spot}

/-- Where a refresh that had to remove the cache succeeds, one from scratch with nothing at the cache does as
well, as long as the removal has no effect on which edits are refused. -/
theorem refresh_anew_of_unusable {e : Failure} {r : Option Refreshed}
    (hrefuses : ∀ tried edit, w.refuses (tried ++ .remove spot.file :: w.edits) edit =
      w.refuses (tried ++ w.edits) edit)
    (hread : (read spot.file spot.schemaVersion w).1 = .error e)
    (hrefresh : (spot.refresh false w).1 = .ok r) :
    (spot.refresh true (w.without spot.file)).1 = .ok r := by
  have hclears : spot.Clears w (w.without spot.file) := ⟨rfl, rfl, rfl, rfl, hrefuses⟩
  rcases spot.resolveCommit_cases w spot.publishedRef with ⟨output, -, -, hresolve⟩ | ⟨err, hresolve⟩
  · obtain ⟨-, hresolve'⟩ := resolveCommit_of_clears hclears (congrArg Prod.fst hresolve)
    have hasked := hclears.asked (spot.revCall spot.publishedRef)
    rw [read_apply] at hread
    have hread' : (read spot.file spot.schemaVersion (w.asked (spot.revCall spot.publishedRef))).1 =
        .error e := by
      rw [read_apply]
      exact hread
    cases hload : load spot.file spot.schemaVersion (w.asked (spot.revCall spot.publishedRef)) with
    | mk out w₁ =>
      cases out with
      | error err =>
        rw [(refresh_of_resolved hresolve).1, Action.bind_of_error hload] at hrefresh
        cases hrefresh
      | ok cached =>
        have hremoved := load_of_error hread' (congrArg Prod.fst hload)
        rw [refresh_of_loaded hresolve hremoved] at hrefresh
        rw [(refresh_of_resolved hresolve').2, ← hrefresh]
        exact (spot.respects_refreshTo none output.trim _ _ hasked.alike).1.symm
  · rw [refresh_of_unresolved hresolve] at hrefresh
    cases hrefresh

/-- A refresh from scratch does not depend on what is at the cache, as long as that is no folder: it ends as it
would with nothing there and leaves the same file when it returns an entry, and the old one else. Only where no
save can succeed the reasons for that may differ. It succeeds where a refresh does that had to remove the cache. -/
theorem refresh_anew_forgets (spot : Spot) (w : World)
    (hfolder : ∀ rights, w.disk.get? (w.disk.resolve spot.file) ≠ some (.folder rights)) :
    ((spot.refresh true w).1 = (spot.refresh true (w.without spot.file)).1 ∨
      ¬ Path.EndsInName spot.file ∧
        (∃ reason, (spot.refresh true w).1 = .error (.cachePersist spot.file reason)) ∧
        ∃ reason, (spot.refresh true (w.without spot.file)).1 =
          .error (.cachePersist spot.file reason)) ∧
    (∀ r, (spot.refresh true w).1 = .ok (some r) →
      (spot.refresh true w).2.disk.fileAt (w.disk.resolve spot.file) =
          some (content r.entry, false) ∧
        (spot.refresh true (w.without spot.file)).2.disk.fileAt (w.disk.resolve spot.file) =
          some (content r.entry, false)) ∧
    ((∀ r, (spot.refresh true w).1 ≠ .ok (some r)) →
      (spot.refresh true w).2.disk.fileAt (w.disk.resolve spot.file) =
        w.disk.fileAt (w.disk.resolve spot.file)) ∧
    ∀ e r, (∀ tried edit, w.refuses (tried ++ .remove spot.file :: w.edits) edit =
        w.refuses (tried ++ w.edits) edit) →
      (read spot.file spot.schemaVersion w).1 = .error e → (spot.refresh false w).1 = .ok r →
        (spot.refresh true w).1 = .ok r := by
  have hdiffer : w.DifferAt spot.file w.stamp (w.without spot.file) :=
    ⟨rfl, rfl, rfl, rfl, rfl, rfl, Disk.differ_without hfolder⟩
  have hends : (spot.refresh true w).1 = (spot.refresh true (w.without spot.file)).1 ∨
      ¬ Path.EndsInName spot.file ∧
        (∃ reason, (spot.refresh true w).1 = .error (.cachePersist spot.file reason)) ∧
        ∃ reason, (spot.refresh true (w.without spot.file)).1 =
          .error (.cachePersist spot.file reason) := by
    by_cases hfile : Path.EndsInName spot.file
    · exact .inl (follows_refresh_anew hfile w.stamp_plain w _ hdiffer).1
    · exact (refresh_anew_of_not_endsInName hfile hdiffer).imp_right fun h => ⟨hfile, h⟩
  obtain ⟨hsome, hother⟩ := spot.fileAt_refresh_anew w
  refine ⟨hends, fun r hr => ⟨hsome r hr, ?_⟩, hother, fun e r hrefuses hread hrefresh => ?_⟩
  · rcases hends with hsame | ⟨-, ⟨reason, hreason⟩, -⟩
    · exact (spot.fileAt_refresh_anew (w.without spot.file)).1 r (hsame ▸ hr)
    · rw [hreason] at hr
      cases hr
  · have hanew := refresh_anew_of_unusable hrefuses hread hrefresh
    rcases hends with hsame | ⟨-, -, reason, hreason⟩
    · exact hsame.trans hanew
    · rw [hreason] at hanew
      cases hanew

theorem refresh_anew_forgets_outdated :
    (∀ rights, outdatedWorld.disk.get? ["c".toList] ≠ some (.folder rights)) ∧
      (savedSpot.refresh true outdatedWorld).1 =
        (savedSpot.refresh true (outdatedWorld.without "/c".toList)).1 ∧
      ∃ r, (savedSpot.refresh true outdatedWorld).1 = .ok (some r) ∧
        (savedSpot.refresh true outdatedWorld).2.disk.fileAt ["c".toList] =
          some (content r.entry, false) := by
  have hfolder : ∀ rights, outdatedWorld.disk.get? ["c".toList] ≠ some (.folder rights) := by nofun
  have hfile : Path.EndsInName savedSpot.file :=
    ⟨['/'], ['c'], rfl, .inr ⟨[], rfl⟩, by decide, nofun, by decide, by decide⟩
  obtain ⟨hends, hleft, -⟩ := refresh_anew_forgets savedSpot outdatedWorld hfolder
  refine ⟨hfolder, ?_, _, rfl, (hleft _ rfl).1⟩
  rcases hends with hsame | ⟨hnot, -⟩
  · exact hsame
  · exact absurd hfile hnot

/-- A folder is where the cache is to be, and git has a log. -/
def occupiedWorld : World :=
  { outdatedWorld with disk := (Disk.empty []).put ["c".toList] (.folder .all) }

/-- A refresh that loads first removes the folder and succeeds, as both do with nothing there; one from scratch
fails on it. -/
theorem refresh_anew_occupied :
    (savedSpot.refresh true occupiedWorld).1 =
        .error (.cachePersist "/c".toList (.disk ⟨.isFolder, .moving "/c.tmp.1".toList "/c".toList⟩)) ∧
      (∃ r, (savedSpot.refresh true (occupiedWorld.without "/c".toList)).1 = .ok (some r)) ∧
      ∃ r, (savedSpot.refresh false occupiedWorld).1 = .ok (some r) :=
  ⟨rfl, ⟨_, rfl⟩, ⟨_, rfl⟩⟩

end Spot

end Cache

end PackageHistory
