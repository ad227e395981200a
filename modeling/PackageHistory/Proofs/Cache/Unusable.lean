import PackageHistory.Proofs.Alike
import PackageHistory.Proofs.Cache.Refresh

/-!
# Caches of no use

A refresh that finds a cache of no use removes it and goes on as if there had never been one. Where it cannot be
removed the refresh fails, before it has asked for any log.
-/

namespace PackageHistory

/-- The world with nothing at a path. -/
def World.without (w : World) (path : Text) : World :=
  { w with disk := w.disk.without (w.disk.resolve path) }

/-! ## Trees with nothing at a path -/

namespace Disk

variable {d : Disk} {path : Text} {p q : Path}

theorem not_isPrefixOf_of_mem_ancestors (h : q ∈ ancestors p) : p.isPrefixOf q = false := by
  obtain ⟨i, hi, rfl⟩ := List.mem_map.mp h
  rw [List.mem_range] at hi
  rw [← Bool.not_eq_true, List.isPrefixOf_iff_prefix]
  intro hprefix
  have hle := hprefix.length_le
  rw [List.length_take] at hle
  omega

theorem blocked?_without (h : d.blocked? p = none) : (d.without p).blocked? p = none := by
  refine blocked?_of_get?_eq h fun q hq _ _ => ?_
  rw [get?_without, not_isPrefixOf_of_mem_ancestors hq]
  rfl

theorem read_without (h : d.blocked? (d.resolve path) = none) :
    (d.without (d.resolve path)).read path = .error ⟨.noEntry, .opening path⟩ := by
  have hself : (d.without (d.resolve path)).get? (d.resolve path) = none := by
    rw [get?_without, if_pos (List.isPrefixOf_iff_prefix.mpr (List.prefix_refl _))]
  have hresolve : (d.without (d.resolve path)).resolve path = d.resolve path := rfl
  unfold read
  simp only [hresolve, blocked?_without h, hself]

theorem blocked?_cases (d : Disk) (p : Path) :
    d.blocked? p = none ∨ d.blocked? p = some .noEntry ∨
      d.blocked? p = some .notFolder ∧ ∃ q ∈ ancestors p, d.fileAt q ≠ none := by
  cases hb : d.blocked? p with
  | none => exact .inl rfl
  | some code =>
    obtain ⟨q, hq, hcode⟩ := List.exists_of_findSome?_eq_some hb
    cases hn : d.get? q with
    | none =>
      rw [hn] at hcode
      exact .inr (.inl hcode.symm)
    | some n =>
      rw [hn] at hcode
      cases n with
      | file content locked =>
        refine .inr (.inr ⟨hcode.symm, q, hq, ?_⟩)
        rw [fileAt, hn]
        exact Option.some_ne_none (content, locked)
      | folder rights => cases hcode

/-- No proper ancestor of the path is a file. -/
def IsOpen (d : Disk) (p : Path) : Prop := ∀ q ∈ ancestors p, d.fileAt q = none

theorem IsOpen.blocked?_cases (h : d.IsOpen p) :
    d.blocked? p = none ∨ d.blocked? p = some .noEntry := by
  rcases d.blocked?_cases p with hb | hb | ⟨-, q, hq, hfile⟩
  · exact .inl hb
  · exact .inr hb
  · exact absurd (h q hq) hfile

theorem read_of_missing (h : d.blocked? (d.resolve path) = some .noEntry) :
    d.read path = .error ⟨.noEntry, .opening path⟩ := by
  unfold read
  simp only [h]

end Disk

/-! ## Removals -/

namespace Action

variable {path : Text} {p : Path} {w : World}

/-- A removal fails when the disk refuses it, or when something at the path or below it is in a folder that
nothing can be taken out of. -/
theorem edit_remove_eq_ok_iff (hreached : w.disk.blocked? (w.disk.resolve path) = none) :
    (edit (.remove path) w).1 = .ok () ↔ w.refuses w.edits (.remove path) = none ∧
      ∀ q n, w.disk.resolve path <+: q → w.disk.get? q = some n → (w.disk.parentRights q).removing = true := by
  rw [edit_eq_ok_iff, ← Disk.held?_eq_none_iff]
  refine and_congr_right fun _ => ?_
  rcases Disk.remove_of_reached hreached with ⟨hheld, hremove⟩ | ⟨hheld, err, hremove⟩
  · exact iff_of_true ⟨_, hremove⟩ hheld
  · refine iff_of_false ?_ hheld
    rintro ⟨d, hd⟩
    cases hremove.symm.trans hd

theorem edit_remove_of_ok (hreached : w.disk.blocked? (w.disk.resolve path) = none)
    (h : (edit (.remove path) w).1 = .ok ()) :
    edit (.remove path) w = (.ok (), w.edited (.remove path) (w.disk.without (w.disk.resolve path))) := by
  rcases edit_cases (.remove path) w with ⟨d, happly, hedit⟩ | ⟨err, d, -, hedit⟩
  · rcases Disk.remove_of_reached hreached with ⟨-, hremove⟩ | ⟨-, err, hremove⟩
    · rw [hedit, Except.ok.inj (happly.symm.trans hremove)]
    · cases hremove.symm.trans happly
  · rw [hedit] at h
    cases h

/-- Whether it fails or not, a removal leaves alone what is neither at the path nor below it. -/
theorem get?_edit_remove (hp : ¬ w.disk.resolve path <+: p) :
    (edit (.remove path) w).2.disk.get? p = w.disk.get? p := by
  rcases edit_cases (.remove path) w with ⟨d, happly, hedit⟩ | ⟨err, d, hpart, hedit⟩
  · rw [hedit]
    exact (Disk.part_remove happly).get?_removal hp
  · rw [hedit]
    exact hpart.get?_removal hp

end Action

namespace Cache

/-! ## Loading -/

section Loading

variable {path : Text} {expected : Number} {w : World}

theorem reached_of_unusable {e : Failure} (hopen : w.disk.IsOpen (w.disk.resolve path))
    (h : (read path expected w).1 = .error e) : w.disk.blocked? (w.disk.resolve path) = none := by
  rcases hopen.blocked?_cases with hb | hb
  · exact hb
  · rw [read_apply, readOutcome, Disk.read_of_missing hb] at h
    cases h

theorem load_of_invalid {e : Failure} (h : (read path expected w).1 = .error e)
    (hinvalid : e.isCacheInvalid = true) :
    load path expected w = (Action.edit (.remove path) >>= fun _ => pure none) w := by
  have hread : (read path expected).attempt w = (.ok (.error e), w) := by
    rw [Action.attempt_apply, h, read_apply]
  unfold load
  rw [Action.bind_of_ok hread]
  dsimp only
  rw [if_pos hinvalid]

theorem load_of_unusable {e : Failure} (h : (read path expected w).1 = .error e)
    (hinvalid : e.isCacheInvalid = true) (hreached : w.disk.blocked? (w.disk.resolve path) = none)
    (hremovable : (Action.edit (.remove path) w).1 = .ok ()) :
    load path expected w =
      (.ok none, w.edited (.remove path) (w.disk.without (w.disk.resolve path))) := by
  rw [load_of_invalid h hinvalid, Action.bind_of_ok (Action.edit_remove_of_ok hreached hremovable)]
  rfl

/-- A cache of no use that cannot be removed makes the load fail in the way the removal does. -/
theorem load_of_held {e err : Failure} (h : (read path expected w).1 = .error e)
    (hinvalid : e.isCacheInvalid = true) (hheld : (Action.edit (.remove path) w).1 = .error err) :
    load path expected w = (.error err, (Action.edit (.remove path) w).2) := by
  have hedit : Action.edit (.remove path) w = (.error err, (Action.edit (.remove path) w).2) :=
    Prod.ext hheld rfl
  rw [load_of_invalid h hinvalid, Action.bind_of_error hedit]

theorem load_of_missing {err : Disk.Attempt} (h : w.disk.read path = .error ⟨.noEntry, err⟩) :
    load path expected w = (.ok none, w) := by
  have hread : (read path expected).attempt w = (.ok (.ok none), w) := by
    rw [Action.attempt_apply, read_apply, readOutcome, h]
  unfold load
  rw [Action.bind_of_ok hread]
  rfl

end Loading

/-! ## Steps in worlds that are related -/

section Related

variable {R : World → World → Prop}

/-- A save in related worlds, which have the same file beside the cache. -/
theorem follows_save {path : Text} {e : Entry} (hstamp : ∀ {w v}, R w v → w.stamp = v.stamp)
    (hsteps : ∀ {w v}, R w v → (saveSteps path (tempPath path w.stamp) e).Follows R)
    (hdiscard : ∀ {w v}, R w v → (Action.discard (tempPath path w.stamp)).Follows R) :
    (save path e).Follows R := by
  intro w v h
  unfold save
  rw [Action.bind_of_ok (Action.stamp_apply w), Action.bind_of_ok (Action.stamp_apply v), ← hstamp h]
  refine (hsteps h).attempt.bind (fun out => ?_) w v h
  cases out with
  | ok _ => exact Action.follows_pure _
  | error failure => exact (hdiscard h).bind fun _ => Action.follows_fail _

theorem respects_save (path : Text) (e : Entry) : (save path e).Respects := by
  refine follows_save Alike.stamp (fun _ => ?_) fun _ => Action.respects_discard _
  exact Action.Follows.bind (Action.respects_edit _) fun _ =>
    Action.Follows.bind (Action.respects_edit _) fun _ => Action.respects_edit _

namespace Spot

theorem follows_mergeMissing (spot : Spot) (cached : Option Entry) (head : Text)
    (hask : ∀ args cwd, (Action.streamGit args cwd).Follows R) :
    (spot.mergeMissing cached head).Follows R := by
  have hupdate (range : Text) (h : History) : (spot.update range h).Follows R := by
    refine ((hask _ _).bind fun _ => Action.follows_pure _).bind fun log => ?_
    cases log.failure with
    | some e => exact Action.follows_fail e
    | none => exact Action.follows_pure _
  refine (hupdate _ _).attempt.bind fun out => ?_
  split
  · exact Action.follows_pure _
  · exact Action.follows_pure _
  · exact Action.follows_pure _
  · exact Action.follows_pure _
  · exact Action.follows_fail _

theorem follows_refreshTo (spot : Spot) (cached : Option Entry) (head : Text)
    (hask : ∀ args cwd, (Action.streamGit args cwd).Follows R)
    (hsave : ∀ e, (save spot.file e).Follows R) : (spot.refreshTo cached head).Follows R := by
  unfold refreshTo
  dsimp only
  split
  · exact Action.follows_pure _
  · refine (spot.follows_mergeMissing cached head hask).bind fun merged => ?_
    cases merged with
    | none => exact Action.follows_pure _
    | some history => exact (hsave _).bind fun _ => Action.follows_pure _

theorem respects_refreshTo (spot : Spot) (cached : Option Entry) (head : Text) :
    (spot.refreshTo cached head).Respects :=
  spot.follows_refreshTo cached head Action.respects_streamGit (respects_save spot.file)

end Spot

end Related

namespace Spot

/-! ## Refreshing -/

variable {spot : Spot} {w v : World}

/-- The world `v` is `w` with nothing at the path of the cache. The edits that fail in it are those
that fail in `w` once the cache is removed. -/
structure Clears (spot : Spot) (w v : World) : Prop where
  git : v.git = w.git
  disk : v.disk = w.disk.without (w.disk.resolve spot.file)
  stamp : v.stamp = w.stamp
  calls : v.calls = w.calls
  refuses : ∀ tried e,
    w.refuses (tried ++ .remove spot.file :: w.edits) e = v.refuses (tried ++ v.edits) e

theorem Clears.asked (h : spot.Clears w v) (call : GitCall) :
    spot.Clears (w.asked call) (v.asked call) :=
  ⟨h.git, h.disk, h.stamp, congrArg (call :: ·) h.calls, h.refuses⟩

theorem Clears.alike (h : spot.Clears w v) :
    Alike (w.edited (.remove spot.file) (w.disk.without (w.disk.resolve spot.file))) v :=
  ⟨h.git.symm, h.disk.symm, h.stamp.symm, h.calls.symm, h.refuses⟩

theorem resolveCommit_of_clears {ref head : Text} (hclears : spot.Clears w v)
    (h : (spot.resolveCommit ref w).1 = .ok head) :
    spot.resolveCommit ref w = (.ok head, w.asked (spot.revCall ref)) ∧
      spot.resolveCommit ref v = (.ok head, v.asked (spot.revCall ref)) := by
  rcases spot.resolveCommit_cases w ref with ⟨output, hrun, hne, hresolve⟩ | ⟨err, hresolve⟩
  · rw [hresolve] at h
    cases h
    rw [← hclears.git, ← hclears.calls] at hrun
    exact ⟨hresolve, resolveCommit_of_run hrun hne⟩
  · rw [hresolve] at h
    cases h

/-- Without a cache a refresh returns nothing but the merged log of the head. -/
theorem refreshTo_none_eq_some {head : Text} {r : Refreshed}
    (h : (spot.refreshTo none head w).1 = .ok (some r)) :
    r = ⟨spot.mergedEntry none head w, true⟩ := by
  rcases refreshTo_cases spot none head w with
    ⟨out, w', hto, -, hout⟩ | ⟨-, ⟨w', hto, -⟩ | ⟨e, w', hto, -⟩⟩
  · rw [hto] at h
    rcases hout with rfl | ⟨e, rfl⟩ <;> cases h
  · rw [hto] at h
    cases h
    rfl
  · rw [hto] at h
    cases h

theorem edit_asked (e : Disk.Edit) (w : World) (call : GitCall) :
    Action.edit e (w.asked call) = ((Action.edit e w).1, (Action.edit e w).2.asked call) := by
  unfold Action.edit
  dsimp only
  rw [show (w.asked call).refuses (w.asked call).edits e = w.refuses w.edits e from rfl]
  cases w.refuses w.edits e with
  | some s => rfl
  | none =>
    rw [World.asked_disk]
    cases w.disk.apply e <;> rfl

/-- Where a cache is of no use and can be removed, a refresh gives the same, calls git in the same way
and leaves the same tree as where there is nothing at its path. What it returns is merged from the log
of the head. Where the cache cannot be removed the refresh fails as the removal does, has asked for the head
alone, and leaves all but the cache as it was. -/
theorem refresh_of_unusable {head : Text} {e : Failure} (hclears : spot.Clears w v)
    (hopen : w.disk.IsOpen (w.disk.resolve spot.file))
    (hresolves : (spot.resolveCommit spot.publishedRef w).1 = .ok head)
    (hunusable : (read spot.file spot.schemaVersion w).1 = .error e)
    (hinvalid : e.isCacheInvalid = true) :
    ((Action.edit (.remove spot.file) w).1 = .ok () ↔
      w.refuses w.edits (.remove spot.file) = none ∧ ∀ q n, w.disk.resolve spot.file <+: q →
        w.disk.get? q = some n → (w.disk.parentRights q).removing = true) ∧
    ((Action.edit (.remove spot.file) w).1 = .ok () →
      (spot.refresh false w).1 = (spot.refresh false v).1 ∧
      (spot.refresh false w).2.calls = (spot.refresh false v).2.calls ∧
      (spot.refresh false w).2.disk = (spot.refresh false v).2.disk) ∧
    (∀ err, (Action.edit (.remove spot.file) w).1 = .error err →
      (spot.refresh false w).1 = .error err ∧
      (spot.refresh false w).2.calls = spot.revCall spot.publishedRef :: w.calls ∧
      ∀ p, ¬ w.disk.resolve spot.file <+: p → (spot.refresh false w).2.disk.get? p = w.disk.get? p) ∧
    ∀ r, (spot.refresh false w).1 = .ok (some r) →
      r = ⟨spot.mergedEntry none head (w.asked (spot.revCall spot.publishedRef)), true⟩ := by
  obtain ⟨hresolve, hresolve'⟩ := resolveCommit_of_clears hclears hresolves
  have hasked := hclears.asked (spot.revCall spot.publishedRef)
  have hreached := reached_of_unusable hopen hunusable
  have hedit := edit_asked (.remove spot.file) w (spot.revCall spot.publishedRef)
  rw [read_apply] at hunusable
  have hread : (read spot.file spot.schemaVersion (w.asked (spot.revCall spot.publishedRef))).1 =
      .error e := by
    rw [read_apply]
    exact hunusable
  have hmissing : (v.asked (spot.revCall spot.publishedRef)).disk.read spot.file =
      .error ⟨.noEntry, .opening spot.file⟩ := by
    rw [hasked.disk]
    exact Disk.read_without hreached
  have hremoved (h : (Action.edit (.remove spot.file) w).1 = .ok ()) : spot.refresh false w =
      spot.refreshTo none head ((w.asked (spot.revCall spot.publishedRef)).edited (.remove spot.file)
        (w.disk.without (w.disk.resolve spot.file))) :=
    refresh_of_loaded hresolve (load_of_unusable hread hinvalid hreached (by rw [hedit]; exact h))
  have hheld (err : Failure) (h : (Action.edit (.remove spot.file) w).1 = .error err) :
      spot.refresh false w =
        (.error err, (Action.edit (.remove spot.file) w).2.asked (spot.revCall spot.publishedRef)) := by
    rw [(refresh_of_resolved hresolve).1,
      Action.bind_of_error (load_of_held hread hinvalid (by rw [hedit]; exact h)), hedit]
  refine ⟨Action.edit_remove_eq_ok_iff hreached, fun h => ?_, fun err h => ?_, fun r hr => ?_⟩
  · -- Now both start from no cache, in worlds that are alike.
    rw [hremoved h, refresh_of_loaded hresolve' (load_of_missing hmissing)]
    obtain ⟨hout, halike⟩ := spot.respects_refreshTo none head _ _ hasked.alike
    exact ⟨hout, halike.calls, halike.disk⟩
  · rw [hheld err h]
    refine ⟨rfl, ?_, fun p hp => Action.get?_edit_remove hp⟩
    exact congrArg (spot.revCall spot.publishedRef :: ·) (Action.edit_tried _ w).2
  · cases h : (Action.edit (.remove spot.file) w).1 with
    | ok _ =>
      rw [hremoved h] at hr
      exact (refreshTo_none_eq_some hr).trans rfl
    | error err =>
      rw [hheld err h] at hr
      cases hr

def outdatedContent : Text := "\x7b\"schemaVersion\":0\x7d".toList

/-- A cache of another schema version, and a log of one commit. -/
def outdatedWorld : World where
  git := ⟨fun _ _ => .ok "h2".toList, fun _ _ => ⟨Log.printCommit
    ⟨"h2".toList, "2024-01-01".toList, "A <a>".toList, "C <c>".toList, ["m".toList]⟩
    ["A\tsys-apps/foo/foo-1.ebuild".toList], none⟩, true⟩
  disk := (Disk.empty []).put ["c".toList] (.file outdatedContent false)
  stamp := "1".toList

def clearedWorld : World :=
  { outdatedWorld with disk := outdatedWorld.disk.without ["c".toList] }

theorem refresh_outdatedWorld :
    savedSpot.Clears outdatedWorld clearedWorld ∧
      outdatedWorld.disk.IsOpen (outdatedWorld.disk.resolve savedSpot.file) ∧
      (savedSpot.resolveCommit savedSpot.publishedRef outdatedWorld).1 = .ok "h2".toList ∧
      (read savedSpot.file savedSpot.schemaVersion outdatedWorld).1 =
        .error (.cacheVersion savedSpot.file "0".toList 1) ∧
      (savedSpot.refresh false outdatedWorld).1 = (savedSpot.refresh false clearedWorld).1 ∧
      (savedSpot.refresh false outdatedWorld).2.disk =
        (savedSpot.refresh false clearedWorld).2.disk := by
  have hclears : savedSpot.Clears outdatedWorld clearedWorld := ⟨rfl, rfl, rfl, rfl, fun _ _ => rfl⟩
  have hopen : outdatedWorld.disk.IsOpen (outdatedWorld.disk.resolve savedSpot.file) := by
    unfold Disk.IsOpen
    decide +kernel
  have hresolves : (savedSpot.resolveCommit savedSpot.publishedRef outdatedWorld).1 =
      .ok "h2".toList := rfl
  have hunusable : (read savedSpot.file savedSpot.schemaVersion outdatedWorld).1 =
      .error (.cacheVersion savedSpot.file "0".toList 1) := by
    have hread : outdatedWorld.disk.read savedSpot.file = .ok outdatedContent := rfl
    have hplain : Json.Plain (.object [("schemaVersion".toList, .number (.integer 0))]) :=
      .singleton (by decide +kernel) (.number (.of_lt (by decide)))
    have hparse : Json.parse? outdatedContent = some _ := Json.parse?_compact hplain
    rw [read_apply, readOutcome, hread]
    dsimp only
    rw [ofContent, hparse]
    rfl
  obtain ⟨-, hsame, -⟩ := refresh_of_unusable hclears hopen hresolves hunusable rfl
  obtain ⟨hout, -, hdisk⟩ := hsame rfl
  exact ⟨hclears, hopen, hresolves, hunusable, hout, hdisk⟩

def closedSpot : Spot := { savedSpot with file := "/k/c".toList }

/-- The cache is an empty file, in a folder that cannot be written to. -/
def closedWorld : World :=
  { outdatedWorld with
    disk := ((Disk.empty []).set ["k".toList] (.folder .none)).put ["k".toList, "c".toList] (.file [] false) }

/-- The file cannot be removed, which ends the refresh. Without it there is a log first, and then no place for
the new cache. -/
theorem refresh_closedWorld :
    let v := closedWorld.without "/k/c".toList
    closedSpot.Clears closedWorld v ∧
      closedWorld.disk.IsOpen (closedWorld.disk.resolve closedSpot.file) ∧
      (closedSpot.resolveCommit closedSpot.publishedRef closedWorld).1 = .ok "h2".toList ∧
      (read closedSpot.file closedSpot.schemaVersion closedWorld).1 =
        .error (.cacheCorrupt closedSpot.file .notJson) ∧
      (closedSpot.refresh false closedWorld).1 = .error (.disk ⟨.denied, .unlinking "/k/c".toList⟩) ∧
      (closedSpot.refresh false v).1 =
        .error (.cachePersist "/k/c".toList (.disk ⟨.denied, .opening "/k/c.tmp.1".toList⟩)) ∧
      (closedSpot.refresh false closedWorld).2.calls.length = 1 ∧
      (closedSpot.refresh false v).2.calls.length = 2 := by
  refine ⟨⟨rfl, rfl, rfl, rfl, fun _ _ => rfl⟩, ?_, rfl, rfl, rfl, rfl, rfl, rfl⟩
  unfold Disk.IsOpen
  decide +kernel

end Spot

end Cache

end PackageHistory
