import PackageHistory.Proofs.Cache.Codec
import PackageHistory.Proofs.Cache.Store
import PackageHistory.Proofs.Cache.Update

/-!
# Refreshes and the file of the cache

A refresh that fails, or whose log cannot be read to its end, leaves the cache as it was. Otherwise
the file holds the whole new content.
-/

namespace PackageHistory

/-! ## Logs that cannot be read to their end -/

namespace Log

/-- Git failed, or the log ended inside of a header or message. -/
def BreaksOff (source : LineSource) : Prop :=
  (∃ e, source.failure = some (.gitCommand e)) ∨
    ∃ hash, (entriesOf source).failure = some (.truncatedLog hash)

/-- The whole log was read. -/
structure IsWhole (source : LineSource) : Prop where
  given : source.failure = none
  read : (entriesOf source).failure = none

theorem IsWhole.warning {source : LineSource} (h : IsWhole source) :
    (entriesOf source).warning = none := by
  obtain ⟨lines, failure⟩ := source
  obtain rfl : failure = none := h.given
  exact warning_entriesOf lines

theorem reading_of_breaksOff {source : LineSource} (h : BreaksOff source) :
    ((entriesOf source).failure = none ∧ ∃ told, (entriesOf source).warning = some told) ∨
      (∃ e, (entriesOf source).failure = some (.gitCommand e)) ∨
      ∃ hash, (entriesOf source).failure = some (.truncatedLog hash) := by
  rcases h with ⟨e, he⟩ | htruncated
  · obtain ⟨lines, failure⟩ := source
    obtain rfl : failure = some (.gitCommand e) := he
    cases lines with
    | nil => exact .inl ⟨rfl, _, rfl⟩
    | cons line rest => exact .inr (.inl ⟨e, rfl⟩)
  · exact .inr (.inr htruncated)

theorem source_cases (source : LineSource) :
    IsWhole source ∨ BreaksOff source ∨
      ∃ e, (entriesOf source).failure = some e ∧ (∀ g, e ≠ .gitCommand g) ∧
        ∀ hash, e ≠ .truncatedLog hash := by
  by_cases hbreaks : BreaksOff source
  · exact .inr (.inl hbreaks)
  obtain ⟨hgit, htruncated⟩ := not_or.mp hbreaks
  cases hread : (entriesOf source).failure with
  | some e =>
    refine .inr (.inr ⟨e, rfl, fun g hg => ?_, fun hash hh => htruncated ⟨hash, by rw [hread, hh]⟩⟩)
    -- Only a source that failed so gives this failure.
    subst hg
    obtain ⟨lines, failure⟩ := source
    cases failure with
    | none =>
      rw [failure_entriesOf] at hread
      cases h : (Reader.start.feedAll lines).finish.2 <;> simp [h] at hread
    | some e' =>
      cases e' with
      | gitCommand g' => exact hgit ⟨g', rfl⟩
      | _ => simp [entriesOf] at hread
  | none =>
    refine .inl ⟨?_, hread⟩
    obtain ⟨lines, failure⟩ := source
    cases failure with
    | none => rfl
    | some e =>
      cases e with
      | gitCommand g => exact absurd ⟨g, rfl⟩ hgit
      | _ => simp [entriesOf] at hread

end Log

namespace Cache.Spot

variable (spot : Spot) (cached : Option Entry) (head : Text) (w : World)

/-! ## The steps of a refresh -/

def revCall (ref : Text) : GitCall := ⟨.run, ["rev-parse".toList, ref], spot.location⟩

theorem resolveCommit_eq (ref : Text) : spot.resolveCommit ref w =
    (match w.git.run w.calls (spot.revCall ref) with
      | .ok output =>
        if output.trim.isEmpty then Action.fail (.gitRef ref spot.location)
        else pure output.trim
      | .error (.gitCommand _) => Action.fail (.gitRef ref spot.location)
      | .error e => Action.fail e) (w.asked (spot.revCall ref)) := by
  have hrun : (Action.runGit ["rev-parse".toList, ref] spot.location).attempt w =
      (.ok (w.git.run w.calls (spot.revCall ref)), w.asked (spot.revCall ref)) := rfl
  exact Action.bind_of_ok hrun _

variable {spot w} in
theorem resolveCommit_of_run {ref output : Text}
    (hrun : w.git.run w.calls (spot.revCall ref) = .ok output) (hne : output.trim ≠ []) :
    spot.resolveCommit ref w = (.ok output.trim, w.asked (spot.revCall ref)) := by
  rw [resolveCommit_eq, hrun]
  dsimp only
  rw [if_neg (by simpa using hne)]
  rfl

theorem resolveCommit_cases (ref : Text) :
    (∃ output, w.git.run w.calls (spot.revCall ref) = .ok output ∧ output.trim ≠ [] ∧
        spot.resolveCommit ref w = (.ok output.trim, w.asked (spot.revCall ref))) ∨
      ∃ e, spot.resolveCommit ref w = (.error e, w.asked (spot.revCall ref)) := by
  cases hrun : w.git.run w.calls (spot.revCall ref) with
  | ok output =>
    by_cases hempty : output.trim = []
    · refine .inr ⟨.gitRef ref spot.location, ?_⟩
      rw [resolveCommit_eq, hrun]
      dsimp only
      rw [if_pos (by simpa using hempty)]
      rfl
    · exact .inl ⟨output, rfl, hempty, resolveCommit_of_run hrun hempty⟩
  | error e =>
    right
    rw [resolveCommit_eq, hrun]
    cases e <;> exact ⟨_, rfl⟩

/-- The history that missing commits are merged into. -/
def base (cached : Option Entry) : History := (cached.map Entry.history).getD .empty

def mergedAt : History :=
  (base cached).merge false (Log.entriesOf (spot.logOf (missingRange cached head) w)).items

theorem mergeMissing_eq : spot.mergeMissing cached head w =
    ((spot.update (missingRange cached head) (base cached)).attempt >>= fun out =>
      match out with
      | .ok (merged, none) => pure (some merged)
      | .ok (_, some _) => pure none
      | .error (.gitCommand _) => pure none
      | .error (.truncatedLog _) => pure none
      | .error e => Action.fail e) w := by
  unfold mergeMissing
  cases cached <;> rfl

variable {spot cached head w}

theorem mergeMissing_of_isWhole (h : Log.IsWhole (spot.logOf (missingRange cached head) w)) :
    spot.mergeMissing cached head w =
      (.ok (some (spot.mergedAt cached head w)),
        w.asked (spot.logCall (missingRange cached head))) := by
  have hupdate : spot.update _ (base cached) false w = _ := update_of_read h.read
  rw [h.warning] at hupdate
  rw [mergeMissing_eq, Action.bind_of_ok (by rw [Action.attempt_apply, hupdate])]
  rfl

theorem mergeMissing_of_breaksOff (h : Log.BreaksOff (spot.logOf (missingRange cached head) w)) :
    spot.mergeMissing cached head w =
      (.ok none, w.asked (spot.logCall (missingRange cached head))) := by
  rw [mergeMissing_eq]
  rcases Log.reading_of_breaksOff h with ⟨hread, told, hwarning⟩ | ⟨e, hfailure⟩ | ⟨hash, hfailure⟩
  · have hupdate : spot.update _ (base cached) false w = _ := update_of_read hread
    rw [hwarning] at hupdate
    rw [Action.bind_of_ok (by rw [Action.attempt_apply, hupdate])]
    rfl
  · rw [Action.bind_of_ok (by rw [Action.attempt_apply, update_of_failure hfailure])]
    rfl
  · rw [Action.bind_of_ok (by rw [Action.attempt_apply, update_of_failure hfailure])]
    rfl

theorem mergeMissing_of_failure {e : Failure}
    (h : (Log.entriesOf (spot.logOf (missingRange cached head) w)).failure = some e)
    (hgit : ∀ g, e ≠ .gitCommand g) (htruncated : ∀ hash, e ≠ .truncatedLog hash) :
    spot.mergeMissing cached head w =
      (.error e, w.asked (spot.logCall (missingRange cached head))) := by
  rw [mergeMissing_eq, Action.bind_of_ok (by rw [Action.attempt_apply, update_of_failure h])]
  cases e with
  | gitCommand g => exact absurd rfl (hgit g)
  | truncatedLog hash => exact absurd rfl (htruncated hash)
  | _ => rfl

/-! ## From a cache to a head -/

/-- A refresh after the head is known and the cache loaded. -/
def refreshTo (spot : Spot) (cached : Option Entry) (head : Text) : Action (Option Refreshed) := do
  let unchanged : Option Refreshed := cached.map fun e => ⟨e, false⟩
  if cached.any (·.head = head) then return unchanged
  match ← spot.mergeMissing cached head with
  | none => return unchanged
  | some history =>
    let entry : Entry := ⟨spot.schemaVersion, head, history⟩
    save spot.file entry
    return some ⟨entry, true⟩

theorem refresh_eq (anew : Bool) : spot.refresh anew w =
    (spot.resolveCommit spot.publishedRef >>= fun head =>
      (if anew then pure none else load spot.file spot.schemaVersion) >>= fun cached =>
        spot.refreshTo cached head) w := by
  unfold refresh
  cases anew <;> rfl

theorem refresh_of_unresolved {anew : Bool} {w₁ : World} {e : Failure}
    (hresolve : spot.resolveCommit spot.publishedRef w = (.error e, w₁)) :
    spot.refresh anew w = (.error e, w₁) := by
  rw [refresh_eq, Action.bind_of_error hresolve]

theorem refresh_of_resolved {w₁ : World}
    (hresolve : spot.resolveCommit spot.publishedRef w = (.ok head, w₁)) :
    spot.refresh false w = (load spot.file spot.schemaVersion >>= fun cached =>
        spot.refreshTo cached head) w₁ ∧
      spot.refresh true w = spot.refreshTo none head w₁ := by
  rw [refresh_eq, refresh_eq, Action.bind_of_ok hresolve, Action.bind_of_ok hresolve]
  exact ⟨rfl, rfl⟩

theorem refresh_of_loaded {w₁ w₂ : World}
    (hresolve : spot.resolveCommit spot.publishedRef w = (.ok head, w₁))
    (hload : load spot.file spot.schemaVersion w₁ = (.ok cached, w₂)) :
    spot.refresh false w = spot.refreshTo cached head w₂ := by
  rw [(refresh_of_resolved hresolve).1]
  exact Action.bind_of_ok hload _

/-- A refresh starts from the cache in the file or from none. What it removes on the way is of no
use. -/
theorem start_cases (spot : Spot) (anew : Bool) (w : World) :
    ∃ out w', (if anew then pure none else load spot.file spot.schemaVersion) w = (out, w') ∧
      w'.git = w.git ∧ w'.disk.cwd = w.disk.cwd ∧
      (∀ p, w'.disk.fileAt p = w.disk.fileAt p ∨ w'.disk.fileAt p = none) ∧
      (∀ e, out = .ok (some e) →
        readOutcome spot.file spot.schemaVersion w'.disk = .ok (some e)) ∧
      (anew = true → out = .ok none) := by
  cases anew with
  | true => exact ⟨_, w, rfl, rfl, rfl, fun _ => .inl rfl, nofun, fun _ => rfl⟩
  | false =>
    rcases load_cases spot.file spot.schemaVersion w with
      ⟨cached, houtcome, hload⟩ | ⟨out, w', hload, hnone, hgit, hcwd, hfiles⟩
    · refine ⟨_, w, hload, rfl, rfl, fun _ => .inl rfl, fun e he => ?_, nofun⟩
      rw [houtcome, he]
    · exact ⟨out, w', hload, hgit, hcwd, hfiles, fun e he => absurd he (hnone e), nofun⟩

/-- The entry of the missing commits merged. -/
def mergedEntry (spot : Spot) (cached : Option Entry) (head : Text) (w : World) : Entry :=
  ⟨spot.schemaVersion, head, spot.mergedAt cached head w⟩

theorem refreshTo_of_same (h : cached.any (·.head = head) = true) :
    spot.refreshTo cached head w = (.ok (cached.map fun e => ⟨e, false⟩), w) := by
  unfold refreshTo
  rw [if_pos h]
  rfl

theorem refreshTo_of_breaksOff (hne : ¬ cached.any (·.head = head) = true)
    (h : Log.BreaksOff (spot.logOf (missingRange cached head) w)) :
    spot.refreshTo cached head w =
      (.ok (cached.map fun e => ⟨e, false⟩),
        w.asked (spot.logCall (missingRange cached head))) := by
  unfold refreshTo
  rw [if_neg hne, Action.bind_of_ok (mergeMissing_of_breaksOff h)]
  rfl

theorem refreshTo_of_isWhole (hne : ¬ cached.any (·.head = head) = true)
    (h : Log.IsWhole (spot.logOf (missingRange cached head) w)) :
    spot.refreshTo cached head w =
      (save spot.file (spot.mergedEntry cached head w) >>= fun _ =>
          pure (some ⟨spot.mergedEntry cached head w, true⟩))
        (w.asked (spot.logCall (missingRange cached head))) := by
  unfold refreshTo
  rw [if_neg hne, Action.bind_of_ok (mergeMissing_of_isWhole h)]
  rfl

theorem refreshTo_of_failure {e : Failure} (hne : ¬ cached.any (·.head = head) = true)
    (h : (Log.entriesOf (spot.logOf (missingRange cached head) w)).failure = some e)
    (hgit : ∀ g, e ≠ .gitCommand g) (htruncated : ∀ hash, e ≠ .truncatedLog hash) :
    spot.refreshTo cached head w =
      (.error e, w.asked (spot.logCall (missingRange cached head))) := by
  unfold refreshTo
  rw [if_neg hne, Action.bind_of_error (mergeMissing_of_failure h hgit htruncated)]

/-- Either no file is touched and what is returned is the cache, or the log was read whole and the
merged entry was saved or failed to be. A save touches the file and, at most, the one beside it. -/
theorem refreshTo_cases (spot : Spot) (cached : Option Entry) (head : Text) (w : World) :
    (∃ out w', spot.refreshTo cached head w = (out, w') ∧ w'.disk = w.disk ∧
        (out = .ok (cached.map fun e => ⟨e, false⟩) ∨ ∃ e, out = .error e)) ∨
      (Log.IsWhole (spot.logOf (missingRange cached head) w) ∧
        ((∃ w', spot.refreshTo cached head w =
              (.ok (some ⟨spot.mergedEntry cached head w, true⟩), w') ∧ w'.disk.cwd = w.disk.cwd ∧
            w'.disk.read spot.file = .ok (content (spot.mergedEntry cached head w)) ∧
            ∀ p, w'.disk.fileAt p =
              if p = w.disk.resolve spot.file then
                some (content (spot.mergedEntry cached head w), false)
              else if p = w.disk.resolve (tempPath spot.file w.stamp) then none
              else w.disk.fileAt p) ∨
          ∃ reason w', spot.refreshTo cached head w = (.error (.cachePersist spot.file reason), w') ∧
            w.disk.KeepsBut (tempPath spot.file w.stamp) w'.disk ∧
            (w'.disk.fileAt (w.disk.resolve (tempPath spot.file w.stamp)) = none ∨
              (spot.refreshTo cached head).LeavesBehind (tempPath spot.file w.stamp) w))) := by
  by_cases hsame : cached.any (·.head = head) = true
  · exact .inl ⟨_, w, refreshTo_of_same hsame, rfl, .inl rfl⟩
  rcases Log.source_cases (spot.logOf (missingRange cached head) w) with
    hwhole | hbreaks | ⟨e, hfailure, hgit, htruncated⟩
  · refine .inr ⟨hwhole, ?_⟩
    have hto := refreshTo_of_isWhole hsame hwhole
    rcases save_cases spot.file (spot.mergedEntry cached head w)
        (w.asked (spot.logCall (missingRange cached head))) with
      ⟨w', hsave, hfiles⟩ | ⟨reason, w', hsave, hkeeps, htemp⟩
    · exact .inl ⟨w', hto.trans (Action.bind_of_ok hsave _), hfiles⟩
    · have hfailed := hto.trans (Action.bind_of_error hsave _)
      refine .inr ⟨reason, w', hfailed, hkeeps, htemp.imp_right fun hleft => ?_⟩
      exact hleft.of_last (.asked _ .start) (by rw [hfailed, hsave])
  · exact .inl ⟨_, _, refreshTo_of_breaksOff hsame hbreaks, rfl, .inl rfl⟩
  · exact .inl ⟨_, _, refreshTo_of_failure hsame hfailure hgit htruncated, rfl, .inr ⟨e, rfl⟩⟩

/-- The file beside a cache is another one. -/
theorem file_ne_temp (spot : Spot) (w : World) :
    w.disk.resolve spot.file ≠ w.disk.resolve (tempPath spot.file w.stamp) :=
  resolve_ne_tempPath w.stamp_plain w.disk.cwd spot.file

theorem refreshTo_keeps (cached : Option Entry) (head : Text)
    (hfresh : w.disk.fileAt (w.disk.resolve (tempPath spot.file w.stamp)) = none) :
    (∀ p, p ≠ w.disk.resolve spot.file → p ≠ w.disk.resolve (tempPath spot.file w.stamp) →
      (spot.refreshTo cached head w).2.disk.fileAt p = w.disk.fileAt p) ∧
    ((spot.refreshTo cached head w).2.disk.fileAt
          (w.disk.resolve (tempPath spot.file w.stamp)) = none ∨
      (∃ reason, (spot.refreshTo cached head w).1 = .error (.cachePersist spot.file reason)) ∧
        (spot.refreshTo cached head).LeavesBehind (tempPath spot.file w.stamp) w) ∧
    (((spot.refreshTo cached head w).2.disk.fileAt (w.disk.resolve spot.file) =
          w.disk.fileAt (w.disk.resolve spot.file) ∧
        ∀ r, (spot.refreshTo cached head w).1 = .ok (some r) → r.updated = false) ∨
      Log.IsWhole (spot.logOf (missingRange cached head) w) ∧
        (spot.refreshTo cached head w).1 = .ok (some ⟨spot.mergedEntry cached head w, true⟩) ∧
        (spot.refreshTo cached head w).2.disk.fileAt (w.disk.resolve spot.file) =
          some (content (spot.mergedEntry cached head w), false)) := by
  have hne := spot.file_ne_temp w
  rcases refreshTo_cases spot cached head w with
    ⟨out, w', hto, hdisk, hout⟩ | ⟨hwhole, ⟨w', hto, -, -, hfiles⟩ | ⟨reason, w', hto, hkeeps, htemp⟩⟩
  · rw [hto]
    refine ⟨fun p _ _ => by rw [hdisk], .inl (by rw [hdisk, hfresh]), .inl ⟨by rw [hdisk], fun r hr => ?_⟩⟩
    rcases hout with rfl | ⟨e, rfl⟩
    · cases cached with
      | none => cases hr
      | some e => cases hr; rfl
    · cases hr
  · rw [hto]
    refine ⟨fun p hp hp' => ?_, .inl ?_, .inr ⟨hwhole, rfl, (hfiles _).trans (if_pos rfl)⟩⟩
    · rw [hfiles, if_neg hp, if_neg hp']
    · rw [hfiles, if_neg hne.symm, if_pos rfl]
  · rw [hto]
    exact ⟨fun p _ hp => hkeeps.others p hp, htemp.imp_right fun hleft => ⟨⟨reason, rfl⟩, hleft⟩,
      .inl ⟨hkeeps.others _ hne, nofun⟩⟩

/-! ## Good caches -/

/-- The cache that a refresh starts from. -/
def startOf (anew : Bool) (e : Entry) : Option Entry := if anew then none else some e

theorem refresh_of_good (anew : Bool) {e : Entry}
    (hgood : (read spot.file spot.schemaVersion w).1 = .ok (some e)) :
    (∃ err, spot.resolveCommit spot.publishedRef w =
          (.error err, w.asked (spot.revCall spot.publishedRef)) ∧
        spot.refresh anew w = (.error err, w.asked (spot.revCall spot.publishedRef))) ∨
      ∃ head, spot.resolveCommit spot.publishedRef w =
          (.ok head, w.asked (spot.revCall spot.publishedRef)) ∧
        spot.refresh anew w =
          spot.refreshTo (startOf anew e) head (w.asked (spot.revCall spot.publishedRef)) := by
  rw [refresh_eq]
  rcases spot.resolveCommit_cases w spot.publishedRef with ⟨output, -, -, hresolve⟩ | ⟨err, hresolve⟩
  · right
    refine ⟨_, hresolve, ?_⟩
    rw [Action.bind_of_ok hresolve]
    have hload : (if anew = true then pure none else load spot.file spot.schemaVersion)
        (w.asked (spot.revCall spot.publishedRef)) =
          (.ok (startOf anew e), w.asked (spot.revCall spot.publishedRef)) := by
      cases anew with
      | true => rfl
      | false =>
        rw [read_apply] at hgood
        exact load_of_read (by rw [read_apply]; exact hgood)
    exact Action.bind_of_ok hload _
  · exact .inl ⟨err, hresolve, Action.bind_of_error hresolve _⟩

/-- A refresh leaves a good cache as it was, or puts in its place the whole content of the entry that
it returns, merged from a log that was read to its end. No other file differs, but for the one beside the
cache, which stays where the entry could not be saved and that file not be removed. An unforced refresh whose
log cannot be read returns the cache. -/
theorem refresh_keeps_cache {anew : Bool} {e : Entry}
    (hgood : (read spot.file spot.schemaVersion w).1 = .ok (some e))
    (hfresh : w.disk.fileAt (w.disk.resolve (tempPath spot.file w.stamp)) = none) :
    (∀ p, p ≠ w.disk.resolve spot.file → p ≠ w.disk.resolve (tempPath spot.file w.stamp) →
      (spot.refresh anew w).2.disk.fileAt p = w.disk.fileAt p) ∧
    ((spot.refresh anew w).2.disk.fileAt (w.disk.resolve (tempPath spot.file w.stamp)) = none ∨
      (∃ reason, (spot.refresh anew w).1 = .error (.cachePersist spot.file reason)) ∧
        (spot.refresh anew).LeavesBehind (tempPath spot.file w.stamp) w) ∧
    (((spot.refresh anew w).2.disk.fileAt (w.disk.resolve spot.file) =
          w.disk.fileAt (w.disk.resolve spot.file) ∧
        ∀ r, (spot.refresh anew w).1 = .ok (some r) → r.updated = false) ∨
      ∃ head w', spot.resolveCommit spot.publishedRef w = (.ok head, w') ∧
        Log.IsWhole (spot.logOf (missingRange (startOf anew e) head) w') ∧
        (spot.refresh anew w).1 = .ok (some ⟨spot.mergedEntry (startOf anew e) head w', true⟩) ∧
        (spot.refresh anew w).2.disk.fileAt (w.disk.resolve spot.file) =
          some (content (spot.mergedEntry (startOf anew e) head w'), false)) ∧
    (anew = false → ∀ head w', spot.resolveCommit spot.publishedRef w = (.ok head, w') →
      Log.BreaksOff (spot.logOf (missingRange (some e) head) w') →
        (spot.refresh anew w).1 = .ok (some ⟨e, false⟩)) := by
  rcases refresh_of_good anew hgood with ⟨err, hresolve, hrefresh⟩ | ⟨head, hresolve, hrefresh⟩
  · rw [hrefresh]
    refine ⟨fun _ _ _ => rfl, .inl hfresh, .inl ⟨rfl, nofun⟩, fun _ head w' h => ?_⟩
    rw [hresolve] at h
    cases h
  obtain ⟨hothers, htemp, hcache⟩ :=
    refreshTo_keeps (w := w.asked (spot.revCall spot.publishedRef)) (startOf anew e) head hfresh
  rw [← hrefresh] at hothers htemp hcache
  have hlast (hleft : (spot.refreshTo (startOf anew e) head).LeavesBehind (tempPath spot.file w.stamp)
      (w.asked (spot.revCall spot.publishedRef))) :
      (spot.refresh anew).LeavesBehind (tempPath spot.file w.stamp) w :=
    hleft.of_last (.asked _ .start) (congrArg Prod.snd hrefresh)
  refine ⟨hothers, htemp.imp_right (And.imp_right hlast), ?_, ?_⟩
  · rcases hcache with hsame | ⟨hwhole, hout, hfile⟩
    · exact .inl hsame
    · exact .inr ⟨head, _, hresolve, hwhole, hout, hfile⟩
  · intro hanew head' w' h hbreaks
    rw [hresolve] at h
    cases h
    rw [hrefresh, hanew, show startOf false e = some e from rfl]
    by_cases hsame : (some e).any (·.head = head) = true
    · rw [refreshTo_of_same hsame]
      rfl
    · rw [refreshTo_of_breaksOff hsame hbreaks]
      rfl

/-- A cache at the commit `h1`. -/
def savedEntry : Entry := ⟨1, "h1".toList, .empty⟩

def savedSpot : Spot where
  location := "/r".toList
  file := "/c".toList

/-- The head is at `h2` by now, and every log ends inside of a header. -/
def brokenWorld : World where
  git := ⟨fun _ _ => .ok "h2".toList, fun _ _ => ⟨[Log.beginMarker], none⟩, true⟩
  disk := (Disk.empty []).put ["c".toList] (.file (content savedEntry) false)
  stamp := "1".toList

theorem storable_savedEntry : Storable savedEntry :=
  ⟨⟨1, .of_lt (by decide), rfl⟩, by decide, ⟨0, .of_lt (by decide), rfl⟩, fun _ _ _ _ h => by cases h⟩

theorem refresh_brokenWorld :
    (read savedSpot.file savedSpot.schemaVersion brokenWorld).1 = .ok (some (reload savedEntry)) ∧
      brokenWorld.disk.fileAt
        (brokenWorld.disk.resolve (tempPath savedSpot.file brokenWorld.stamp)) = none ∧
      (savedSpot.refresh false brokenWorld).1 = .ok (some ⟨reload savedEntry, false⟩) := by
  have hfile : brokenWorld.disk.read savedSpot.file = .ok (content savedEntry) := rfl
  have hgood : (read savedSpot.file savedSpot.schemaVersion brokenWorld).1 =
      .ok (some (reload savedEntry)) := by
    rw [read_apply, readOutcome_eq_some_iff]
    exact ⟨_, hfile, ofContent_content storable_savedEntry _⟩
  have hfresh : brokenWorld.disk.fileAt
      (brokenWorld.disk.resolve (tempPath savedSpot.file brokenWorld.stamp)) = none := by
    decide +kernel
  exact ⟨hgood, hfresh, (refresh_keeps_cache hgood hfresh).2.2.2 rfl "h2".toList _ rfl
    (.inr ⟨[], rfl⟩)⟩

/-- Names can be put into the folder of the cache but not taken out of it. The log of the head is whole. -/
def appendOnlyWorld : World where
  git := ⟨fun _ _ => .ok "h2".toList, fun _ _ => ⟨[], none⟩, true⟩
  disk := ((Disk.empty []).set [] (.folder { removing := false })).put ["c".toList]
    (.file (content savedEntry) false)
  stamp := "1".toList

/-- The file beside the cache is written, but can neither be moved to it nor be removed again. -/
theorem refresh_appendOnlyWorld :
    (read savedSpot.file savedSpot.schemaVersion appendOnlyWorld).1 = .ok (some (reload savedEntry)) ∧
      appendOnlyWorld.disk.fileAt ["c.tmp.1".toList] = none ∧
      (savedSpot.refresh true appendOnlyWorld).1 =
        .error (.cachePersist "/c".toList (.disk ⟨.denied, .moving "/c.tmp.1".toList "/c".toList⟩)) ∧
      ∃ e, (savedSpot.refresh true appendOnlyWorld).2.disk.fileAt ["c.tmp.1".toList] =
        some (content e, false) := by
  refine ⟨?_, rfl, rfl, _, rfl⟩
  rw [read_apply, readOutcome_eq_some_iff]
  exact ⟨content savedEntry, rfl, ofContent_content storable_savedEntry _⟩

end Cache.Spot
end PackageHistory
