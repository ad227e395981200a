import PackageHistory.Proofs.Cache.Edits
import PackageHistory.Proofs.Cache.Reloaded

/-!
# Caches that stand beside each other

A refresh leaves alone whatever can be read elsewhere, and its own file too unless it saves a new cache. What
it returns is what the file then holds.
-/

namespace PackageHistory.Cache

variable {path : Text} {expected : Number} {e : Entry} {p : Path} {w : World}

/-! ## Saving -/

theorem saveSteps_spares {temp : Text} (htemp : p ≠ w.disk.resolve temp)
    (hpath : p ≠ w.disk.resolve path ∨ (saveSteps path temp e w).1 ≠ .ok ()) :
    w.Spares p (saveSteps path temp e w).2 := by
  unfold saveSteps at hpath ⊢
  have hmake : w.Spares p (Action.edit (.makeFolders (Path.parentText path)) w).2 :=
    Action.edit_spares trivial
  refine Action.bind_spares hmake fun _ w₁ hw₁ => ?_
  rw [hw₁] at hmake
  rw [Action.bind_of_ok hw₁] at hpath
  have hwrite : w₁.Spares p (Action.edit (.write temp (content e)) w₁).2 :=
    Action.edit_spares (by rw [Disk.Edit.Avoids, hmake.resolve]; exact htemp)
  refine Action.bind_spares hwrite fun _ w₂ hw₂ => ?_
  rw [hw₂] at hwrite
  rw [Action.bind_of_ok hw₂] at hpath
  have hresolve (t : Text) : w₂.disk.resolve t = w.disk.resolve t :=
    (hwrite.resolve t).trans (hmake.resolve t)
  rcases hpath with hne | hfails
  · refine Action.edit_spares ?_
    rw [Disk.Edit.Avoids, hresolve, hresolve]
    exact ⟨htemp, hne⟩
  · exact Action.rename_spares p hfails

/-- A save touches the file beside the cache and, when it succeeds, the cache. -/
theorem save_spares (htemp : p ≠ w.disk.resolve (tempPath path w.stamp))
    (hpath : p ≠ w.disk.resolve path ∨ (save path e w).1 ≠ .ok ()) :
    w.Spares p (save path e w).2 := by
  rcases saveSteps_cases path (tempPath path w.stamp) e w with
    ⟨w', hsteps, -⟩ | ⟨err, w', hsteps, -⟩
  · have hspares := saveSteps_spares (e := e) htemp (hpath.imp id fun hfails => by
      rwa [save_of_written hsteps, ← hsteps] at hfails)
    rw [hsteps] at hspares
    rw [save_of_written hsteps]
    exact hspares
  · have hspares : w.Spares p (saveSteps path (tempPath path w.stamp) e w).2 :=
      saveSteps_spares htemp (.inr (by rw [hsteps]; nofun))
    rw [hsteps] at hspares
    rw [save_of_failed hsteps]
    refine hspares.trans (Action.edit_spares ?_)
    rw [Disk.Edit.Avoids, hspares.resolve]
    exact htemp

namespace Spot

variable {spot : Spot} {cached : Option Entry} {head : Text} {anew : Bool}

theorem refreshTo_spares (htemp : p ≠ w.disk.resolve (tempPath spot.file w.stamp))
    (hpath : p ≠ w.disk.resolve spot.file ∨
      ∀ r, (spot.refreshTo cached head w).1 = .ok (some r) → r.updated = false) :
    w.Spares p (spot.refreshTo cached head w).2 := by
  by_cases hsame : cached.any (·.head = head) = true
  · rw [refreshTo_of_same hsame]
    exact .refl p w
  rcases Log.source_cases (spot.logOf (missingRange cached head) w) with
    hwhole | hbreaks | ⟨err, hfailure, hgit, htruncated⟩
  · have hto := refreshTo_of_isWhole hsame hwhole
    rw [hto] at hpath ⊢
    refine (World.Spares.asked p w _).trans (Action.bind_spares ?_ fun _ w₂ _ => .refl p w₂)
    refine save_spares htemp (hpath.imp id fun hkeeps hsaved => ?_)
    -- A save that succeeded would have been told of as an update.
    have hsave : save spot.file (spot.mergedEntry cached head w)
        (w.asked (spot.logCall (missingRange cached head))) = (.ok (), _) := Prod.ext hsaved rfl
    have hupdated := hkeeps ⟨spot.mergedEntry cached head w, true⟩ (by
      rw [Action.bind_of_ok hsave]
      rfl)
    cases hupdated
  · rw [refreshTo_of_breaksOff hsame hbreaks]
    exact .asked p w _
  · rw [refreshTo_of_failure hsame hfailure hgit htruncated]
    exact .asked p w _

/-- What can be read outside of the file of the cache stays. -/
theorem refresh_spares (hpath : ¬ w.disk.resolve spot.file <+: p)
    (htemp : p ≠ w.disk.resolve (tempPath spot.file w.stamp)) :
    w.Spares p (spot.refresh anew w).2 := by
  refine (spot.refresh_evolves anew w).spares fun e he => ?_
  cases e with
  | makeFolders folder => trivial
  | write file content => cases he; exact htemp
  | rename src dst => obtain ⟨rfl, rfl⟩ := he; exact ⟨htemp, fun h => hpath (h ▸ List.prefix_rfl)⟩
  | unlink file => cases he; exact htemp
  | remove file => cases he; exact hpath

/-- A good cache stays where a refresh does not save another one. -/
theorem refresh_spares_cache {e : Entry}
    (hgood : (read spot.file spot.schemaVersion w).1 = .ok (some e))
    (htemp : w.disk.resolve spot.file ≠ w.disk.resolve (tempPath spot.file w.stamp))
    (hkept : ∀ r, (spot.refresh anew w).1 = .ok (some r) → r.updated = false) :
    w.Spares (w.disk.resolve spot.file) (spot.refresh anew w).2 := by
  rcases refresh_of_good anew hgood with ⟨err, -, hrefresh⟩ | ⟨head, -, hrefresh⟩
  · rw [hrefresh]
    exact .asked _ w _
  · rw [hrefresh] at hkept ⊢
    exact (World.Spares.asked _ w _).trans (refreshTo_spares htemp (.inr hkept))

end Spot

/-! ## Names that stay -/

theorem keepsNames_of_read (h : (read path expected w).1 = .ok (some e)) :
    KeepsNames e.history.records := by
  obtain ⟨-, -, hreload⟩ := storable_of_read h
  intro c p s hne
  rw [← hreload, list_reload] at hne
  split at hne
  · exact absurd rfl hne
  · next hnames => exact not_or.mp hnames

/-- No commit that git tells of touches a category or package of the name that is lost. -/
def NamesStay (git : Git) : Prop :=
  ∀ calls call, ∀ entry ∈ (Log.entriesOf (git.stream calls call)).items,
    ∀ change ∈ Change.ofEntry false entry,
      change.cpv.category ≠ lostName ∧ change.cpv.package ≠ lostName

theorem KeepsNames.merge {h : History} (hh : KeepsNames h.records) {entries : List LogEntry}
    (hnames : ∀ entry ∈ entries, ∀ change ∈ Change.ofEntry false entry,
      change.cpv.category ≠ lostName ∧ change.cpv.package ≠ lostName) :
    KeepsNames (h.merge false entries).records := by
  intro c p s hne
  obtain ⟨r, hr⟩ := List.exists_mem_of_ne_nil _ hne
  refine History.forall_mem_merge (P := fun _ => c ≠ lostName ∧ p ≠ lostName)
    (fun r hr => hh c p s (List.ne_nil_of_mem hr)) (fun r hr => ?_) r hr
  obtain ⟨entry, hentry, change, hchange, hat, -⟩ := (History.mem_recordsAt false h).mp hr
  obtain ⟨rfl, rfl, -⟩ := Change.isAt_iff.mp hat
  exact hnames entry hentry change hchange

/-! ## Entries that say the same -/

/-- Two entries that name the same head and have the same count and the same lists of records. -/
structure SameRecords (e e' : Entry) : Prop where
  head : e'.head = e.head
  commitCount : e'.history.commitCount = e.history.commitCount
  lists : ∀ c p s, e'.history.records.list c p s = e.history.records.list c p s

namespace Spot

variable {spot : Spot} {anew : Bool}

/-- What a refresh returns says the same as what its file then holds. -/
theorem refresh_reported {r : Refreshed} {w' : World} {v : Int} (hv : Binary64.IsExact v.natAbs)
    (hversion : spot.schemaVersion = .integer v) (hshort : HasShortLogs w.git)
    (hnames : NamesStay w.git) (h : spot.refresh anew w = (.ok (some r), w')) :
    ∃ e', (read spot.file spot.schemaVersion w').1 = .ok (some e') ∧ SameRecords r.entry e' := by
  obtain ⟨e, updated⟩ := r
  cases updated with
  | false => exact ⟨e, refresh_unchanged h, rfl, rfl, fun _ _ _ => rfl⟩
  | true =>
    obtain ⟨cached, head, w₁, hne, hgit, hcached, rfl, hfile⟩ := refresh_updated h
    rw [← hgit] at hshort hnames
    have hstored := isStored_mergedAt head hshort hcached
    have hstorable : Storable (spot.mergedEntry cached head w₁) :=
      ⟨⟨v, hv, hversion⟩, hne, hstored.count, hstored.seqs⟩
    have hbase : KeepsNames (base cached).records := by
      cases cached with
      | none => exact fun _ _ _ hne => absurd rfl hne
      | some e₀ => exact keepsNames_of_read (hcached e₀ rfl)
    have hkeeps : KeepsNames (spot.mergedEntry cached head w₁).history.records :=
      hbase.merge (hnames _ _)
    exact ⟨_, read_of_stored hstorable rfl hfile, rfl, rfl,
      list_reload_of_isStored hstored hkeeps⟩

end Spot

end PackageHistory.Cache
