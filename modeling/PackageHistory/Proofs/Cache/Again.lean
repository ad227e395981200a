import PackageHistory.Proofs.Cache.Reloaded
import PackageHistory.Proofs.History.WellFormed

/-!
# Refreshing again

What a refresh saved is good enough for the next one. As long as the head stays and nothing else touches the file,
that asks git for the head alone, changes nothing, and returns the lists that were saved.
-/

namespace PackageHistory.Cache

/-! ## Entries without empty parts -/

/-- What was read has no empty parts, whatever the file has. -/
theorem isFull_of_read {path : Text} {expected : Number} {w : World} {e : Entry}
    (h : (read path expected w).1 = .ok (some e)) : e.history.records.IsFull := by
  obtain ⟨-, -, hreload⟩ := storable_of_read h
  rw [← hreload]
  exact isFull_treeOf _

/-- Two entries with one head and one count, and with the same lists outside of the lost name. Neither has a list,
package or category with nothing in it, so there is one where the other has one. -/
structure IsLoadedAs (e e' : Entry) : Prop where
  schemaVersion : e'.schemaVersion = e.schemaVersion
  head : e'.head = e.head
  commitCount : e'.history.commitCount = e.history.commitCount
  lists : ∀ c p s, c ≠ lostName → p ≠ lostName →
    e'.history.records.list c p s = e.history.records.list c p s
  full : e.history.records.IsFull
  full' : e'.history.records.IsFull

theorem isLoadedAs_reload {e : Entry} (hstored : IsStored e.history) (hfull : e.history.records.IsFull) :
    IsLoadedAs e (reload e) where
  schemaVersion := rfl
  head := rfl
  commitCount := rfl
  lists c p s hc hp := by
    rw [list_reload, if_neg (not_or.mpr ⟨hc, hp⟩)]
    exact (List.map_congr_left (hstored.records c p s)).trans (List.map_id _)
  full := hfull
  full' := isFull_treeOf _

namespace Spot

variable {spot : Spot} {anew : Bool} {w w₁ w₂ : World} {e : Entry}

theorem isFull_mergedAt {cached : Option Entry} (head : Text)
    (hcached : ∀ e₀, cached = some e₀ → (read spot.file spot.schemaVersion w).1 = .ok (some e₀)) :
    (spot.mergedAt cached head w).records.IsFull := by
  refine History.isFull_merge ?_ _
  cases cached with
  | none => exact Tree.isFull_empty
  | some e₀ => exact isFull_of_read (hcached e₀ rfl)

/-- What a refresh saved is loaded as what it returned. -/
theorem load_updated {v : Int} (hv : Binary64.IsExact v.natAbs) (hversion : spot.schemaVersion = .integer v)
    (hcountable : HasCountableLogs w.git) (hrefresh : spot.refresh anew w = (.ok (some ⟨e, true⟩), w₁))
    (hdisk : w₂.disk = w₁.disk) :
    load spot.file spot.schemaVersion w₂ = (.ok (some (reload e)), w₂) ∧ IsLoadedAs e (reload e) := by
  obtain ⟨cached, head, w', hne, hgit, hcached, rfl, hfile⟩ := refresh_updated hrefresh
  rw [← hgit] at hcountable
  have hstored := isStored_mergedAt_of_countable head hcountable hcached
  have hstorable : Storable (spot.mergedEntry cached head w') :=
    ⟨⟨v, hv, hversion⟩, hne, hstored.count, hstored.seqs⟩
  rw [← hdisk] at hfile
  exact ⟨load_of_read (read_of_stored hstorable rfl hfile),
    isLoadedAs_reload hstored (isFull_mergedAt head hcached)⟩

/-- A refresh that saved an entry is not repeated. Where nothing else touches the file and the head is the same,
the next one asks git for the head and for no log, tries no edit of the disk, and returns what was saved. -/
theorem refresh_again {v : Int} (hv : Binary64.IsExact v.natAbs) (hversion : spot.schemaVersion = .integer v)
    (hcountable : HasCountableLogs w.git) (hrefresh : spot.refresh anew w = (.ok (some ⟨e, true⟩), w₁))
    (hdisk : w₂.disk = w₁.disk) (hhead : (spot.resolveCommit spot.publishedRef w₂).1 = .ok e.head) :
    ∃ e', load spot.file spot.schemaVersion w₂ = (.ok (some e'), w₂) ∧
      spot.refresh false w₂ = (.ok (some ⟨e', false⟩), w₂.asked (spot.revCall spot.publishedRef)) ∧
      IsLoadedAs e e' := by
  obtain ⟨hload, hloaded⟩ := load_updated hv hversion hcountable hrefresh hdisk
  refine ⟨reload e, hload, ?_, hloaded⟩
  have hasked : load spot.file spot.schemaVersion (w₂.asked (spot.revCall spot.publishedRef)) =
      (.ok (some (reload e)), w₂.asked (spot.revCall spot.publishedRef)) :=
    (load_updated hv hversion hcountable hrefresh (by rw [World.asked_disk, hdisk])).1
  rcases spot.resolveCommit_cases w₂ spot.publishedRef with ⟨output, -, -, hresolve⟩ | ⟨err, hresolve⟩
  · rw [hresolve, Except.ok.injEq] at hhead
    have hsame : (some (reload e)).any (·.head = output.trim) = true := decide_eq_true hhead.symm
    rw [refresh_of_loaded hresolve hasked, refreshTo_of_same hsame]
    rfl
  · rw [hresolve] at hhead
    cases hhead

/-- A record with no date and no hash, whose ordinal is a number that does not grow by one any more. -/
def oddRecord : Record := ⟨"0".toList, [], .integer (2 ^ 53), .hash [], none⟩

/-- An old cache of this record, with as great a count and with an empty category. -/
def oddEntry : Entry where
  schemaVersion := 1
  head := "h0".toList
  history :=
    { commitCount := .integer (2 ^ 53)
      records := OrderedMap.insert (Tree.append .empty "dev-libs".toList "foo".toList .added oddRecord)
        "app-misc".toList .empty }

def oddWorld : World :=
  { loggedWorld addedFile with disk := (Disk.empty []).put ["c".toList] (.file (content oddEntry) false) }

theorem mem_list_oddEntry {c p : Text} {s : Status} {r : Record}
    (hr : r ∈ oddEntry.history.records.list c p s) : r.seq = .integer (2 ^ 53) := by
  rw [oddEntry, Tree.list, Tree.statuses?, OrderedMap.get?_insert] at hr
  split at hr
  · cases hr
  · change r ∈ Tree.list (Tree.append .empty "dev-libs".toList "foo".toList .added oddRecord) c p s at hr
    rw [list_append, Tree.list_empty, List.nil_append] at hr
    split at hr
    · rw [List.mem_singleton.mp hr, oddRecord]
    · cases hr

theorem storable_oddEntry : Storable oddEntry := by
  have hcount : IsCount (.integer (2 ^ 53)) := ⟨2 ^ 53, ⟨2 ^ 52, 1, by decide, by decide, by decide⟩, rfl⟩
  refine ⟨⟨1, .of_lt (by decide), rfl⟩, by decide, hcount, fun c p s r hr => ?_⟩
  rw [mem_list_oddEntry hr]
  exact hcount

/-- What a refresh makes of it, after it has asked for the head. -/
def grownEntry : Entry :=
  savedSpot.mergedEntry (some (reload oddEntry)) "h1".toList
    (oddWorld.asked (savedSpot.revCall savedSpot.publishedRef))

def grownWorld : World :=
  (save savedSpot.file grownEntry ((oddWorld.asked (savedSpot.revCall savedSpot.publishedRef)).asked
    (savedSpot.logCall "h0..h1".toList))).2

theorem refresh_oddWorld : savedSpot.refresh false oddWorld = (.ok (some ⟨grownEntry, true⟩), grownWorld) := by
  have hgood : (read savedSpot.file savedSpot.schemaVersion oddWorld).1 = .ok (some (reload oddEntry)) :=
    read_of_stored storable_oddEntry rfl rfl
  rcases refresh_of_good false hgood with ⟨err, hresolve, -⟩ | ⟨head, hresolve, hrefresh⟩
  · cases hresolve
  obtain rfl : "h1".toList = head := by cases hresolve; rfl
  have hne : ¬ (startOf false (reload oddEntry)).any (·.head = "h1".toList) = true := by decide
  rw [refreshTo_of_isWhole hne ⟨rfl, rfl⟩] at hrefresh
  exact hrefresh.trans (Action.bind_of_ok (Prod.ext rfl rfl) _)

/-- The count stays where it was, the new record comes after the old one, and the next refresh finds both. -/
theorem refresh_again_oddWorld :
    savedSpot.refresh false oddWorld = (.ok (some ⟨grownEntry, true⟩), grownWorld) ∧
    ∃ e', savedSpot.refresh false grownWorld =
        (.ok (some ⟨e', false⟩), grownWorld.asked (savedSpot.revCall savedSpot.publishedRef)) ∧
      e'.history.commitCount = .integer (2 ^ 53) ∧
      (e'.history.records.list "dev-libs".toList "foo".toList .added).map Record.version =
        ["0".toList, "1".toList] := by
  have hcountable : HasCountableLogs oddWorld.git :=
    (hasShortLogs_loggedWorld (by decide +kernel)).countable
  obtain ⟨e', -, hagain, hloaded⟩ :=
    refresh_again (v := 1) (.of_lt (by decide)) rfl hcountable refresh_oddWorld rfl rfl
  refine ⟨refresh_oddWorld, e', hagain, ?_, ?_⟩
  · rw [hloaded.commitCount]
    decide +kernel
  · rw [hloaded.lists _ _ _ (by decide) (by decide)]
    decide +kernel

end Spot

end PackageHistory.Cache
