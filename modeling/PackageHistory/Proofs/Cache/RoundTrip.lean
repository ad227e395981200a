import PackageHistory.Proofs.Cache.Decoding
import PackageHistory.Proofs.Cache.Store

/-!
# Saving and reading

What a save puts in place is read back: an entry that was built as far as its records are stored, an
entry that was read as it is.
-/

namespace PackageHistory.Cache

/-! ## After a save -/

section Saved

variable {path : Text} {expected : Number} {e e' : Entry} {w w' : World}

theorem save_outcome (path : Text) (e : Entry) (w : World) :
    (∃ reason, (save path e w).1 = .error (.cachePersist path reason)) ∨
      (save path e w).1 = .ok () := by
  rcases save_cases path e w with ⟨w₁, hsave, -⟩ | ⟨reason, w₁, hsave, -⟩
  · exact .inr (by rw [hsave])
  · exact .inl ⟨reason, by rw [hsave]⟩

theorem read_of_save (h : (save path e w).1 = .ok ()) :
    (save path e w).2.disk.read path = .ok (content e) := by
  rcases save_cases path e w with ⟨w₁, hsave, -, hread, -⟩ | ⟨reason, w₁, hsave, -⟩
  · rw [hsave]
    exact hread
  · rw [hsave] at h
    cases h

theorem read_of_stored (hstorable : Storable e) (hversion : e.schemaVersion = expected)
    (h : w.disk.read path = .ok (content e)) :
    (read path expected w).1 = .ok (some (reload e)) := by
  subst hversion
  rw [read_apply, readOutcome_eq_some_iff]
  exact ⟨_, h, ofContent_content hstorable path⟩

theorem parsed_of_read (h : (read path expected w).1 = .ok (some e)) :
    ∃ c v, w.disk.read path = .ok c ∧ Json.parse? c = some v ∧ decode v = .ok e ∧
      e.schemaVersion = expected := by
  rw [read_apply, readOutcome_eq_some_iff] at h
  obtain ⟨c, hc, hcontent⟩ := h
  obtain ⟨v, hv⟩ := ofContent_eq_ok hcontent
  exact ⟨c, v, hc, hv⟩

/-- What was read can be stored, and is what it is stored as. -/
theorem storable_of_read (h : (read path expected w).1 = .ok (some e)) :
    e.schemaVersion = expected ∧ Storable e ∧ reload e = e := by
  obtain ⟨c, v, -, hparse, hdecode, hversion⟩ := parsed_of_read h
  have htidy := Json.tidy_of_parse? hparse
  exact ⟨hversion, (decode_eq_ok htidy hdecode).1, reload_of_decode htidy hdecode⟩

/-- Nothing but the stored entry is read back, whatever its head. -/
theorem eq_reload_of_read (hcount : IsCount e.history.commitCount)
    (hseqs : ∀ c p s, ∀ r ∈ e.history.records.list c p s, IsCount r.seq)
    (hfile : w.disk.read path = .ok (content e))
    (h : (read path e.schemaVersion w).1 = .ok (some e')) : e' = reload e := by
  obtain ⟨hsame, hstorable, -⟩ := storable_of_read h
  have hversion := hstorable.version
  rw [hsame] at hversion
  obtain ⟨c, v, hc, hparse, hdecode, -⟩ := parsed_of_read h
  rw [hfile, Except.ok.injEq] at hc
  rw [← hc, parse?_content hversion hcount hseqs, Option.some.injEq] at hparse
  -- The entry may have an empty head, but what was read has none, and it is the same one.
  obtain ⟨_, _, _, _, -, hhead, hne, -⟩ := decode_cases hdecode
  have hmember : v.member? "headCommitHash".toList = some (.string e.head) := by
    rw [← hparse]
    rfl
  rw [hmember, Option.some.injEq, Json.string.injEq] at hhead
  rw [← hhead] at hne
  have hread := read_of_stored ⟨hversion, hne, hcount, hseqs⟩ rfl hfile
  rw [h] at hread
  cases hread
  rfl

end Saved

/-! ## Round trips -/

/-- Nothing is recorded under the lost name. -/
def KeepsNames (t : Tree Record) : Prop :=
  ∀ c p s, t.list c p s ≠ [] → c ≠ lostName ∧ p ≠ lostName

theorem keepsNames_of_keys {t : Tree Record}
    (h : ∀ x ∈ t.entries, x.1 ≠ lostName ∧ ∀ y ∈ x.2.entries, y.1 ≠ lostName) : KeepsNames t := by
  intro c p s hne
  unfold Tree.list Tree.statuses? at hne
  cases hc : t.get? c with
  | none => simp [hc] at hne
  | some packages =>
    cases hp : packages.get? p with
    | none => simp [hc, hp] at hne
    | some statuses =>
      obtain ⟨hcategory, hpackages⟩ := h _ (OrderedMap.mem_entries_iff.mpr hc)
      exact ⟨hcategory, hpackages _ (OrderedMap.mem_entries_iff.mpr hp)⟩

/-- The same entry, with the same lists of records as they are stored. Lists, packages and categories
are there when there is a record in them. -/
structure IsReadBack (e e' : Entry) : Prop where
  schemaVersion : e'.schemaVersion = e.schemaVersion
  head : e'.head = e.head
  commitCount : e'.history.commitCount = e.history.commitCount
  lists : ∀ c p s,
    e'.history.records.list c p s = (e.history.records.list c p s).map Record.stored
  hasList : ∀ c p s, ((e'.history.records.statuses? c p).bind (·.get? s)).isSome ↔
    e.history.records.list c p s ≠ []
  hasPackage : ∀ c p, (e'.history.records.statuses? c p).isSome ↔
    ∃ s, e.history.records.list c p s ≠ []
  hasCategory : ∀ c, (e'.history.records.get? c).isSome ↔
    ∃ p s, e.history.records.list c p s ≠ []

theorem list_reload_of_keepsNames {e : Entry} (h : KeepsNames e.history.records) (c p : Text)
    (s : Status) : (reload e).history.records.list c p s =
      (e.history.records.list c p s).map Record.stored := by
  rw [list_reload]
  split
  · next hlost =>
    by_cases hnil : e.history.records.list c p s = []
    · rw [hnil]
      rfl
    · obtain ⟨hc, hp⟩ := h c p s hnil
      exact absurd hlost (not_or.mpr ⟨hc, hp⟩)
  · rfl

theorem isReadBack_reload {e : Entry} (h : KeepsNames e.history.records) :
    IsReadBack e (reload e) := by
  have hlists := list_reload_of_keepsNames h
  have hfull : (reload e).history.records.IsFull := isFull_treeOf _
  have hne (c p s) : (reload e).history.records.list c p s ≠ [] ↔
      e.history.records.list c p s ≠ [] := by
    rw [hlists, ne_eq, List.map_eq_nil_iff]
  refine ⟨rfl, rfl, rfl, hlists, fun c p s => ?_, fun c p => ?_, fun c => ?_⟩
  · rw [hfull.list_iff, hne]
  · simp only [hfull.package_iff, hne]
  · simp only [hfull.category_iff, hne]

/-- A save of an entry with nothing under the lost name fails as one, or the entry is read back with
its lists. What was read comes back as it is, wherever it is saved. -/
theorem save_then_read :
    (∀ (e : Entry) (path : Text) (w : World), Storable e → KeepsNames e.history.records →
      (∃ reason, (save path e w).1 = .error (.cachePersist path reason)) ∨
        (save path e w).1 = .ok () ∧ ∃ e',
          (read path e.schemaVersion (save path e w).2).1 = .ok (some e') ∧ IsReadBack e e') ∧
    ∀ (e : Entry) (path path' : Text) (expected : Number) (w w' : World),
      (read path expected w).1 = .ok (some e) →
        (∃ reason, (save path' e w').1 = .error (.cachePersist path' reason)) ∨
          (save path' e w').1 = .ok () ∧
            (read path' expected (save path' e w').2).1 = .ok (some e) := by
  constructor
  · intro e path w hstorable hnames
    refine (save_outcome path e w).imp_right fun hsave => ⟨hsave, reload e, ?_, ?_⟩
    · exact read_of_stored hstorable rfl (read_of_save hsave)
    · exact isReadBack_reload hnames
  · intro e path path' expected w w' hloaded
    obtain ⟨hversion, hstorable, hreload⟩ := storable_of_read hloaded
    refine (save_outcome path' e w').imp_right fun hsave => ⟨hsave, ?_⟩
    have hread := read_of_stored hstorable hversion (read_of_save hsave)
    rwa [hreload] at hread

/-- A record of a local commit, with the link of a rename. -/
def linkedRecord : Record where
  version := "1".toList
  date := "2024-01-01".toList
  seq := 0
  commit := .full ⟨"1a".toList, "2024-01-01".toList, "A <a>".toList, "C <c>".toList, ["m".toList]⟩
  extra := some [("oldAtom".toList, "dev-libs/a-1".toList)]

def linkedEntry : Entry :=
  ⟨1, "1a".toList, ⟨1, Tree.append .empty "dev-libs".toList "a".toList .renamed linkedRecord⟩⟩

def blankWorld : World where
  git := ⟨fun _ _ => .ok [], fun _ _ => ⟨[], none⟩, true⟩
  disk := Disk.empty []
  stamp := "1".toList

theorem list_linkedEntry (c p : Text) (s : Status) : linkedEntry.history.records.list c p s =
    if ("dev-libs".toList, "a".toList, Status.renamed) = (c, p, s) then [linkedRecord] else [] :=
  list_append .empty c p "dev-libs".toList "a".toList s .renamed linkedRecord

theorem save_then_read_linkedEntry :
    Storable linkedEntry ∧ KeepsNames linkedEntry.history.records ∧
      ∃ e, (read "/c".toList 1 (save "/c".toList linkedEntry blankWorld).2).1 = .ok (some e) ∧
        e.history.records.list "dev-libs".toList "a".toList .renamed = [linkedRecord.stored] ∧
        (read "/d".toList 1 (save "/d".toList e blankWorld).2).1 = .ok (some e) := by
  have hstorable : Storable linkedEntry := by
    refine ⟨⟨1, .of_lt (by decide), rfl⟩, by decide, ⟨1, .of_lt (by decide), rfl⟩, fun c p s r hr => ?_⟩
    rw [list_linkedEntry] at hr
    split at hr
    · rw [List.mem_singleton.mp hr]
      exact ⟨0, .of_lt (by decide), rfl⟩
    · cases hr
  have hnames : KeepsNames linkedEntry.history.records := keepsNames_of_keys (by decide +kernel)
  rcases save_then_read.1 linkedEntry "/c".toList blankWorld hstorable hnames with
    ⟨reason, hfailed⟩ | ⟨-, e, hread, hback⟩
  · cases hfailed
  rcases save_then_read.2 e "/c".toList "/d".toList 1 _ blankWorld hread with
    ⟨reason, hfailed⟩ | ⟨-, hagain⟩
  · cases hfailed
  refine ⟨hstorable, hnames, e, hread, ?_, hagain⟩
  rw [hback.lists, list_linkedEntry]
  rfl

end PackageHistory.Cache
