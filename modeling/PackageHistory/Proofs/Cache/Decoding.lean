import PackageHistory.Proofs.Cache.StoredTree
import PackageHistory.Proofs.Outcome

/-!
# Caches that were read

What a cache that was read holds can be stored, and comes back as it is.
-/

namespace PackageHistory.Cache

/-! ## Leaves -/

variable {v : Json}

theorem decodeInt_eq_ok {n : Int} (h : decodeInt v = .ok n) : v = .number (.integer n) := by
  unfold decodeInt at h
  split at h
  · cases h
    rfl
  · cases h
  · cases h

theorem decodeCount_eq_ok {n : Int} (h : decodeCount v = .ok n) :
    v = .number (.integer n) ∧ 0 ≤ n := by
  obtain ⟨m, hint, h⟩ := bind_eq_ok h
  split at h
  · cases h
  · next hpos =>
    cases h
    exact ⟨decodeInt_eq_ok hint, by omega⟩

theorem isCount_of_nonneg {n : Int} (hpos : 0 ≤ n) (h : (Json.number (.integer n)).Tidy) :
    IsCount (.integer n) := by
  refine ⟨n.natAbs, h.holdsExact n rfl, ?_⟩
  rw [Int.natAbs_of_nonneg hpos]

theorem isCount_of_decodeCount {n : Int} (htidy : v.Tidy) (h : decodeCount v = .ok n) :
    IsCount (.integer n) := by
  obtain ⟨rfl, hpos⟩ := decodeCount_eq_ok h
  exact isCount_of_nonneg hpos htidy

theorem decodeText_eq_ok {s : Text} (h : decodeText v = .ok s) : v = .string s := by
  unfold decodeText at h
  split at h
  · cases h
    rfl
  · cases h

theorem decodeFilledText_eq_ok {s : Text} (h : decodeFilledText v = .ok s) :
    v = .string s ∧ s ≠ [] := by
  obtain ⟨s', htext, h⟩ := bind_eq_ok h
  split at h
  · cases h
  · next hne =>
    cases h
    exact ⟨decodeText_eq_ok htext, by simpa using hne⟩

theorem stored_of_decodeRecord {r : Record} (htidy : v.Tidy) (h : decodeRecord v = .ok r) :
    IsCount r.seq ∧ r.stored = r := by
  unfold decodeRecord at h
  split at h
  · next version date hash seq =>
    obtain ⟨version', -, h⟩ := bind_eq_ok h
    obtain ⟨date', -, h⟩ := bind_eq_ok h
    obtain ⟨hash', -, h⟩ := bind_eq_ok h
    obtain ⟨n, hn, h⟩ := bind_eq_ok h
    cases h
    have hseq : seq.Tidy := htidy.elements seq (by simp)
    exact ⟨isCount_of_decodeCount hseq hn, rfl⟩
  · cases h
  · cases h

theorem stored_of_decodeList {records : List Record} (htidy : v.Tidy)
    (h : decodeList decodeRecord v = .ok records) : ∀ r ∈ records, IsCount r.seq ∧ r.stored = r := by
  unfold decodeList at h
  split at h
  · intro r hr
    obtain ⟨element, hmem, hread⟩ := exists_of_forall₂ (forall₂_of_mapM h) r hr
    exact stored_of_decodeRecord (htidy.elements element hmem) hread
  · cases h

/-! ## Objects -/

theorem decodeMembers_eq_ok {α : Type} {f : Json → Except Issue α} {xs : List (Text × α)}
    (h : decodeMembers f v = .ok xs) : ∃ members, v = .object members ∧
      Entries.keys xs = Entries.keys members ∧ ∀ x ∈ xs, ∃ m ∈ members, f m.2 = .ok x.2 := by
  unfold decodeMembers at h
  split at h
  · next members =>
    have hall := forall₂_of_mapM h
    refine ⟨members, rfl, map_eq_of_forall₂ hall fun m x hx => ?_, fun x hx => ?_⟩
    · obtain ⟨a, -, rfl⟩ := map_eq_ok hx
      rfl
    · obtain ⟨m, hm, hread⟩ := exists_of_forall₂ hall x hx
      obtain ⟨a, ha, rfl⟩ := map_eq_ok hread
      exact ⟨m, hm, ha⟩
  · cases h

theorem decodeStored_eq_ok {members : List (Text × Json)} {s : Status} {z : Status × List Record}
    (horder : Json.InOrder members) (htidy : ∀ m ∈ members, m.2.Tidy)
    (h : decodeStored members s = .ok z) :
    z.1 = s ∧ ∀ r ∈ z.2, IsCount r.seq ∧ r.stored = r := by
  unfold decodeStored at h
  split at h
  · cases h
    exact ⟨rfl, nofun⟩
  · next list hlist =>
    obtain ⟨records, hread, rfl⟩ := map_eq_ok h
    have hmem := (Entries.lookup_eq_some_iff horder.nodup).mp hlist
    exact ⟨rfl, stored_of_decodeList (htidy _ hmem) hread⟩

theorem decodeStatuses_eq_ok {lists : List (Status × List Record)} (htidy : v.Tidy)
    (h : decodeStatuses v = .ok lists) : Entries.keys lists = storedStatuses ∧
      ∀ z ∈ lists, ∀ r ∈ z.2, IsCount r.seq ∧ r.stored = r := by
  cases v with
  | object members =>
    obtain ⟨horder, htidy⟩ := htidy.members
    rw [decodeStatuses_object] at h
    obtain ⟨read, hread, h⟩ := bind_eq_ok h
    have hall := forall₂_of_mapM hread
    dsimp only at h
    split at h
    · cases h
      refine ⟨?_, fun z hz => ?_⟩
      · have hkeys := map_eq_of_forall₂ (g := id) hall fun s z hz =>
          (decodeStored_eq_ok horder htidy hz).1
        rwa [List.map_id] at hkeys
      · obtain ⟨s, -, hs⟩ := exists_of_forall₂ hall z hz
        exact (decodeStored_eq_ok horder htidy hs).2
    · cases h
  | _ => cases h

/-! ## Entries -/

theorem exists_mem_of_list_treeOf
    {stored : List (Text × List (Text × List (Status × List Record)))} {c p : Text} {s : Status}
    {r : Record} (h : r ∈ (treeOf stored).list c p s) :
    ∃ x ∈ stored, ∃ y ∈ x.2, ∃ z ∈ y.2, r ∈ z.2 := by
  have hif {α : Type} {P : Prop} [Decidable P] {l : List α} {a : α} (h : a ∈ if P then l else []) :
      a ∈ l := by
    split at h
    · exact h
    · cases h
  have hif' {α : Type} {P : Prop} [Decidable P] {l : List α} {a : α} (h : a ∈ if P then [] else l) :
      a ∈ l := by
    split at h
    · cases h
    · exact h
  rw [list_treeOf] at h
  obtain ⟨x, hx, h⟩ := List.mem_flatMap.mp h
  obtain ⟨y, hy, h⟩ := List.mem_flatMap.mp (hif' (hif h))
  obtain ⟨z, hz, h⟩ := List.mem_flatMap.mp (hif' (hif h))
  exact ⟨x, hx, y, hy, z, hz, hif h⟩

theorem isRead_of_decode {stored : List (Text × List (Text × List (Status × List Record)))}
    (htidy : v.Tidy) (h : decodeMembers (decodeMembers decodeStatuses) v = .ok stored) :
    IsRead stored := by
  obtain ⟨members, rfl, hkeys, hmembers⟩ := decodeMembers_eq_ok h
  obtain ⟨horder, htidy⟩ := htidy.members
  have hinner : ∀ x ∈ stored, Json.InOrder x.2 ∧ ∀ y ∈ x.2, Entries.keys y.2 = storedStatuses ∧
      ∀ z ∈ y.2, ∀ r ∈ z.2, IsCount r.seq ∧ r.stored = r := by
    intro x hx
    obtain ⟨m, hm, hread⟩ := hmembers x hx
    obtain ⟨members', hobject, hkeys', hmembers'⟩ := decodeMembers_eq_ok hread
    have htidy' := htidy m hm
    rw [hobject] at htidy'
    obtain ⟨horder', htidy'⟩ := htidy'.members
    refine ⟨horder'.of_keys hkeys', fun y hy => ?_⟩
    obtain ⟨m', hm', hread'⟩ := hmembers' y hy
    exact decodeStatuses_eq_ok (htidy' m' hm') hread'
  exact ⟨horder.of_keys hkeys, fun x hx => (hinner x hx).1, fun x hx y hy => ((hinner x hx).2 y hy).1,
    fun x hx y hy => ((hinner x hx).2 y hy).2⟩

theorem present_eq_ok {o : Option Json} {w : Json} (h : present o = .ok w) : o = some w := by
  cases o with
  | none => cases h
  | some w' =>
    cases h
    rfl

theorem tidy_member {name : Text} {w : Json} (htidy : v.Tidy) (h : v.member? name = some w) :
    w.Tidy := by
  cases v with
  | object members =>
    obtain ⟨horder, htidy⟩ := htidy.members
    exact htidy _ ((Entries.lookup_eq_some_iff horder.nodup).mp h)
  | _ => cases h

theorem decode_cases {e : Entry} (h : decode v = .ok e) :
    ∃ n k data stored,
      v.member? "schemaVersion".toList = some (.number (.integer n)) ∧
      v.member? "headCommitHash".toList = some (.string e.head) ∧ e.head ≠ [] ∧
      v.member? "commitCount".toList = some (.number (.integer k)) ∧ 0 ≤ k ∧
      v.member? "data".toList = some data ∧
      decodeMembers (decodeMembers decodeStatuses) data = .ok stored ∧
      e = ⟨.integer n, e.head, ⟨.integer k, treeOf stored⟩⟩ := by
  obtain ⟨version, hversion, h⟩ := bind_eq_ok h
  obtain ⟨n, hn, h⟩ := bind_eq_ok h
  obtain ⟨text, htext, h⟩ := bind_eq_ok h
  obtain ⟨head, hhead, h⟩ := bind_eq_ok h
  obtain ⟨count, hcount, h⟩ := bind_eq_ok h
  obtain ⟨k, hk, h⟩ := bind_eq_ok h
  obtain ⟨data, hdata, h⟩ := bind_eq_ok h
  obtain ⟨stored, hstored, h⟩ := bind_eq_ok h
  cases h
  obtain rfl := decodeInt_eq_ok hn
  obtain ⟨rfl, hne⟩ := decodeFilledText_eq_ok hhead
  obtain ⟨rfl, hpos⟩ := decodeCount_eq_ok hk
  exact ⟨n, k, data, stored, present_eq_ok hversion, present_eq_ok htext, hne, present_eq_ok hcount,
    hpos, present_eq_ok hdata, hstored, rfl⟩

/-- An entry that was read can be stored, and its tree was put together of lists that were read. -/
theorem decode_eq_ok {e : Entry} (htidy : v.Tidy) (h : decode v = .ok e) :
    Storable e ∧ ∃ stored, IsRead stored ∧ e.history.records = treeOf stored := by
  obtain ⟨n, k, data, stored, hversion, -, hne, hcount, hpos, hdata, hstored, he⟩ := decode_cases h
  have hread := isRead_of_decode (tidy_member htidy hdata) hstored
  have hrecords : e.history.records = treeOf stored := by rw [he]
  refine ⟨⟨⟨n, (tidy_member htidy hversion).holdsExact n rfl, by rw [he]⟩, hne, ?_,
    fun c p s r hr => ?_⟩, stored, hread, hrecords⟩
  · rw [he]
    exact isCount_of_nonneg hpos (tidy_member htidy hcount)
  · rw [hrecords] at hr
    obtain ⟨x, hx, y, hy, z, hz, hmem⟩ := exists_mem_of_list_treeOf hr
    exact (hread.records x hx y hy z hz r hmem).1

theorem reload_of_decode {e : Entry} (htidy : v.Tidy) (h : decode v = .ok e) : reload e = e := by
  obtain ⟨-, stored, hread, hrecords⟩ := decode_eq_ok htidy h
  obtain ⟨version, head, count, records⟩ := e
  dsimp only at hrecords
  subst hrecords
  rw [reload]
  dsimp only
  rw [treeOf_storedTree hread]

/-! ## Contents -/

/-- A content that is read is an entry of the schema version that was asked for. -/
theorem ofContent_eq_ok {path c : Text} {expected : Number} {e : Entry}
    (h : ofContent path expected c = .ok e) : ∃ v, Json.parse? c = some v ∧ decode v = .ok e ∧
      e.schemaVersion = expected := by
  unfold ofContent at h
  split at h
  · cases h
  · next members hparse =>
    dsimp only at h
    split at h
    · next n hfound =>
      split at h
      · next hn =>
        split at h
        · next hdecode =>
          cases h
          refine ⟨_, hparse, hdecode, ?_⟩
          -- The version that was compared is the one that the entry is given.
          obtain ⟨m, k, data, stored, hversion, -, -, -, -, -, -, he⟩ := decode_cases hdecode
          rw [Json.member?, hfound] at hversion
          cases hversion
          rw [he, ← hn]
        · cases h
      · cases h
    · cases h
  · cases h

end PackageHistory.Cache
