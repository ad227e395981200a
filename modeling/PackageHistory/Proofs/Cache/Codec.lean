import PackageHistory.Cache.Store
import PackageHistory.Proofs.Json.MemberOrder
import PackageHistory.Proofs.Json.RoundTrip
import PackageHistory.Proofs.Outcome
import PackageHistory.Proofs.Tree

/-!
# Stored histories

What is stored of a history comes back: every list with its order, of each record all but the whole
commit and the link of a rename. Only categories and packages of the lost name do not.
-/

namespace PackageHistory

/-- A record as it is stored. -/
def Record.stored (r : Record) : Record := { r with commit := .hash r.commit.hashOf, extra := none }

namespace Cache

/-! ## What can be stored -/

/-- A number that a cache may hold as a count. -/
def IsCount (n : Number) : Prop := ∃ k : Nat, Binary64.IsExact k ∧ n = .integer k

structure Storable (e : Entry) : Prop where
  version : ∃ n : Int, Binary64.IsExact n.natAbs ∧ e.schemaVersion = .integer n
  head : e.head ≠ []
  count : IsCount e.history.commitCount
  seqs : ∀ c p s, ∀ r ∈ e.history.records.list c p s, IsCount r.seq

theorem IsCount.plain {n : Number} (h : IsCount n) : Json.Plain (.number n) := by
  obtain ⟨k, hk, rfl⟩ := h
  exact .number hk

/-! ## Objects -/

section Objects

variable {α β : Type}

/-- The members of a map in the order they are stored in. -/
def kept (m : OrderedMap Text α) : List (Text × α) :=
  Json.memberOrder (m.entries.filter (·.1 ≠ lostName))

theorem kept_perm (m : OrderedMap Text α) : (kept m).Perm (m.entries.filter (·.1 ≠ lostName)) :=
  Json.memberOrder_perm _

theorem nodup_kept (m : OrderedMap Text α) : (Entries.keys (kept m)).Nodup :=
  ((kept_perm m).map Prod.fst).nodup_iff.mpr (m.nodup.sublist (List.filter_sublist.map _))

theorem mem_kept {m : OrderedMap Text α} {x : Text × α} :
    x ∈ kept m ↔ x ∈ m.entries ∧ x.1 ≠ lostName := by
  rw [(kept_perm m).mem_iff, List.mem_filter]
  simp

theorem lookup_kept (m : OrderedMap Text α) (k : Text) :
    Entries.lookup k (kept m) = if k = lostName then none else m.get? k := by
  apply Option.ext
  intro a
  rw [Entries.lookup_eq_some_iff (nodup_kept m), mem_kept, OrderedMap.mem_entries_iff]
  by_cases h : k = lostName <;> simp [h]

theorem encodeMembers_eq (f : α → Json) (m : OrderedMap Text α) :
    encodeMembers f m = .object ((kept m).map fun x => (x.1, f x.2)) := by
  rw [encodeMembers, Json.memberOrder_map]
  rfl

theorem plain_encodeMembers {f : α → Json} {m : OrderedMap Text α}
    (h : ∀ x ∈ m.entries, (f x.2).Plain) : (encodeMembers f m).Plain := by
  rw [encodeMembers_eq]
  refine .object ?_ ?_ ?_
  · rw [List.map_map]
    exact nodup_kept m
  · rw [Json.memberOrder_map, kept, Json.memberOrder_memberOrder]
  · intro x hx
    obtain ⟨y, hy, rfl⟩ := List.mem_map.mp hx
    exact h y (mem_kept.mp hy).1

theorem decodeMembers_encodeMembers {f : α → Json} {g : Json → Except Issue β} {r : α → β}
    {m : OrderedMap Text α} (h : ∀ x ∈ m.entries, g (f x.2) = .ok (r x.2)) :
    decodeMembers g (encodeMembers f m) = .ok ((kept m).map fun x => (x.1, r x.2)) := by
  rw [encodeMembers_eq]
  apply mapM_map
  intro x hx
  show (g (f x.2)).map _ = _
  rw [h x (mem_kept.mp hx).1]
  rfl

end Objects

/-! ## Records and statuses -/

theorem plain_encodeRecord {r : Record} (h : IsCount r.seq) : (encodeRecord r).Plain := by
  refine .array fun v hv => ?_
  simp only [List.mem_cons, List.not_mem_nil, or_false] at hv
  rcases hv with rfl | rfl | rfl | rfl
  · exact .string _
  · exact .string _
  · exact .string _
  · exact h.plain

theorem decodeCount_natCast (k : Nat) : decodeCount (.number (.integer k)) = .ok (k : Int) := by
  show (if (k : Int) < 0 then Except.error Issue.negative else .ok (k : Int)) = _
  rw [if_neg (by omega)]

theorem decodeRecord_encodeRecord {r : Record} (h : IsCount r.seq) :
    decodeRecord (encodeRecord r) = .ok r.stored := by
  obtain ⟨version, date, seq, commit, extra⟩ := r
  obtain ⟨k, -, hk⟩ := h
  dsimp only at hk
  subst hk
  simp only [encodeRecord, decodeRecord, decodeText, decodeCount_natCast]
  rfl

/-- The lists of a package as they are read back. -/
def storedLists (statuses : OrderedMap Status (List Record)) : List (Status × List Record) :=
  storedStatuses.map fun s => (s, ((statuses.get? s).getD []).map Record.stored)

theorem lookup_statuses {β : Type} (f : List Record → β)
    (entries : List (Status × List Record)) (s : Status) :
    Entries.lookup s.text (entries.map fun e => (e.1.text, f e.2)) =
      (Entries.lookup s entries).map f := by
  induction entries with
  | nil => rfl
  | cons e rest ih =>
    by_cases h : e.1 = s
    · simp [Entries.lookup, h]
    · have htext : ¬ e.1.text = s.text := fun ht => h (Status.text_injective ht)
      simp [Entries.lookup, h, htext, ih]

theorem plain_encodeStatuses {statuses : OrderedMap Status (List Record)}
    (h : ∀ x ∈ statuses.entries, ∀ r ∈ x.2, IsCount r.seq) : (encodeStatuses statuses).Plain := by
  refine .object ?_ ?_ ?_
  · rw [List.map_map]
    exact (List.pairwise_map.mp statuses.nodup).map _ fun a b hab htext =>
      hab (Status.text_injective htext)
  · apply Json.memberOrder_of_names
    intro m hm
    obtain ⟨x, -, rfl⟩ := List.mem_map.mp hm
    cases x.1 <;> rfl
  · intro m hm
    obtain ⟨x, hx, rfl⟩ := List.mem_map.mp hm
    refine .array fun v hv => ?_
    obtain ⟨r, hr, rfl⟩ := List.mem_map.mp hv
    exact plain_encodeRecord (h x hx r hr)

def decodeStored (members : List (Text × Json)) (s : Status) : Except Issue (Status × List Record) :=
  match Entries.lookup s.text members with
  | none => .ok (s, [])
  | some list => (decodeList decodeRecord list).map fun records => (s, records)

theorem decodeStatuses_object (members : List (Text × Json)) :
    decodeStatuses (.object members) = (storedStatuses.mapM (decodeStored members) >>= fun lists =>
      let unknown := (members.map Prod.fst).filter fun name => (Status.ofText? name).isNone
      if unknown.isEmpty then .ok lists else .error (.unknownMembers unknown)) := rfl

theorem decodeStored_encoded {statuses : OrderedMap Status (List Record)}
    (h : ∀ x ∈ statuses.entries, ∀ r ∈ x.2, IsCount r.seq) (s : Status) :
    decodeStored (statuses.entries.map fun e => (e.1.text, Json.array (e.2.map encodeRecord))) s =
      .ok (s, ((statuses.get? s).getD []).map Record.stored) := by
  unfold decodeStored
  rw [lookup_statuses fun l => Json.array (l.map encodeRecord)]
  cases hs : Entries.lookup s statuses.entries with
  | none => simp [OrderedMap.get?, hs]
  | some l =>
    have hmem := (Entries.lookup_eq_some_iff statuses.nodup).mp hs
    have hl : decodeList decodeRecord (.array (l.map encodeRecord)) = .ok (l.map Record.stored) :=
      mapM_map fun r hr => decodeRecord_encodeRecord (h _ hmem r hr)
    simp only [Option.map_some, hl, OrderedMap.get?, hs, Option.getD_some]
    rfl

theorem decodeStatuses_encodeStatuses {statuses : OrderedMap Status (List Record)}
    (h : ∀ x ∈ statuses.entries, ∀ r ∈ x.2, IsCount r.seq) :
    decodeStatuses (encodeStatuses statuses) = .ok (storedLists statuses) := by
  have hlists := mapM_map (e := id) fun s (_ : s ∈ storedStatuses) => decodeStored_encoded h s
  have hunknown : ((statuses.entries.map fun e =>
      (e.1.text, Json.array (e.2.map encodeRecord))).map Prod.fst).filter (fun name =>
        (Status.ofText? name).isNone) = [] := by
    rw [List.filter_eq_nil_iff]
    intro name hname
    simp only [List.map_map, List.mem_map] at hname
    obtain ⟨x, -, rfl⟩ := hname
    have hof : Status.ofText? x.1.text = some x.1 := Status.ofText?_eq_some_iff.mpr rfl
    simp [hof]
  rw [List.map_id] at hlists
  rw [encodeStatuses, decodeStatuses_object, hlists, hunknown]
  rfl

/-! ## Trees -/

def storedPackages (packages : OrderedMap Text (OrderedMap Status (List Record))) :
    List (Text × List (Status × List Record)) :=
  (kept packages).map fun p => (p.1, storedLists p.2)

def storedTree (t : Tree Record) : List (Text × List (Text × List (Status × List Record))) :=
  (kept t).map fun c => (c.1, storedPackages c.2)

section Trees

variable {t : Tree Record}
  (h : ∀ c p s, ∀ r ∈ t.list c p s, IsCount r.seq)

include h

theorem isCount_of_mem {c : Text × OrderedMap Text (OrderedMap Status (List Record))}
    (hc : c ∈ t.entries) {p : Text × OrderedMap Status (List Record)} (hp : p ∈ c.2.entries) :
    ∀ x ∈ p.2.entries, ∀ r ∈ x.2, IsCount r.seq := by
  intro x hx r hr
  exact h c.1 p.1 x.1 r (by rw [Tree.list_of_mem hc hp hx]; exact hr)

theorem plain_encodeTree : (encodeTree t).Plain :=
  plain_encodeMembers fun _ hc => plain_encodeMembers fun _ hp =>
    plain_encodeStatuses (isCount_of_mem h hc hp)

theorem decode_encodeTree :
    decodeMembers (decodeMembers decodeStatuses) (encodeTree t) = .ok (storedTree t) :=
  decodeMembers_encodeMembers (r := storedPackages)
    fun _ hc => decodeMembers_encodeMembers fun _ hp =>
      decodeStatuses_encodeStatuses (isCount_of_mem h hc hp)

end Trees

/-- What a fold that puts lists behind the one at a place puts there in all. -/
theorem list_foldl {α : Type} {f : Tree Record → α → Tree Record} {g : α → List Record} {c p : Text}
    {s : Status} (h : ∀ t x, (f t x).list c p s = t.list c p s ++ g x) (xs : List α)
    (t : Tree Record) : (xs.foldl f t).list c p s = t.list c p s ++ xs.flatMap g := by
  induction xs generalizing t with
  | nil => simp
  | cons x xs ih => rw [List.foldl_cons, ih, h, List.flatMap_cons, List.append_assoc]

theorem list_append (t : Tree Record) (c p c' p' : Text) (s s' : Status) (r : Record) :
    (t.append c' p' s' r).list c p s =
      t.list c p s ++ if (c', p', s') = (c, p, s) then [r] else [] := by
  rw [Tree.append, Tree.list_alter]
  split <;> simp

theorem list_appendRecords (t : Tree Record) (c p c' p' : Text) (s s' : Status)
    (records : List Record) :
    (records.foldl (fun t r => t.append c' p' s' r) t).list c p s =
      t.list c p s ++ if (c', p', s') = (c, p, s) then records else [] := by
  rw [list_foldl fun t r => list_append t c p c' p' s s' r]
  by_cases h : (c', p', s') = (c, p, s) <;> simp [h]

/-- What the lists of a package hold for a status. -/
def statusesAt (s : Status) (lists : List (Status × List Record)) : List Record :=
  lists.flatMap fun z => if z.1 = s then z.2 else []

/-- What the packages of a category hold for a package and a status. -/
def packagesAt (p : Text) (s : Status) (packages : List (Text × List (Status × List Record))) :
    List Record :=
  packages.flatMap fun y => if y.1 = p then (if p = lostName then [] else statusesAt s y.2) else []

theorem list_appendStatuses (t : Tree Record) (c p c' p' : Text) (s : Status)
    (statuses : List (Status × List Record)) :
    (statuses.foldl (fun t (status, records) =>
        records.foldl (fun t r => t.append c' p' status r) t) t).list c p s =
      t.list c p s ++ if (c', p') = (c, p) then statusesAt s statuses else [] := by
  rw [list_foldl fun t (z : Status × List Record) => list_appendRecords t c p c' p' s z.1 z.2]
  by_cases h : (c', p') = (c, p)
  · obtain ⟨rfl, rfl⟩ := Prod.mk.inj h
    simp [statusesAt]
  · have hne (s' : Status) : (c', p', s') ≠ (c, p, s) := by
      intro e
      obtain ⟨rfl, he⟩ := Prod.mk.inj e
      obtain ⟨rfl, -⟩ := Prod.mk.inj he
      exact h rfl
    rw [if_neg h]
    simp [hne]

theorem list_appendPackages (t : Tree Record) (c p c' : Text) (s : Status)
    (packages : List (Text × List (Status × List Record))) :
    (packages.foldl (fun t (package, statuses) =>
        if package = lostName then t
        else statuses.foldl (fun t (status, records) =>
          records.foldl (fun t r => t.append c' package status r) t) t) t).list c p s =
      t.list c p s ++ if c' = c then packagesAt p s packages else [] := by
  have hstep (t : Tree Record) (y : Text × List (Status × List Record)) :
      (if y.1 = lostName then t
        else y.2.foldl (fun t (status, records) =>
          records.foldl (fun t r => t.append c' y.1 status r) t) t).list c p s =
        t.list c p s ++ if c' = c then
          (if y.1 = p then (if p = lostName then [] else statusesAt s y.2) else []) else [] := by
    by_cases hlost : y.1 = lostName
    · rw [if_pos hlost]
      by_cases hp : y.1 = p
      · have hp' : p = lostName := hp.symm.trans hlost
        simp [hp']
      · simp [hp]
    · rw [if_neg hlost, list_appendStatuses]
      by_cases hc : c' = c
      · by_cases hp : y.1 = p
        · have hp' : p ≠ lostName := fun e => hlost (hp.trans e)
          simp [hc, hp, hp']
        · simp [hp]
      · simp [hc]
  rw [list_foldl hstep]
  by_cases hc : c' = c <;> simp [hc, packagesAt]

theorem list_treeOf (stored : List (Text × List (Text × List (Status × List Record)))) (c p : Text)
    (s : Status) :
    (treeOf stored).list c p s =
      stored.flatMap fun x =>
        if x.1 = c then (if c = lostName then [] else packagesAt p s x.2) else [] := by
  have hstep (t : Tree Record) (x : Text × List (Text × List (Status × List Record))) :
      (if x.1 = lostName then t
        else x.2.foldl (fun t (package, statuses) =>
          if package = lostName then t
          else statuses.foldl (fun t (status, records) =>
            records.foldl (fun t r => t.append x.1 package status r) t) t) t).list c p s =
        t.list c p s ++
          if x.1 = c then (if c = lostName then [] else packagesAt p s x.2) else [] := by
    by_cases hlost : x.1 = lostName
    · rw [if_pos hlost]
      by_cases hc : x.1 = c
      · have hc' : c = lostName := hc.symm.trans hlost
        simp [hc']
      · simp [hc]
    · rw [if_neg hlost, list_appendPackages]
      by_cases hc : x.1 = c
      · have hc' : c ≠ lostName := fun e => hlost (hc.trans e)
        simp [hc, hc']
      · simp [hc]
  exact (list_foldl hstep stored .empty).trans (List.nil_append _)

theorem statusesAt_storedLists (statuses : OrderedMap Status (List Record)) (s : Status) :
    statusesAt s (storedLists statuses) = ((statuses.get? s).getD []).map Record.stored := by
  cases s <;> simp [statusesAt, storedLists, storedStatuses]

theorem nodup_map_kept {α β : Type} (f : α → β) (m : OrderedMap Text α) :
    (Entries.keys ((kept m).map fun x => (x.1, f x.2))).Nodup := by
  rw [Entries.keys, List.map_map]
  exact nodup_kept m

/-- What the kept members of a map give for one key, which is not the lost name. -/
theorem flatMap_kept {α β : Type} (m : OrderedMap Text α) (f : α → β) (g : β → List Record)
    (k : Text) :
    (((kept m).map fun x => (x.1, f x.2)).flatMap fun x =>
        if x.1 = k then (if k = lostName then [] else g x.2) else []) =
      if k = lostName then [] else ((m.get? k).map fun a => g (f a)).getD [] := by
  rw [Entries.flatMap_lookup k (fun b => if k = lostName then [] else g b) (nodup_map_kept f m),
    Entries.lookup_map, lookup_kept]
  by_cases h : k = lostName <;> simp [h, Function.comp_def]

theorem list_storedTree (t : Tree Record) (c p : Text) (s : Status) :
    (treeOf (storedTree t)).list c p s =
      if c = lostName ∨ p = lostName then [] else (t.list c p s).map Record.stored := by
  rw [list_treeOf, storedTree, flatMap_kept t storedPackages (packagesAt p s) c]
  by_cases hc : c = lostName
  · simp [hc]
  simp only [hc, if_false, false_or]
  cases hpackages : t.get? c with
  | none => simp [Tree.list, Tree.statuses?, hpackages]
  | some packages =>
    simp only [Option.map_some, Option.getD_some]
    rw [packagesAt, storedPackages, flatMap_kept packages storedLists (statusesAt s) p]
    by_cases hp : p = lostName
    · simp [hp]
    simp only [hp, if_false]
    cases hstatuses : packages.get? p with
    | none => simp [Tree.list, Tree.statuses?, hpackages, hstatuses]
    | some statuses =>
      simp only [Option.map_some, Option.getD_some, statusesAt_storedLists]
      rw [Tree.list_of_statuses? (m := statuses) (by simp [Tree.statuses?, hpackages, hstatuses])]

/-! ## Entries -/

/-- The entry that a stored one is read as. -/
def reload (e : Entry) : Entry :=
  { e with history := ⟨e.history.commitCount, treeOf (storedTree e.history.records)⟩ }

theorem list_reload (e : Entry) (c p : Text) (s : Status) :
    (reload e).history.records.list c p s = if c = lostName ∨ p = lostName then []
      else (e.history.records.list c p s).map Record.stored :=
  list_storedTree _ c p s

theorem parse?_content {e : Entry}
    (hversion : ∃ n : Int, Binary64.IsExact n.natAbs ∧ e.schemaVersion = .integer n)
    (hcount : IsCount e.history.commitCount)
    (hseqs : ∀ c p s, ∀ r ∈ e.history.records.list c p s, IsCount r.seq) :
    Json.parse? (content e) = some (encode e) := by
  obtain ⟨n, hn, hversion⟩ := hversion
  apply Json.parse?_compact
  refine .object ?_ (Json.memberOrder_of_names ?_) ?_
  · show ["schemaVersion".toList, "headCommitHash".toList, "commitCount".toList, "data".toList].Nodup
    decide
  · simp only [List.mem_cons, List.not_mem_nil, or_false]
    rintro m (rfl | rfl | rfl | rfl) <;> rfl
  · simp only [List.mem_cons, List.not_mem_nil, or_false]
    rintro m (rfl | rfl | rfl | rfl)
    · show Json.Plain (.number e.schemaVersion)
      rw [hversion]
      exact .number hn
    · exact .string _
    · exact hcount.plain
    · exact plain_encodeTree hseqs

theorem decode_encode {e : Entry} (h : Storable e) : decode (encode e) = .ok (reload e) := by
  obtain ⟨version, head, count, records⟩ := e
  obtain ⟨⟨n, hn, hversion⟩, hhead, ⟨k, hk, hcount⟩, hseqs⟩ := h
  dsimp only at hversion hhead hcount hseqs
  subst hversion hcount
  have hfilled : decodeFilledText (.string head) = .ok head := by
    cases head with
    | nil => exact absurd rfl hhead
    | cons c cs => rfl
  have htree := decode_encodeTree hseqs
  show (do
    let schemaVersion ← decodeInt (.number (.integer n))
    let head ← decodeFilledText (.string head)
    let commitCount ← decodeCount (.number (.integer k))
    let stored ← decodeMembers (decodeMembers decodeStatuses) (encodeTree records)
    return (⟨.integer schemaVersion, head, ⟨.integer commitCount, treeOf stored⟩⟩ : Entry)) = _
  rw [hfilled, decodeCount_natCast, htree]
  rfl

theorem ofContent_content {e : Entry} (h : Storable e) (path : Text) :
    ofContent path e.schemaVersion (content e) = .ok (reload e) := by
  have hparse := parse?_content h.version h.count h.seqs
  have hdecode := decode_encode h
  unfold ofContent
  rw [hparse]
  have hfound : Entries.lookup "schemaVersion".toList
      [("schemaVersion".toList, Json.number e.schemaVersion),
        ("headCommitHash".toList, .string e.head),
        ("commitCount".toList, .number e.history.commitCount),
        ("data".toList, encodeTree e.history.records)] = some (.number e.schemaVersion) := rfl
  rw [encode] at hdecode ⊢
  dsimp only
  rw [hfound]
  dsimp only
  rw [if_pos rfl, hdecode]

end Cache

end PackageHistory
