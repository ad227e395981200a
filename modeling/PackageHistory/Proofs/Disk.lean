import PackageHistory.Disk
import PackageHistory.Proofs.OrderedMap

/-!
# What edits do to files

Every edit says of each file of the tree whether it stays, also where it fails and only part of it is done.
Folders are of no account here.
-/

namespace PackageHistory

/-- What a file holds, and whether it is locked. -/
def Node.file? : Node → Option (Text × Bool)
  | .file content locked => some (content, locked)
  | .folder _ => none

namespace Disk

variable {d d' : Disk} {path src dst content : Text} {p q : Path}

def fileAt (d : Disk) (p : Path) : Option (Text × Bool) := (d.get? p).bind Node.file?

theorem fileAt_eq_some_iff {locked : Bool} :
    d.fileAt p = some (content, locked) ↔ d.get? p = some (.file content locked) := by
  rw [fileAt]
  cases d.get? p with
  | none => simp
  | some n => cases n <;> simp [Node.file?]

/-! ## Single nodes -/

theorem get?_set (d : Disk) (n : Node) : (d.set p n).get? q = if q = p then some n else d.get? q :=
  OrderedMap.get?_insert d.nodes q p n

theorem get?_leaveOut (d : Disk) (gone : Path → Bool) :
    (d.leaveOut gone).get? q = if gone q then none else d.get? q := by
  show (d.nodes.filter fun r _ => !gone r).get? q = _
  rw [OrderedMap.get?_filter]
  cases gone q <;> rfl

theorem get?_erase (d : Disk) : (d.erase p).get? q = if q = p then none else d.get? q := by
  rw [erase, get?_leaveOut]
  by_cases h : q = p <;> simp [h]

theorem get?_without : (d.without p).get? q = if p.isPrefixOf q then none else d.get? q :=
  get?_leaveOut d p.isPrefixOf

theorem fileAt_set_file (d : Disk) (locked : Bool) :
    (d.set p (.file content locked)).fileAt q =
      if q = p then some (content, locked) else d.fileAt q := by
  simp only [fileAt, get?_set]
  split <;> rfl

theorem fileAt_leaveOut (d : Disk) (gone : Path → Bool) :
    (d.leaveOut gone).fileAt q = if gone q then none else d.fileAt q := by
  simp only [fileAt, get?_leaveOut]
  split <;> rfl

theorem fileAt_erase (d : Disk) : (d.erase p).fileAt q = if q = p then none else d.fileAt q := by
  rw [erase, fileAt_leaveOut]
  by_cases h : q = p <;> simp [h]

/-! ## Ways to a path -/

theorem ne_of_mem_ancestors (h : q ∈ ancestors p) : q ≠ p := by
  obtain ⟨i, hi, rfl⟩ := List.mem_map.mp h
  rw [List.mem_range] at hi
  intro e
  have hlen := congrArg List.length e
  rw [List.length_take] at hlen
  omega

theorem prefix_of_mem_ancestors (h : q ∈ ancestors p) : q <+: p := by
  obtain ⟨i, -, rfl⟩ := List.mem_map.mp h
  exact List.take_prefix i p

theorem blocked?_eq_none_iff :
    d.blocked? p = none ↔ ∀ q ∈ ancestors p, ∃ rights, d.get? q = some (.folder rights) := by
  rw [blocked?, List.findSome?_eq_none_iff]
  refine forall₂_congr fun q _ => ?_
  cases d.get? q with
  | none => simp
  | some n => cases n <;> simp

theorem blocked?_congr (h : ∀ q ∈ ancestors p, d'.get? q = d.get? q) : d'.blocked? p = d.blocked? p := by
  have hid (f : Path → Option Code) : (ancestors p).findSome? f = ((ancestors p).map f).findSome? id := by
    rw [List.findSome?_map, Function.id_comp]
  rw [blocked?, blocked?, hid, hid, List.map_congr_left fun q hq => by rw [h q hq]]

theorem blocked?_of_get?_eq (h : d.blocked? p = none)
    (hq : ∀ q ∈ ancestors p, ∀ rights, d.get? q = some (.folder rights) → d'.get? q = d.get? q) :
    d'.blocked? p = none := by
  rw [blocked?_eq_none_iff] at h ⊢
  intro q hmem
  obtain ⟨rights, hr⟩ := h q hmem
  exact ⟨rights, by rw [hq q hmem rights hr, hr]⟩

/-! ## Reading -/

theorem read_eq_ok_iff :
    d.read path = .ok content ↔
      d.blocked? (d.resolve path) = none ∧ d.fileAt (d.resolve path) = some (content, false) := by
  rw [fileAt_eq_some_iff]
  simp only [read]
  split
  · next h => simp [h]
  · next h =>
    simp only [h, true_and]
    split
    · next hn => simp [hn]
    · next hn => simp [hn]
    · next hn => simp [hn]
    · next hn => simp [hn]

/-! ## Folders -/

theorem fileAt_makeFolder {whole : Path} (h : makeFolder whole path d p = .ok d') :
    d'.cwd = d.cwd ∧ ∀ q, d'.fileAt q = d.fileAt q := by
  unfold makeFolder at h
  split at h
  · cases h
    exact ⟨rfl, fun _ => rfl⟩
  · cases h
  · next hnone =>
    split at h
    · cases h
      refine ⟨rfl, fun q => ?_⟩
      simp only [fileAt, get?_set]
      split
      · next hq => rw [hq, hnone]; rfl
      · rfl
    · cases h

/-- What making one folder keeps is kept on a whole way. -/
theorem makeFirst_induct {R : Disk → Disk → Prop} {count : Nat} (refl : ∀ d, R d d)
    (trans : ∀ {a b c}, R a b → R b c → R a c)
    (make : ∀ q, q <+: d.resolve path → ∀ a b,
      makeFolder (d.resolve path) path a q = .ok b → R a b)
    (h : d.makeFirst count path = .ok d') : R d d' := by
  have hfold (ps : List Path) (hps : ∀ q ∈ ps, q <+: d.resolve path) :
      ∀ a, ps.foldlM (makeFolder (d.resolve path) path) a = .ok d' → R a d' := by
    induction ps with
    | nil => rintro a h; cases h; exact refl d'
    | cons p rest ih =>
      intro a h
      obtain ⟨hp, hrest⟩ := List.forall_mem_cons.mp hps
      rw [List.foldlM_cons] at h
      cases hmade : makeFolder (d.resolve path) path a p with
      | error e => rw [hmade] at h; cases h
      | ok b =>
        rw [hmade] at h
        exact trans (make p hp a b hmade) (ih hrest b h)
  refine hfold _ (fun q hq => ?_) d h
  rcases List.mem_append.mp (List.mem_of_mem_take hq) with hq | hq
  · exact prefix_of_mem_ancestors hq
  · exact List.mem_singleton.mp hq ▸ List.prefix_rfl

theorem fileAt_makeFirst {count : Nat} (h : d.makeFirst count path = .ok d') :
    d'.cwd = d.cwd ∧ ∀ q, d'.fileAt q = d.fileAt q := by
  refine makeFirst_induct (R := fun d d' => d'.cwd = d.cwd ∧ ∀ q, d'.fileAt q = d.fileAt q)
    (fun _ => ⟨rfl, fun _ => rfl⟩) (fun h h' => ?_) (fun q _ a b hmade => fileAt_makeFolder hmade) h
  exact ⟨h'.1.trans h.1, fun q => (h'.2 q).trans (h.2 q)⟩

/-! ## Files -/

theorem write_eq_ok (h : d.write path content = .ok d') :
    d.blocked? (d.resolve path) = none ∧ d' = d.set (d.resolve path) (.file content false) := by
  unfold write at h
  dsimp only at h
  split at h
  · cases h
  · next hb =>
    split at h
    · cases h
    · cases h
    · cases h; exact ⟨hb, rfl⟩
    · split at h
      · cases h; exact ⟨hb, rfl⟩
      · cases h

theorem unlink_eq_ok (h : d.unlink path = .ok d') : d' = d.erase (d.resolve path) := by
  unfold unlink at h
  dsimp only at h
  split at h
  · cases h
  · split at h
    · cases h
    · cases h
    · split at h
      · cases h; rfl
      · cases h

theorem rename_eq_ok (h : d.rename src dst = .ok d') :
    ∃ content locked, d.fileAt (d.resolve src) = some (content, locked) ∧
      d.blocked? (d.resolve dst) = none ∧
      d' = (d.erase (d.resolve src)).set (d.resolve dst) (.file content locked) := by
  unfold rename at h
  dsimp only at h
  split at h
  · cases h
  · cases h
  · next hdst =>
    split at h
    · cases h
    · cases h
    · cases h
    · next hsrc _ =>
      split at h
      · cases h
        exact ⟨_, _, fileAt_eq_some_iff.mpr hsrc, hdst, rfl⟩
      · cases h

theorem blocked?_of_rename (h : d.rename src dst = .ok d') : d'.blocked? (d.resolve dst) = none := by
  obtain ⟨content, locked, hsrc, hdst, rfl⟩ := rename_eq_ok h
  refine blocked?_of_get?_eq hdst fun q hq l hfolder => ?_
  have hne : q ≠ d.resolve src := by
    rintro rfl
    rw [fileAt_eq_some_iff, hfolder] at hsrc
    cases hsrc
  rw [get?_set, if_neg (ne_of_mem_ancestors hq), get?_erase, if_neg hne]

/-! ## Removals -/

theorem held?_eq_none_iff : d.held? p = none ↔
    ∀ q n, p <+: q → d.get? q = some n → (d.parentRights q).removing = true := by
  rw [held?, List.find?_eq_none]
  constructor
  · intro h q n hq hn
    have hfree := h (q, n) (OrderedMap.mem_entries_iff.mpr hn)
    simpa [List.isPrefixOf_iff_prefix.mpr hq] using hfree
  · rintro h ⟨q, n⟩ hmem
    have hn : d.get? q = some n := OrderedMap.mem_entries_iff.mp hmem
    simpa using fun hq => h q n (List.isPrefixOf_iff_prefix.mp hq) hn

/-- A removal takes away all from a path on, or fails, if it can be reached. -/
theorem remove_of_reached (h : d.blocked? (d.resolve path) = none) :
    d.held? (d.resolve path) = none ∧ d.remove path = .ok (d.without (d.resolve path)) ∨
      d.held? (d.resolve path) ≠ none ∧ ∃ e, d.remove path = .error e := by
  unfold remove
  dsimp only
  rw [h]
  cases d.held? (d.resolve path) with
  | none => exact .inl ⟨rfl, rfl⟩
  | some found => exact .inr ⟨nofun, _, rfl⟩

theorem remove_eq_ok (h : d.remove path = .ok d') : d' = d ∨ d' = d.without (d.resolve path) := by
  unfold remove at h
  dsimp only at h
  split at h
  · cases h
  · cases h; exact .inl rfl
  · split at h
    · cases h; exact .inr rfl
    · cases h

/-! ## Edits done in part -/

/-- What an edit may leave that fails. -/
inductive Part (d : Disk) : Edit → Disk → Prop where
  | nothing (e : Edit) : Part d e d
  | folders {path : Text} {count : Nat} {d' : Disk} :
      d.makeFirst count path = .ok d' → Part d (.makeFolders path) d'
  | torn {path text : Text} {d' : Disk} (content : Text) :
      d.write path text = .ok d' → Part d (.write path content) d'
  | removal {path : Text} (gone : Path → Bool) :
      (∀ q, gone q = true → d.resolve path <+: q) → Part d (.remove path) (d.leaveOut gone)

theorem part_tear (d : Disk) (s : Setback) (e : Edit) : d.Part e (d.tear s e) := by
  cases e with
  | makeFolders path =>
    rw [tear]
    cases h : d.makeFirst s.made path with
    | error err => exact .nothing _
    | ok d' => exact .folders h
  | write path content =>
    rw [tear]
    cases s.torn with
    | none => exact .nothing _
    | some text =>
      rw [Option.bind_some]
      cases h : d.write path text with
      | error err => exact .nothing _
      | ok d' => exact .torn content h
  | rename src dst => exact .nothing _
  | unlink path => exact .nothing _
  | remove path =>
    refine .removal _ fun q hq => ?_
    obtain ⟨l, -, hl⟩ := List.any_eq_true.mp hq
    obtain ⟨hpath, hbelow⟩ := (Bool.and_eq_true _ _).mp hl
    exact (List.isPrefixOf_iff_prefix.mp hpath).trans (List.isPrefixOf_iff_prefix.mp hbelow)

theorem part_remove (h : d.remove path = .ok d') : d.Part (.remove path) d' := by
  rcases remove_eq_ok h with rfl | rfl
  · exact .nothing _
  · exact .removal _ fun q hq => List.isPrefixOf_iff_prefix.mp hq

namespace Part

variable {e : Edit}

/-- A file is moved as a whole. -/
theorem eq_of_rename (h : d.Part (.rename src dst) d') : d' = d := by
  cases h
  rfl

theorem cwd (h : d.Part e d') : d'.cwd = d.cwd := by
  cases h with
  | nothing => rfl
  | folders h => exact (fileAt_makeFirst h).1
  | torn content h => rw [(write_eq_ok h).2]; rfl
  | removal gone _ => rfl

theorem get?_removal (h : d.Part (.remove path) d') (hq : ¬ d.resolve path <+: q) :
    d'.get? q = d.get? q := by
  cases h with
  | nothing => rfl
  | removal gone hgone => rw [get?_leaveOut, if_neg fun hq' => hq (hgone q hq')]

theorem fileAt_removal (h : d.Part (.remove path) d') (q : Path) :
    d'.fileAt q = d.fileAt q ∨ d'.fileAt q = none := by
  cases h with
  | nothing => exact .inl rfl
  | removal gone _ =>
    rw [fileAt_leaveOut]
    split
    · exact .inr rfl
    · exact .inl rfl

end Part

/-! ## Trees that differ in one file -/

/-- The files of `d`, but for one. -/
structure KeepsBut (file : Text) (d d' : Disk) : Prop where
  cwd : d'.cwd = d.cwd
  others : ∀ p, p ≠ d.resolve file → d'.fileAt p = d.fileAt p

namespace KeepsBut

variable {file : Text} {d₁ d₂ : Disk}

theorem refl (file : Text) (d : Disk) : KeepsBut file d d := ⟨rfl, fun _ _ => rfl⟩

theorem resolve (h : KeepsBut file d d₁) (t : Text) : d₁.resolve t = d.resolve t := by
  rw [Disk.resolve, Disk.resolve, h.cwd]

theorem trans (h : KeepsBut file d d₁) (h' : KeepsBut file d₁ d₂) : KeepsBut file d d₂ := by
  refine ⟨h'.cwd.trans h.cwd, fun p hp => ?_⟩
  rw [h'.others p (h.resolve file ▸ hp), h.others p hp]

end KeepsBut

/-- The edit makes folders, or writes or unlinks one file. -/
def Edit.IsOf (file : Text) : Edit → Prop
  | .makeFolders _ => True
  | .write path _ => path = file
  | .unlink path => path = file
  | .rename _ _ => False
  | .remove _ => False

theorem keepsBut_apply {file : Text} {e : Edit} (he : e.IsOf file) (h : d.apply e = .ok d') :
    KeepsBut file d d' := by
  cases e with
  | makeFolders path =>
    obtain ⟨hcwd, hfiles⟩ := fileAt_makeFirst h
    exact ⟨hcwd, fun p _ => hfiles p⟩
  | write path content =>
    obtain rfl : path = file := he
    obtain ⟨-, rfl⟩ := write_eq_ok h
    exact ⟨rfl, fun p hp => by rw [fileAt_set_file, if_neg hp]⟩
  | unlink path =>
    obtain rfl : path = file := he
    rw [unlink_eq_ok h]
    exact ⟨rfl, fun p hp => by rw [fileAt_erase, if_neg hp]⟩
  | rename src dst => exact he.elim
  | remove path => exact he.elim

theorem keepsBut_part {file : Text} {e : Edit} (he : e.IsOf file) (h : d.Part e d') :
    KeepsBut file d d' := by
  cases h with
  | nothing => exact .refl file d
  | folders h => exact ⟨(fileAt_makeFirst h).1, fun p _ => (fileAt_makeFirst h).2 p⟩
  | @torn path text d' _ h =>
    have hfile : (Edit.write path text).IsOf file := he
    exact keepsBut_apply hfile h
  | removal gone _ => exact he.elim

end Disk

end PackageHistory
