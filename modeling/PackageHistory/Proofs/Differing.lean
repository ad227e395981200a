import PackageHistory.Proofs.Alike
import PackageHistory.Proofs.Spared

/-!
# Worlds that differ at one path

Two trees may differ in what is at a path, as long as it is a folder in neither. Edits that name no path at it or
below it do the same in both, and so does a move that replaces what is there.
-/

namespace PackageHistory

namespace Disk

variable {d d' : Disk} {p q : Path} {path src dst content : Text}

theorem none_or_file {n : Option Node} (h : ∀ rights, n ≠ some (.folder rights)) :
    n = none ∨ ∃ c locked, n = some (.file c locked) := by
  match n with
  | none => exact .inl rfl
  | some (.file c locked) => exact .inr ⟨c, locked, rfl⟩
  | some (.folder rights) => exact absurd rfl (h rights)

/-- Trees that differ only at a path and below it, where neither has a folder. -/
structure SameBut (p : Path) (d d' : Disk) : Prop where
  cwd : d'.cwd = d.cwd
  others : ∀ q, ¬ p <+: q → d'.get? q = d.get? q
  left : ∀ rights, d.get? p ≠ some (.folder rights)
  right : ∀ rights, d'.get? p ≠ some (.folder rights)

/-- Both trees, which are the same but for a path again, or one error for both. -/
def Matches (p : Path) (x y : Except Error Disk) : Prop :=
  (∃ d d', x = .ok d ∧ y = .ok d' ∧ SameBut p d d') ∨ ∃ e, x = .error e ∧ y = .error e

theorem Matches.ok (h : SameBut p d d') : Matches p (.ok d) (.ok d') := .inl ⟨d, d', rfl, rfl, h⟩

theorem Matches.error (e : Error) : Matches p (.error e) (.error e) := .inr ⟨e, rfl, rfl⟩

namespace SameBut

theorem resolve (h : SameBut p d d') (t : Text) : d'.resolve t = d.resolve t := by
  rw [Disk.resolve, Disk.resolve, h.cwd]

theorem blocked?_of_not_prefix (h : SameBut p d d') (hq : ¬ p <+: q) :
    d'.blocked? q = d.blocked? q :=
  blocked?_congr fun r hr => h.others r fun hbelow => hq (hbelow.trans (prefix_of_mem_ancestors hr))

theorem blocked?_self (h : SameBut p d d') : d'.blocked? p = d.blocked? p :=
  blocked?_congr fun r hr => h.others r fun hbelow =>
    ne_of_mem_ancestors hr ((prefix_of_mem_ancestors hr).eq_of_length_le hbelow.length_le)

theorem parentRights (h : SameBut p d d') (hq : ¬ p <+: q) :
    d'.parentRights q = d.parentRights q := by
  rw [Disk.parentRights, Disk.parentRights,
    h.others _ fun hbelow => hq (hbelow.trans (List.dropLast_prefix q))]

theorem set (h : SameBut p d d') (hq : ¬ p <+: q) (n : Node) :
    SameBut p (d.set q n) (d'.set q n) := by
  have hpq : p ≠ q := fun heq => hq (heq ▸ List.prefix_rfl)
  refine ⟨h.cwd, fun r hr => ?_, fun rights => ?_, fun rights => ?_⟩
  · rw [get?_set, get?_set, h.others r hr]
  · rw [get?_set, if_neg hpq]
    exact h.left rights
  · rw [get?_set, if_neg hpq]
    exact h.right rights

theorem erase (h : SameBut p d d') (hq : ¬ p <+: q) : SameBut p (d.erase q) (d'.erase q) := by
  have hpq : p ≠ q := fun heq => hq (heq ▸ List.prefix_rfl)
  refine ⟨h.cwd, fun r hr => ?_, fun rights => ?_, fun rights => ?_⟩
  · rw [get?_erase, get?_erase, h.others r hr]
  · rw [get?_erase, if_neg hpq]
    exact h.left rights
  · rw [get?_erase, if_neg hpq]
    exact h.right rights

/-- A file put at the path itself makes it the same in both. -/
theorem set_file (h : SameBut p d d') (c : Text) (locked : Bool) :
    SameBut p (d.set p (.file c locked)) (d'.set p (.file c locked)) := by
  refine ⟨h.cwd, fun r hr => ?_, fun rights => ?_, fun rights => ?_⟩
  · rw [get?_set, get?_set, h.others r hr]
  · rw [get?_set, if_pos rfl]
    nofun
  · rw [get?_set, if_pos rfl]
    nofun

/-! ## Edits -/

theorem makeFolder (h : SameBut p d d') {whole : Path} (hq : ¬ p <+: q) :
    Matches p (Disk.makeFolder whole path d q) (Disk.makeFolder whole path d' q) := by
  unfold Disk.makeFolder
  rw [h.others q hq, h.parentRights hq]
  split
  · exact .ok h
  · exact .error _
  · split
    · exact .ok (h.set hq _)
    · exact .error _

theorem makeFirst (h : SameBut p d d') (count : Nat) (hpath : ¬ p <+: d.resolve path) :
    Matches p (d.makeFirst count path) (d'.makeFirst count path) := by
  have hfold (whole : Path) (qs : List Path) (hqs : ∀ q ∈ qs, ¬ p <+: q) : ∀ d d', SameBut p d d' →
      Matches p (qs.foldlM (Disk.makeFolder whole path) d) (qs.foldlM (Disk.makeFolder whole path) d') := by
    induction qs with
    | nil => exact fun d d' h => .ok h
    | cons q rest ih =>
      intro d d' h
      obtain ⟨hq, hrest⟩ := List.forall_mem_cons.mp hqs
      rw [List.foldlM_cons, List.foldlM_cons]
      rcases h.makeFolder hq with ⟨d₁, d₁', hd, hd', h₁⟩ | ⟨e, hd, hd'⟩
      · rw [hd, hd']
        exact ih hrest d₁ d₁' h₁
      · rw [hd, hd']
        exact .error e
  unfold Disk.makeFirst
  rw [h.resolve path]
  refine hfold _ _ (fun q hq hbelow => hpath ?_) d d' h
  rcases List.mem_append.mp (List.mem_of_mem_take hq) with hq | hq
  · exact hbelow.trans (prefix_of_mem_ancestors hq)
  · rwa [← List.mem_singleton.mp hq]

theorem makeFolders (h : SameBut p d d') (hpath : ¬ p <+: d.resolve path) :
    Matches p (d.makeFolders path) (d'.makeFolders path) := by
  rw [Disk.makeFolders, Disk.makeFolders, h.resolve path]
  exact h.makeFirst _ hpath

theorem write (h : SameBut p d d') (hpath : ¬ p <+: d.resolve path) :
    Matches p (d.write path content) (d'.write path content) := by
  unfold Disk.write
  dsimp only
  rw [h.resolve path, h.blocked?_of_not_prefix hpath, h.others _ hpath, h.parentRights hpath]
  split
  · exact .error _
  · split
    · exact .error _
    · exact .error _
    · exact .ok (h.set hpath _)
    · split
      · exact .ok (h.set hpath _)
      · exact .error _

theorem unlink (h : SameBut p d d') (hpath : ¬ p <+: d.resolve path) :
    Matches p (d.unlink path) (d'.unlink path) := by
  unfold Disk.unlink
  dsimp only
  rw [h.resolve path, h.blocked?_of_not_prefix hpath, h.others _ hpath, h.parentRights hpath]
  split
  · exact .error _
  · split
    · exact .error _
    · exact .error _
    · split
      · exact .ok (h.erase hpath)
      · exact .error _

/-- Within one folder it makes no difference to a move whether it replaces a file. -/
theorem takesMove (h : SameBut p d d') (hsrc : ¬ p <+: q) (hbeside : q.dropLast = p.dropLast) :
    d'.takesMove q p = d.takesMove q p := by
  have hsame (d : Disk) : d.parentRights p = d.parentRights q := by
    rw [Disk.parentRights, Disk.parentRights, hbeside]
  unfold Disk.takesMove
  rw [hsame d, hsame d', h.parentRights hsrc]
  cases (d.parentRights q).removing <;> simp

/-- What is at the path is replaced, whatever it was. -/
theorem rename (h : SameBut p d d') (hsrc : ¬ p <+: d.resolve src) (hdst : d.resolve dst = p)
    (hbeside : (d.resolve src).dropLast = p.dropLast) :
    Matches p (d.rename src dst) (d'.rename src dst) := by
  unfold Disk.rename
  dsimp only
  rw [h.resolve src, h.resolve dst, hdst, h.blocked?_of_not_prefix hsrc, h.blocked?_self, h.others _ hsrc,
    h.takesMove hsrc hbeside]
  cases d.blocked? (d.resolve src) with
  | some code => exact .error _
  | none =>
    cases d.blocked? p with
    | some code => exact .error _
    | none =>
      cases d.get? (d.resolve src) with
      | none => exact .error _
      | some n =>
        cases n with
        | folder rights => exact .error _
        | file c locked =>
          have hmoved := (h.erase hsrc).set_file c locked
          have hboth : Matches p
              (if d.takesMove (d.resolve src) p then
                .ok ((d.erase (d.resolve src)).set p (.file c locked))
                else .error ⟨.denied, .moving src dst⟩)
              (if d.takesMove (d.resolve src) p then
                .ok ((d'.erase (d.resolve src)).set p (.file c locked))
                else .error ⟨.denied, .moving src dst⟩) := by
            split
            · exact .ok hmoved
            · exact .error _
          rcases none_or_file h.left with hn | ⟨_, _, hn⟩ <;>
            rcases none_or_file h.right with hn' | ⟨_, _, hn'⟩ <;> rw [hn, hn'] <;> exact hboth

end SameBut

/-- The edit names no path at `p` or below it, or moves a file to it from beside it. -/
def Edit.Beside (e : Edit) (d : Disk) (p : Path) : Prop :=
  match e with
  | .makeFolders path => ¬ p <+: d.resolve path
  | .write path _ => ¬ p <+: d.resolve path
  | .rename src dst =>
    ¬ p <+: d.resolve src ∧ d.resolve dst = p ∧ (d.resolve src).dropLast = p.dropLast
  | .unlink path => ¬ p <+: d.resolve path
  | .remove _ => False

theorem SameBut.apply {e : Edit} (h : SameBut p d d') (he : e.Beside d p) :
    Matches p (d.apply e) (d'.apply e) := by
  cases e with
  | makeFolders path => exact h.makeFolders he
  | write path content => exact h.write he
  | rename src dst => exact h.rename he.1 he.2.1 he.2.2
  | unlink path => exact h.unlink he
  | remove path => exact he.elim

/-- What is left where the edit cannot be done, if the trees before are the same but for a path. -/
theorem SameBut.getD (h : SameBut p d d') {x y : Except Error Disk} (hxy : Matches p x y) :
    SameBut p (x.toOption.getD d) (y.toOption.getD d') := by
  rcases hxy with ⟨d₁, d₁', rfl, rfl, h₁⟩ | ⟨e, rfl, rfl⟩
  · exact h₁
  · exact h

theorem SameBut.tear {e : Edit} (h : SameBut p d d') (he : e.Beside d p) (s : Setback) :
    SameBut p (d.tear s e) (d'.tear s e) := by
  cases e with
  | makeFolders path => exact h.getD (h.makeFirst s.made he)
  | write path content =>
    rw [Disk.tear, Disk.tear]
    cases s.torn with
    | none => exact h
    | some torn => exact h.getD (h.write he)
  | rename src dst => exact h
  | unlink path => exact h
  | remove path => exact he.elim

end Disk

/-! ## Worlds -/

/-- Worlds with the same stamp that differ only in what is at the path a text names. -/
structure World.DifferAt (path stamp : Text) (w v : World) : Prop where
  git : w.git = v.git
  left : w.stamp = stamp
  right : v.stamp = stamp
  calls : w.calls = v.calls
  edits : w.edits = v.edits
  refuses : w.refuses = v.refuses
  disk : w.disk.SameBut (w.disk.resolve path) v.disk

namespace World.DifferAt

variable {path stamp : Text} {w v : World}

theorem asked (h : w.DifferAt path stamp v) (call : GitCall) :
    (w.asked call).DifferAt path stamp (v.asked call) :=
  ⟨h.git, h.left, h.right, congrArg (call :: ·) h.calls, h.edits, h.refuses, h.disk⟩

theorem edited {d d' : Disk} (h : w.DifferAt path stamp v) (e : Disk.Edit) (hcwd : d.cwd = w.disk.cwd)
    (hd : d.SameBut (w.disk.resolve path) d') :
    (w.edited e d).DifferAt path stamp (v.edited e d') := by
  have hresolve : d.resolve path = w.disk.resolve path := congrArg (Path.resolve · path) hcwd
  refine ⟨h.git, h.left, h.right, h.calls, congrArg (e :: ·) h.edits, h.refuses, ?_⟩
  rw [World.edited_disk, World.edited_disk, hresolve]
  exact hd

end World.DifferAt

namespace Action

variable {path stamp : Text}

theorem follows_runGit (args : List Text) (cwd : Text) :
    (runGit args cwd).Follows (World.DifferAt path stamp) := by
  intro w v h
  rw [runGit_apply, runGit_apply, h.git, h.calls]
  exact ⟨rfl, h.asked _⟩

theorem follows_streamGit (args : List Text) (cwd : Text) :
    (streamGit args cwd).Follows (World.DifferAt path stamp) := by
  intro w v h
  rw [streamGit_apply, streamGit_apply, h.git, h.calls]
  exact ⟨rfl, h.asked _⟩

theorem follows_edit {e : Disk.Edit} (he : ∀ d : Disk, e.Beside d (d.resolve path)) :
    (edit e).Follows (World.DifferAt path stamp) := by
  intro w v h
  have hrefuses : w.refuses w.edits e = v.refuses v.edits e := by rw [h.refuses, h.edits]
  unfold edit
  dsimp only
  rw [hrefuses]
  cases v.refuses v.edits e with
  | some s => exact ⟨rfl, h.edited e (w.disk.part_tear s e).cwd (h.disk.tear (he _) s)⟩
  | none =>
    rcases h.disk.apply (he _) with ⟨d, d', hd, hd', hsame⟩ | ⟨err, hd, hd'⟩
    · rw [hd, hd']
      exact ⟨rfl, h.edited e (Disk.cwd_apply hd) hsame⟩
    · rw [hd, hd']
      exact ⟨rfl, h.edited e rfl h.disk⟩

end Action

end PackageHistory
