import PackageHistory.Proofs.Path.Resolve
import PackageHistory.Proofs.Tracker.Registry

/-!
# Where caches stand

The names of a root lead from the folder of all caches down to the cache of its repository. A root whose
first name begins with a backslash is the exception: what it begins with is left out.
-/

namespace PackageHistory.Cache

variable {p q root : Path}

def BeginsPlainly (root : Path) : Prop := ∀ name ∈ root.head?, name.head? ≠ some '\\'

/-- A root that is repeated below the cache folder as it is. -/
structure IsPlain (root : Path) : Prop where
  names : ∀ name ∈ root, Path.IsName name
  first : BeginsPlainly root

theorem dropWhile_text (h : IsPlain root) :
    (root.text.dropWhile fun c => c = '/' || c = '\\') = Text.join ['/'] root := by
  rw [Path.text, List.dropWhile_cons_of_pos (by simp)]
  cases root with
  | nil => rfl
  | cons name rest =>
    have hname := h.names name List.mem_cons_self
    have hfirst := h.first name rfl
    obtain ⟨c, more, rfl⟩ := List.exists_cons_of_ne_nil hname.filled
    have hslash : c ≠ '/' := fun heq => hname.slash (heq ▸ List.mem_cons_self)
    have hbackslash : c ≠ '\\' := fun heq => hfirst (heq ▸ rfl)
    cases rest <;> simp [Text.join, List.intercalate, hslash, hbackslash]

theorem join_filled (hnames : ∀ name ∈ root, Path.IsName name) {name : Text} (hname : name ≠ []) :
    Text.join ['/'] ([Text.join ['/'] root, name].filter fun part => !part.isEmpty) =
      Text.join ['/'] (root ++ [name]) := by
  cases root with
  | nil => simp [Text.join, List.intercalate, hname]
  | cons first rest =>
    have hfirst : first ≠ [] := (hnames first List.mem_cons_self).filled
    have hfilled : Text.join ['/'] (first :: rest) ≠ [] := by
      cases rest <;> simp [Text.join, List.intercalate, hfirst]
    have hboth : [Text.join ['/'] (first :: rest), name].filter (fun part => !part.isEmpty) =
        [Text.join ['/'] (first :: rest), name] :=
      List.filter_eq_self.mpr (by simpa using ⟨hfilled, hname⟩)
    rw [Text.join_append_join _ (List.cons_ne_nil first rest) (List.cons_ne_nil name []), hboth,
      Text.join_cons_cons]

/-- The root goes on, name by name, from the folder of all caches. -/
theorem resolve_fileOf (h : IsPlain root) (cwd : Path) (cacheDir : Text) :
    Path.resolve cwd (fileOf cacheDir root) =
      Path.resolve cwd (Path.join [cacheDir, "repos".toList]) ++ (root ++ [fileName]) := by
  have hnames : ∀ name ∈ root ++ [fileName], Path.IsName name := by
    intro name hmem
    rcases List.mem_append.mp hmem with hmem | hmem
    · exact h.names name hmem
    · exact List.mem_singleton.mp hmem ▸ isName_fileName
  obtain ⟨folder, hfolder, hfilled, hne⟩ : ∃ folder,
      [cacheDir, "repos".toList].filter (fun part => !part.isEmpty) = folder ∧ folder ≠ [] ∧
        Text.join ['/'] folder ≠ [] := by
    cases cacheDir with
    | nil => exact ⟨_, rfl, nofun, nofun⟩
    | cons c rest => exact ⟨_, rfl, nofun, nofun⟩
  have hparts : [cacheDir, "repos".toList, Text.join ['/'] root, fileName] =
      [cacheDir, "repos".toList] ++ [Text.join ['/'] root, fileName] := rfl
  have hbelow : [Text.join ['/'] root, fileName].filter (fun part => !part.isEmpty) ≠ [] :=
    List.ne_nil_of_mem (List.mem_filter.mpr ⟨List.mem_cons_of_mem _ List.mem_cons_self, rfl⟩)
  rw [fileOf, dropWhile_text h, hparts, Path.resolve_join, Path.resolve_join, List.filter_append,
    hfolder, Text.join_append_join _ hfilled hbelow, join_filled h.names isName_fileName.filled,
    List.append_assoc, List.singleton_append, Path.resolve_append_sep hne,
    Text.splitOn_join (by simp) fun name hmem => (hnames name hmem).slash,
    Path.foldl_step_of_names hnames]

theorem resolve_parentText_fileOf (h : IsPlain root) (cwd : Path) (cacheDir : Text) :
    Path.resolve cwd (Path.parentText (fileOf cacheDir root)) =
      Path.resolve cwd (Path.join [cacheDir, "repos".toList]) ++ root := by
  obtain ⟨lead, hlead, hfile⟩ := fileOf_eq cacheDir root
  obtain ⟨folder, hfolder⟩ := Path.resolve_lead hlead cwd
  obtain ⟨hlast, hparent⟩ := hfolder fileName isName_fileName
  rw [← hfile] at hlast hparent
  rw [resolve_fileOf h, ← List.append_assoc] at hlast
  rw [hparent]
  exact (List.append_inj_left' hlast rfl).symm

/-- Plain roots have the same cache file only when they are the same. -/
theorem fileOf_eq_iff (hp : IsPlain p) (hq : IsPlain q) (cacheDir : Text) :
    fileOf cacheDir p = fileOf cacheDir q ↔ p = q := by
  refine ⟨fun h => ?_, fun h => h ▸ rfl⟩
  have hresolve := congrArg (Path.resolve []) h
  rw [resolve_fileOf hp, resolve_fileOf hq] at hresolve
  exact (List.append_inj_left' (List.append_cancel_left hresolve) rfl)

/-- A cache file stands above that of another root only when that root goes through a folder with the name
of cache files. -/
theorem resolve_fileOf_prefix_iff (hp : IsPlain p) (hq : IsPlain q) (cwd : Path) (cacheDir : Text) :
    Path.resolve cwd (fileOf cacheDir p) <+: Path.resolve cwd (fileOf cacheDir q) ↔
      p = q ∨ p ++ [fileName] <+: q := by
  rw [resolve_fileOf hp, resolve_fileOf hq, List.prefix_append_right_inj, List.prefix_concat_iff]
  constructor
  · rintro (h | h)
    · exact .inl (List.append_inj_left' h rfl)
    · exact .inr h
  · rintro (rfl | h)
    · exact .inl rfl
    · exact .inr h

end PackageHistory.Cache
