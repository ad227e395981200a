import PackageHistory.Proofs.Action
import PackageHistory.Proofs.Scope.Packages

/-!
# Scopes within the categories of a repository

Git is told to which folders a comparison is restricted. When there is one at all, each package of a scope
comes from a changed path in such a folder, and a folder with a category name is the category of its
packages.
-/

namespace PackageHistory.Scope

/-! ## What git prints -/

/-- What git prints of the changed paths of a working tree when it is told some folders: the paths below
them, or all paths when it is told none. A file in the place of such a folder may be printed or not. -/
structure Prints (root : Path) (changed : List Path) (folders : List Text) (output : Text) : Prop where
  only : ∀ line ∈ output.splitOn '\n', line ≠ [] → ∃ p ∈ changed, line = lineOf p ∧
    (folders = [] ∨ ∃ f ∈ folders, Path.resolve root f <+: root ++ p)
  all : ∀ p ∈ changed,
    (folders = [] ∨ ∃ f ∈ folders, Path.resolve root f <+: root ++ p ∧ Path.resolve root f ≠ root ++ p) →
      lineOf p ∈ output.splitOn '\n'

variable {root p : Path} {category : Text}

/-- A folder with a category name covers the paths that begin with the name. -/
theorem covers_iff (h : isCategory category = true) :
    Path.resolve root category <+: root ++ p ↔ ∃ rest, p = category :: rest := by
  rw [Path.resolve_of_isName (isSolid_of_isCategory h).isName, List.prefix_append_right_inj]
  constructor
  · rintro ⟨rest, rfl⟩
    exact ⟨rest, rfl⟩
  · rintro ⟨rest, rfl⟩
    exact ⟨rest, rfl⟩

/-! ## Asking git -/

variable {repo : Repository} {ref : Text} {scope : Scope} {w w' : World}

def eclassName : Text := "eclass".toList

def hasEclassFolder (d : Disk) (location : Text) : Bool :=
  match d.inspect (Path.join [location, eclassName]) with
  | .ok (.folder _) => true
  | _ => false

theorem hasEclasses_cases (location : Text) (w : World) :
    hasEclasses location w = (.ok (hasEclassFolder w.disk location), w) ∨
      ∃ e, hasEclasses location w = (.error e, w) := by
  unfold hasEclasses hasEclassFolder eclassName
  cases h : w.disk.inspect (Path.join [location, "eclass".toList]) with
  | ok n =>
    have hlook : (Action.look (·.inspect (Path.join [location, "eclass".toList]))).attempt w =
        (.ok (.ok n), w) := by rw [Action.attempt_apply, Action.look_of_ok h]
    rw [Action.bind_of_ok hlook]
    cases n <;> exact .inl rfl
  | error e =>
    have hlook : (Action.look (·.inspect (Path.join [location, "eclass".toList]))).attempt w =
        (.ok (.error (.disk e)), w) := by rw [Action.attempt_apply, Action.look_of_error h]
    rw [Action.bind_of_ok hlook]
    obtain ⟨code, attempt⟩ := e
    cases code
    · exact .inl rfl
    all_goals exact .inr ⟨_, rfl⟩

def targetFolders (repo : Repository) (d : Disk) : List Text :=
  if hasEclassFolder d repo.location then repo.categories.mergeSort Text.le ++ [eclassName]
  else repo.categories.mergeSort Text.le

theorem resolve_eq_ok (h : resolve repo ref w = (.ok scope, w')) :
    ∃ output, w.git.run w.calls ⟨.run, diffArgs ref (targetFolders repo w.disk), repo.location⟩ =
      .ok output ∧ scope = ofDiff ref output := by
  have havailable : Action.gitAvailable w = (.ok w.git.available, w) := rfl
  unfold resolve at h
  rw [Action.bind_of_ok havailable] at h
  cases hgit : w.git.available with
  | false =>
    rw [hgit] at h
    cases h
  | true =>
    rw [hgit, if_neg nofun] at h
    dsimp only at h
    rcases hasEclasses_cases repo.location w with heclass | ⟨e, heclass⟩
    · rw [Action.bind_of_ok heclass] at h
      have hrun := Action.attempt_apply
        (Action.runGit (diffArgs ref (targetFolders repo w.disk)) repo.location) w
      rw [Action.runGit_apply] at hrun
      unfold targetFolders eclassName at hrun ⊢
      rw [Action.bind_of_ok hrun] at h
      generalize w.git.run w.calls _ = answer at h ⊢
      cases answer with
      | ok output =>
        cases h
        exact ⟨output, rfl, rfl⟩
      | error e => cases e <;> cases h
    · rw [Action.bind_of_error heclass] at h
      cases h

/-! ## Within the categories -/

theorem mem_targetFolders {d : Disk} {f : Text} (h : f ∈ targetFolders repo d) :
    f ∈ repo.categories ∨ f = eclassName := by
  unfold targetFolders at h
  split at h
  · rcases List.mem_append.mp h with h | h
    · exact .inl (List.mem_mergeSort.mp h)
    · exact .inr (List.mem_singleton.mp h)
  · exact .inl (List.mem_mergeSort.mp h)

theorem mem_targetFolders_of_category {c : Text} (h : c ∈ repo.categories) (d : Disk) :
    c ∈ targetFolders repo d := by
  unfold targetFolders
  split
  · exact List.mem_append_left _ (List.mem_mergeSort.mpr h)
  · exact List.mem_mergeSort.mpr h

theorem targetFolders_ne_nil {d : Disk}
    (h : repo.categories ≠ [] ∨ hasEclassFolder d repo.location = true) : targetFolders repo d ≠ [] := by
  rcases h with hcategories | hfolder
  · obtain ⟨c, hc⟩ := List.exists_mem_of_ne_nil _ hcategories
    exact List.ne_nil_of_mem (mem_targetFolders_of_category hc d)
  · rw [targetFolders, if_pos hfolder]
    simp

/-- Of the folders with a category name only that of the eclasses stands for no package. -/
theorem isPrefixOf_eclassFolder_iff (h : isCategory category = true) (t : Text) :
    eclassFolder.isPrefixOf (category ++ '/' :: t) = true ↔ category = eclassName := by
  rw [List.isPrefixOf_iff_prefix]
  constructor
  · rintro ⟨more, hmore⟩
    have hsplit := congrArg (fun t => (Text.splitOn '/' t).head?) hmore
    have heclass : eclassFolder ++ more = eclassName ++ '/' :: more := rfl
    rw [heclass, Text.splitOn_append_sep, Text.splitOn_append_sep,
      Text.splitOn_of_not_mem (isSolid_of_isCategory h).slash,
      Text.splitOn_of_not_mem (by decide)] at hsplit
    cases hsplit
    rfl
  · rintro rfl
    exact ⟨t, rfl⟩

variable {output : Text} {a : Atom}

/-- A package of a scope comes from a line of the output that is not below the folder of eclasses. -/
theorem exists_line_of_mem_packages (h : a ∈ (ofDiff ref output).packages) :
    ∃ line ∈ output.splitOn '\n', line ≠ [] ∧ eclassFolder.isPrefixOf line.trim = false ∧
      atomOf? line.trim = some a := by
  rw [packages_ofDiff] at h
  obtain ⟨trimmed, hmem, hatom⟩ := exists_of_mem_packageAtoms h
  rw [List.mem_filter, Text.mem_filledLines, Bool.not_eq_true'] at hmem
  obtain ⟨⟨hfilled, line, hline, rfl⟩, heclass⟩ := hmem
  refine ⟨line, hline, ?_, heclass, hatom⟩
  rintro rfl
  exact hfilled rfl

variable {changed : List Path} {folders : List Text}

/-- Where the comparison is restricted, a package of the scope is in a category that it is restricted to, or
its path is below a folder with no category name. -/
theorem Prints.category_of_mem (hprints : Prints root changed folders output) (hsome : folders ≠ [])
    (ha : a ∈ (ofDiff ref output).packages) :
    ∃ f ∈ folders, f ≠ eclassName ∧ (a.category = f ∨ isCategory f = false ∧
      ∃ p ∈ changed, Path.resolve root f <+: root ++ p ∧ atomOf? (lineOf p).trim = some a) := by
  obtain ⟨line, hline, hfilled, heclass, hatom⟩ := exists_line_of_mem_packages ha
  obtain ⟨p, hp, rfl, hcovered⟩ := hprints.only line hline hfilled
  obtain ⟨f, hf, hcovers⟩ := hcovered.resolve_left hsome
  refine ⟨f, hf, ?_⟩
  cases hvalid : isCategory f with
  | false =>
    refine ⟨?_, .inr ⟨rfl, p, hp, hcovers, hatom⟩⟩
    rintro rfl
    revert hvalid
    decide
  | true =>
    obtain ⟨rest, rfl⟩ := (covers_iff hvalid).mp hcovers
    obtain ⟨hcategory, t, hbelow⟩ := category_of_atomOf? hvalid hatom
    rw [hbelow, ← Bool.not_eq_true, isPrefixOf_eclassFolder_iff hvalid] at heclass
    exact ⟨heclass, .inl hcategory⟩

/-- A scope misses no package in which a path has changed below a category that is compared. -/
theorem Prints.mem_of_changed (hprints : Prints root changed folders output) (hc : category ∈ folders)
    (hvalid : isCategory category = true) (hne : category ≠ eclassName) {name : Text}
    (hname : isPackageName name = true) {rest : Path} (hp : category :: name :: rest ∈ changed) :
    ∃ a ∈ (ofDiff ref output).packages, a.category = category ∧ a.package = name := by
  obtain ⟨t, hline, hatom⟩ := atomOf?_lineOf hvalid hname rest
  have hprinted : lineOf (category :: name :: rest) ∈ output.splitOn '\n' := by
    refine hprints.all _ hp (.inr ⟨category, hc, (covers_iff hvalid).mpr ⟨_, rfl⟩, fun heq => ?_⟩)
    rw [Path.resolve_of_isName (isSolid_of_isCategory hvalid).isName] at heq
    simpa using List.append_cancel_left heq
  have hfilled : category ++ '/' :: t ∈ output.filledLines :=
    Text.mem_filledLines.mpr ⟨by simp, _, hprinted, hline⟩
  rw [packages_ofDiff]
  refine exists_mem_packageAtoms (List.mem_filter.mpr ⟨hfilled, ?_⟩) hatom
  rw [Bool.not_eq_true', ← Bool.not_eq_true, isPrefixOf_eclassFolder_iff hvalid]
  exact hne

/-- Git restricts the comparison to the categories and the eclasses, if there are any. Then the category of a
package in the scope is one of the repository, where all its categories are named as such; and the scope
misses no package of them in which a path has changed. -/
theorem packages_within_categories {changed : List Path}
    (hdiff : ∀ folders output,
      w.git.run w.calls ⟨.run, diffArgs ref folders, repo.location⟩ = .ok output →
        Prints (w.disk.resolve repo.location) changed folders output)
    (hfolders : repo.categories ≠ [] ∨ hasEclassFolder w.disk repo.location = true)
    (h : resolve repo ref w = (.ok scope, w')) :
    (∀ a ∈ scope.packages, a.category ∈ repo.categories ∨
      ∃ c ∈ repo.categories, isCategory c = false ∧
        ∃ p ∈ changed, Path.resolve (w.disk.resolve repo.location) c <+:
          w.disk.resolve repo.location ++ p ∧ atomOf? (lineOf p).trim = some a) ∧
    ∀ c ∈ repo.categories, isCategory c = true → c ≠ eclassName →
      ∀ name rest, isPackageName name = true → c :: name :: rest ∈ changed →
        ∃ a ∈ scope.packages, a.category = c ∧ a.package = name := by
  obtain ⟨output, hrun, rfl⟩ := resolve_eq_ok h
  have hprints := hdiff _ _ hrun
  constructor
  · intro a ha
    obtain ⟨f, hf, hne, hcategory⟩ := hprints.category_of_mem (targetFolders_ne_nil hfolders) ha
    have hlisted : f ∈ repo.categories := (mem_targetFolders hf).resolve_right hne
    rcases hcategory with rfl | hbelow
    · exact .inl hlisted
    · exact .inr ⟨f, hlisted, hbelow⟩
  · intro c hc hvalid hne name rest hname hp
    exact hprints.mem_of_changed (mem_targetFolders_of_category hc w.disk) hvalid hne hname hp

/-- The lines of the changed paths that folders cover. -/
def printed (root : Path) (changed : List Path) (folders : List Text) : Text :=
  Text.join ['\n'] <| (changed.filter fun p =>
    decide (folders = [] ∨ ∃ f ∈ folders, Path.resolve root f <+: root ++ p)).map lineOf

theorem prints_printed {changed : List Path} (h : ∀ p ∈ changed, '\n' ∉ lineOf p) (root : Path)
    (folders : List Text) : Prints root changed folders (printed root changed folders) := by
  let shown := changed.filter fun p =>
    decide (folders = [] ∨ ∃ f ∈ folders, Path.resolve root f <+: root ++ p)
  have hsplit (hne : shown ≠ []) :
      (printed root changed folders).splitOn '\n' = shown.map lineOf := by
    refine Text.splitOn_join (fun hnil => hne (List.map_eq_nil_iff.mp hnil))
      fun line hline => ?_
    obtain ⟨p, hp, rfl⟩ := List.mem_map.mp hline
    exact h p (List.mem_filter.mp hp).1
  constructor
  case only =>
    intro line hline hfilled
    by_cases hne : shown = []
    · have hprinted : printed root changed folders = [] := by
        rw [printed, show changed.filter _ = shown from rfl, hne]
        rfl
      rw [hprinted] at hline
      exact absurd (List.mem_singleton.mp hline) hfilled
    · rw [hsplit hne] at hline
      obtain ⟨p, hp, rfl⟩ := List.mem_map.mp hline
      obtain ⟨hchanged, hcovered⟩ := List.mem_filter.mp hp
      exact ⟨p, hchanged, rfl, of_decide_eq_true hcovered⟩
  case all =>
    intro p hp hcovered
    have hshown : p ∈ shown := by
      refine List.mem_filter.mpr ⟨hp, decide_eq_true ?_⟩
      exact hcovered.imp id fun ⟨f, hf, hcovers, _⟩ => ⟨f, hf, hcovers⟩
    rw [hsplit (List.ne_nil_of_mem hshown)]
    exact List.mem_map_of_mem hshown

/-- Git names the changed paths of a working tree at `/repo`, below the folders it is told. -/
def changedWorld (changed : List Path) : World where
  git :=
    { run := fun _ call => .ok (printed ["repo".toList] changed (call.args.drop 5))
      stream := fun _ _ => ⟨[], none⟩
      available := true }
  disk := Disk.empty []
  stamp := "1".toList

def twoEbuilds : List Path :=
  [["dev-libs".toList, "foo".toList, "foo-1.ebuild".toList],
    ["app-misc".toList, "bar".toList, "bar-1.ebuild".toList]]

def repoOf (categories : List Text) : Repository := ⟨"gentoo".toList, "/repo".toList, categories, []⟩

theorem prints_changedWorld (folders : List Text) (output : Text)
    (h : (changedWorld twoEbuilds).git.run (changedWorld twoEbuilds).calls
      ⟨.run, diffArgs defaultRef folders, "/repo".toList⟩ = .ok output) :
    Prints ["repo".toList] twoEbuilds folders output := by
  cases h
  exact prints_printed (by decide +kernel) _ folders

/-- One of two changed ebuilds is in the only category. -/
theorem packages_within_dev_libs :
    ∃ scope w', resolve (repoOf ["dev-libs".toList]) defaultRef (changedWorld twoEbuilds) =
        (.ok scope, w') ∧
      (∀ a ∈ scope.packages, a.category = "dev-libs".toList) ∧
      ∃ a ∈ scope.packages, a.category = "dev-libs".toList ∧ a.package = "foo".toList := by
  obtain ⟨scope, w', h⟩ : ∃ scope w', resolve (repoOf ["dev-libs".toList]) defaultRef
      (changedWorld twoEbuilds) = (.ok scope, w') := ⟨_, _, rfl⟩
  obtain ⟨hwithin, hall⟩ :=
    packages_within_categories prints_changedWorld (.inl (List.cons_ne_nil _ _)) h
  have hmem : "dev-libs".toList ∈ (repoOf ["dev-libs".toList]).categories := List.mem_cons_self
  refine ⟨scope, w', h, fun a ha => ?_, hall _ hmem (by decide) (by decide +kernel) "foo".toList
    ["foo-1.ebuild".toList] (by decide +kernel) List.mem_cons_self⟩
  rcases hwithin a ha with hcategory | ⟨c, hc, hvalid, -⟩
  · exact List.mem_singleton.mp hcategory
  · rw [List.mem_singleton.mp hc] at hvalid
    exact absurd hvalid (by decide)

/-- Without categories and eclasses git is told no folder, and names all changed paths. -/
theorem packages_beyond_categories :
    (∀ folders output, (changedWorld twoEbuilds).git.run (changedWorld twoEbuilds).calls
        ⟨.run, diffArgs defaultRef folders, "/repo".toList⟩ = .ok output →
          Prints ["repo".toList] twoEbuilds folders output) ∧
      ∃ scope w', resolve (repoOf []) defaultRef (changedWorld twoEbuilds) = (.ok scope, w') ∧
        ∃ a ∈ scope.packages, a.category ∉ (repoOf []).categories := by
  obtain ⟨scope, w', h⟩ : ∃ scope w',
      resolve (repoOf []) defaultRef (changedWorld twoEbuilds) = (.ok scope, w') := ⟨_, _, rfl⟩
  refine ⟨prints_changedWorld, scope, w', h, ?_⟩
  obtain ⟨output, hrun, rfl⟩ := resolve_eq_ok h
  have hnone : targetFolders (repoOf []) (changedWorld twoEbuilds).disk = [] := List.mergeSort_nil
  rw [hnone] at hrun
  have hline : "dev-libs/foo/foo-1.ebuild".toList ∈
      output.filledLines.filter fun path => !eclassFolder.isPrefixOf path := by
    cases hrun
    decide +kernel
  have hatom : atomOf? "dev-libs/foo/foo-1.ebuild".toList =
      some ⟨"dev-libs".toList, "foo".toList, none⟩ := by decide +kernel
  obtain ⟨a, ha, -⟩ := exists_mem_packageAtoms hline hatom
  exact ⟨a, packages_ofDiff defaultRef output ▸ ha, List.not_mem_nil⟩

end PackageHistory.Scope
