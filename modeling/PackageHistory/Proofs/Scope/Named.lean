import PackageHistory.Proofs.Outcome
import PackageHistory.Proofs.Scope.Within
import PackageHistory.Proofs.Text.Order

/-!
# What the lines of a comparison name

A trimmed line names an eclass, a package, one version of a package, or nothing. A scope is made of what the lines
name; where they name a package more than once, the last of them counts.
-/

namespace PackageHistory

namespace Scope

/-! ## What a line names -/

variable {line n c p : Text} {x : Cpv} {a : Atom}

/-- The line `eclass/n.eclass`, where the name has no white space. -/
def NamesEclass (line n : Text) : Prop :=
  line = eclassFolder ++ n ++ ".eclass".toList ∧ n ≠ [] ∧ ∀ c ∈ n, isBlank c = false

/-- A line outside the eclasses whose first two segments are a category and a package name. -/
structure NamesPackage (line c p : Text) : Prop where
  segments : ∃ rest, line.splitOn '/' = c :: p :: rest
  category : isCategory c = true
  package : isPackageName p = true
  outside : ¬ eclassFolder <+: line

/-- A line whose first two segments are the text of a package version behind an equals sign. -/
def NamesVersion (line : Text) (x : Cpv) : Prop :=
  ∃ rest, line.splitOn '/' = ('=' :: x.category) :: (x.package ++ '-' :: x.fullver) :: rest

/-- The atom of all versions of a package that a line names, or of the one version. -/
inductive NamesAtom (line : Text) : Atom → Prop where
  | package {c p : Text} (h : NamesPackage line c p) : NamesAtom line ⟨c, p, none⟩
  | version {x : Cpv} (h : NamesVersion line x) : NamesAtom line (Atom.exactly x)

theorem eclassOf?_eq_some_iff : eclassOf? line = some n ↔ NamesEclass line n := by
  unfold eclassOf? NamesEclass
  constructor
  · intro h
    obtain ⟨file, hfile, h⟩ := Option.bind_eq_some_iff.mp h
    obtain ⟨name, hname, h⟩ := Option.bind_eq_some_iff.mp h
    rw [Text.stripStart?_eq_some_iff] at hfile
    rw [Text.stripEnd?_eq_some_iff] at hname
    split at h
    next => cases h
    next hok =>
      cases h
      simp only [Bool.or_eq_true, List.isEmpty_iff, List.any_eq_true, not_or, not_exists, not_and,
        Bool.not_eq_true] at hok
      exact ⟨by rw [hfile, hname, List.append_assoc], hok⟩
  · rintro ⟨hline, hfilled, hblank⟩
    have hfile : Text.stripStart? eclassFolder line = some (n ++ ".eclass".toList) := by
      rw [Text.stripStart?_eq_some_iff, hline, List.append_assoc]
    have hname : Text.stripEnd? ".eclass".toList (n ++ ".eclass".toList) = some n :=
      Text.stripEnd?_eq_some_iff.mpr rfl
    have hok : ¬ (n.isEmpty || n.any isBlank) = true := by
      simpa [hfilled] using hblank
    rw [hfile, Option.bind_eq_bind, Option.bind_some, hname, Option.bind_some, if_neg hok]
    rfl

theorem atomOf?_eq_some_iff : atomOf? line = some a ↔
    a.IsValid ∧ a.text = Text.join ['/'] ((line.splitOn '/').take 2) := by
  rw [atomOf?, Atom.parse?, toOption_eq_some_iff, Atom.parse_eq_ok_iff]

/-- A line begins with two given segments if and only if its first two make up the text of both. -/
theorem exists_splitOn_iff :
    (∃ rest, line.splitOn '/' = c :: p :: rest) ↔
      c ++ '/' :: p = Text.join ['/'] ((line.splitOn '/').take 2) := by
  constructor
  · rintro ⟨rest, hsplit⟩
    rw [hsplit]
    simp [Text.join_cons_cons]
  · intro h
    have hpiece : ∀ piece ∈ line.splitOn '/', '/' ∉ piece := fun _ => Text.not_mem_of_mem_splitOn
    match hsplit : line.splitOn '/' with
    | [] => exact absurd hsplit (Text.splitOn_ne_nil '/' line)
    | [only] =>
      rw [hsplit] at h hpiece
      have honly : c ++ '/' :: p = only := by simpa using h
      exact absurd (honly ▸ by simp) (hpiece only List.mem_cons_self)
    | first :: second :: rest =>
      rw [hsplit] at h hpiece
      have hboth : c ++ '/' :: p = first ++ '/' :: second := by simpa [Text.join_cons_cons] using h
      obtain ⟨rfl, rfl⟩ := Text.eq_of_append_sep hboth (hpiece first List.mem_cons_self)
        (hpiece second (by simp))
      exact ⟨rest, rfl⟩

theorem NamesVersion.head? (h : NamesVersion line x) : line.head? = some '=' := by
  obtain ⟨rest, hsplit⟩ := h
  rw [← Text.join_splitOn '/' line, hsplit, Text.join_cons]
  rfl

theorem text_exactly (x : Cpv) :
    (Atom.exactly x).text = ('=' :: x.category) ++ '/' :: (x.package ++ '-' :: x.fullver) := by
  simp [Atom.exactly, Atom.text, Atom.target, Atom.key, Cpv.keyOf]

theorem namesAtom_iff : NamesAtom line a ↔ eclassFolder.isPrefixOf line = false ∧ atomOf? line = some a := by
  rw [← Bool.not_eq_true, List.isPrefixOf_iff_prefix, atomOf?_eq_some_iff]
  constructor
  · rintro (⟨⟨hsegments, hcategory, hpackage, houtside⟩⟩ | hversion)
    · exact ⟨houtside, ⟨hcategory, hpackage, nofun⟩, exists_splitOn_iff.mp hsegments⟩
    · refine ⟨?_, Atom.isValid_exactly _, (text_exactly _).trans (exists_splitOn_iff.mp hversion)⟩
      rintro ⟨more, rfl⟩
      cases hversion.head?
  · rintro ⟨houtside, hvalid, htext⟩
    obtain ⟨c, p, fullver⟩ := a
    cases fullver with
    | none => exact .package ⟨exists_splitOn_iff.mpr htext, hvalid.category, hvalid.package, houtside⟩
    | some v =>
      let x : Cpv := ⟨c, p, v, hvalid.category, hvalid.package, hvalid.fullver v rfl⟩
      exact .version (exists_splitOn_iff.mpr ((text_exactly x).symm.trans htext))

theorem NamesEclass.isPrefixOf (h : NamesEclass line n) : eclassFolder.isPrefixOf line = true := by
  obtain ⟨rfl, -⟩ := h
  rw [List.isPrefixOf_iff_prefix, List.append_assoc]
  exact List.prefix_append _ _

/-! ## The targets of a comparison -/

/-- The lines of an output, without white space at either end. -/
def linesOf (output : Text) : List Text := (output.splitOn '\n').map Text.trim

/-- The atom that the last line with its key names. -/
def IsNamedLast (lines : List Text) (a : Atom) : Prop :=
  ∃ before line after, lines = before ++ line :: after ∧ NamesAtom line a ∧
    ∀ later ∈ after, ∀ b, NamesAtom later b → b.key ≠ a.key

/-- The atoms of lines, with their keys. -/
def keyedAtom? (line : Text) : Option (Text × Atom) :=
  if eclassFolder.isPrefixOf line then none else (atomOf? line).map fun a => (a.key, a)

theorem keyedAtom?_eq_some_iff {k : Text} : keyedAtom? line = some (k, a) ↔ NamesAtom line a ∧ a.key = k := by
  rw [namesAtom_iff, keyedAtom?]
  cases eclassFolder.isPrefixOf line <;> simp

variable {lines : List Text}

/-- The last atom of each key. -/
def lastAtoms (lines : List Text) : OrderedMap Text Atom := .ofList (lines.filterMap keyedAtom?)

theorem key_of_mem_lastAtoms {e : Text × Atom} (h : e ∈ (lastAtoms lines).entries) : e.2.key = e.1 := by
  obtain ⟨line, -, hkeyed⟩ := List.mem_filterMap.mp (OrderedMap.mem_of_mem_ofList h)
  exact (keyedAtom?_eq_some_iff.mp hkeyed).2

theorem isNamedLast_iff : IsNamedLast lines a ↔ (lastAtoms lines).get? a.key = some a := by
  rw [lastAtoms, OrderedMap.get?_ofList_eq_some_iff]
  constructor
  · rintro ⟨before, line, after, rfl, hnames, hlater⟩
    refine ⟨before.filterMap keyedAtom?, after.filterMap keyedAtom?, ?_, ?_⟩
    · rw [List.filterMap_append, List.filterMap_cons_some (keyedAtom?_eq_some_iff.mpr ⟨hnames, rfl⟩)]
    · rintro ⟨k, b⟩ hb
      obtain ⟨later, hmem, hkeyed⟩ := List.mem_filterMap.mp hb
      obtain ⟨hnamed, rfl⟩ := keyedAtom?_eq_some_iff.mp hkeyed
      exact hlater later hmem b hnamed
  · rintro ⟨first, rest, hsplit, hrest⟩
    obtain ⟨before, more, rfl, rfl, hmore⟩ := List.filterMap_eq_append_iff.mp hsplit
    obtain ⟨skipped, line, after, rfl, -, hline, rfl⟩ := List.filterMap_eq_cons_iff.mp hmore
    refine ⟨before ++ skipped, line, after, by simp, (keyedAtom?_eq_some_iff.mp hline).1, ?_⟩
    intro later hmem b hb
    exact hrest (b.key, b) (List.mem_filterMap.mpr ⟨later, hmem, keyedAtom?_eq_some_iff.mpr ⟨hb, rfl⟩⟩)

theorem exists_isNamedLast (hline : line ∈ lines) (h : NamesAtom line a) :
    ∃ b, IsNamedLast lines b ∧ b.key = a.key := by
  have hpair : (a.key, a) ∈ lines.filterMap keyedAtom? :=
    List.mem_filterMap.mpr ⟨line, hline, keyedAtom?_eq_some_iff.mpr ⟨h, rfl⟩⟩
  obtain ⟨b, hb⟩ := OrderedMap.exists_mem_ofList hpair
  have hkey := key_of_mem_lastAtoms hb
  rw [OrderedMap.mem_entries_iff, ← hkey] at hb
  exact ⟨b, isNamedLast_iff.mpr hb, hkey⟩

/-- The eclasses that a scope is restricted to. -/
def eclasses : Scope → List Text
  | empty _ => []
  | changed _ targets => targets.eclasses

variable {ref output : Text} {scope : Scope}

theorem packages_ofDiff_eq : (ofDiff ref output).packages =
    ((lastAtoms (linesOf output)).entries.map Prod.snd).mergeSort fun a b => Text.le a.key b.key := by
  have hkeyed : ((output.filledLines.filter fun path => !eclassFolder.isPrefixOf path).filterMap atomOf?).map
      (fun a => (a.key, a)) = (linesOf output).filterMap keyedAtom? := by
    rw [List.map_filterMap, List.filterMap_filter, Text.filledLines, List.filterMap_filter]
    refine List.filterMap_congr fun line _ => ?_
    cases line with
    | nil => rfl
    | cons c rest =>
      rw [keyedAtom?]
      cases eclassFolder.isPrefixOf (c :: rest) <;> rfl
  rw [packages_ofDiff, packageAtoms, hkeyed]
  rfl

theorem mem_packages_ofDiff : a ∈ (ofDiff ref output).packages ↔ IsNamedLast (linesOf output) a := by
  rw [packages_ofDiff_eq, List.mem_mergeSort, isNamedLast_iff, ← OrderedMap.mem_entries_iff]
  constructor
  · intro h
    obtain ⟨e, he, rfl⟩ := List.mem_map.mp h
    rwa [key_of_mem_lastAtoms he]
  · exact fun h => List.mem_map.mpr ⟨_, h, rfl⟩

theorem pairwise_packages_ofDiff :
    (ofDiff ref output).packages.Pairwise fun a b => Text.compare a.key b.key = .lt := by
  have hkeys : ((lastAtoms (linesOf output)).entries.map Prod.snd).map Atom.key =
      (lastAtoms (linesOf output)).keys := by
    rw [List.map_map]
    exact List.map_congr_left fun e he => key_of_mem_lastAtoms he
  rw [packages_ofDiff_eq, ← List.pairwise_map (f := Atom.key) (R := fun s t => Text.compare s t = .lt),
    List.map_mergeSort (s := Text.le) (fun a _ b _ => rfl), hkeys]
  exact Text.pairwise_mergeSort (OrderedMap.nodup _)

theorem eclasses_ofDiff_eq : (ofDiff ref output).eclasses =
    eclassNames (output.filledLines.filter eclassFolder.isPrefixOf) := by
  rw [ofDiff]
  split
  · next hnone =>
    rw [Bool.and_eq_true, List.isEmpty_iff, List.isEmpty_iff] at hnone
    exact hnone.2.symm
  · rfl

theorem mem_eclasses_ofDiff :
    n ∈ (ofDiff ref output).eclasses ↔ ∃ line ∈ linesOf output, NamesEclass line n := by
  rw [eclasses_ofDiff_eq, eclassNames, Text.mem_sortDistinct, List.mem_filterMap]
  constructor
  · rintro ⟨line, hline, hname⟩
    have hfilled := List.mem_of_mem_filter (List.mem_of_mem_filter hline)
    exact ⟨line, hfilled, eclassOf?_eq_some_iff.mp hname⟩
  · rintro ⟨line, hline, hname⟩
    refine ⟨line, List.mem_filter.mpr ⟨List.mem_filter.mpr ⟨hline, ?_⟩, hname.isPrefixOf⟩,
      eclassOf?_eq_some_iff.mpr hname⟩
    obtain ⟨rfl, -⟩ := hname
    rfl

theorem ofDiff_eq_empty_iff :
    ofDiff ref output = .empty ref ↔ (ofDiff ref output).packages = [] ∧ (ofDiff ref output).eclasses = [] := by
  rw [ofDiff]
  split
  · exact ⟨fun _ => ⟨rfl, rfl⟩, fun _ => rfl⟩
  · next hsome =>
    rw [Bool.and_eq_true, List.isEmpty_iff, List.isEmpty_iff] at hsome
    refine ⟨fun h => ?_, fun hnone => absurd hnone hsome⟩
    cases h

/-! ## What a scope matches -/

def MatchesPackage (scope : Scope) (x : Cpv) : Prop :=
  ∃ atoms, .packages atoms ∈ scope.restrictions ∧ admitsPackage atoms x = true

def MatchesEclass (scope : Scope) (n : Text) : Prop :=
  ∃ names, .eclasses names ∈ scope.restrictions ∧ admitsEclass names n = true

theorem matchesPackage_iff : scope.MatchesPackage x ↔ ∃ a ∈ scope.packages, a.isMatch x = true := by
  unfold MatchesPackage admitsPackage
  simp only [List.any_eq_true]
  cases scope with
  | empty ref => simp [restrictions, packages]
  | changed ref targets =>
    obtain ⟨atoms, names⟩ := targets
    cases atoms <;> cases names <;> simp [restrictions, packages]

theorem matchesEclass_iff : scope.MatchesEclass n ↔ n ∈ scope.eclasses := by
  unfold MatchesEclass admitsEclass
  simp only [List.contains_iff_mem]
  cases scope with
  | empty ref => simp [restrictions, eclasses]
  | changed ref targets =>
    obtain ⟨atoms, names⟩ := targets
    cases atoms <;> cases names <;> simp [restrictions, eclasses]

/-! ## Scopes of lines -/

/-- A scope with the eclasses that lines name and with the last atom of each package that they name. -/
structure IsScopeOf (lines : List Text) (ref : Text) (scope : Scope) : Prop where
  ref_eq : scope.ref = ref
  empty_iff : scope = .empty ref ↔ ∀ line ∈ lines, (∀ n, ¬ NamesEclass line n) ∧ ∀ a, ¬ NamesAtom line a
  packages_ascending : scope.packages.Pairwise fun a b => Text.compare a.key b.key = .lt
  mem_packages : ∀ a, a ∈ scope.packages ↔ IsNamedLast lines a
  eclasses_ascending : scope.eclasses.Pairwise fun m n => Text.compare m n = .lt
  mem_eclasses : ∀ n, n ∈ scope.eclasses ↔ ∃ line ∈ lines, NamesEclass line n
  matches_package : ∀ x, scope.MatchesPackage x ↔ ∃ a, IsNamedLast lines a ∧ a.isMatch x = true
  matches_eclass : ∀ n, scope.MatchesEclass n ↔ ∃ line ∈ lines, NamesEclass line n

/-- A scope with the packages that lines name, each with all its versions. -/
structure HasWholePackages (lines : List Text) (ref : Text) (scope : Scope) : Prop where
  empty_iff : scope = .empty ref ↔
    ∀ line ∈ lines, (∀ n, ¬ NamesEclass line n) ∧ ∀ c p, ¬ NamesPackage line c p
  mem_packages : ∀ a, a ∈ scope.packages ↔
    a.fullver = none ∧ ∃ line ∈ lines, NamesPackage line a.category a.package
  matches_package : ∀ x : Cpv, scope.MatchesPackage x ↔ ∃ line ∈ lines, NamesPackage line x.category x.package

theorem isScopeOf_ofDiff (ref output : Text) : IsScopeOf (linesOf output) ref (ofDiff ref output) where
  ref_eq := by
    rw [ofDiff]
    split <;> rfl
  empty_iff := by
    rw [ofDiff_eq_empty_iff]
    constructor
    · rintro ⟨hpackages, heclasses⟩ line hline
      refine ⟨fun n hn => ?_, fun a ha => ?_⟩
      · have hmem : n ∈ (ofDiff ref output).eclasses := mem_eclasses_ofDiff.mpr ⟨line, hline, hn⟩
        rw [heclasses] at hmem
        cases hmem
      · obtain ⟨b, hb, -⟩ := exists_isNamedLast hline ha
        have hmem : b ∈ (ofDiff ref output).packages := mem_packages_ofDiff.mpr hb
        rw [hpackages] at hmem
        cases hmem
    · intro hnone
      simp only [List.eq_nil_iff_forall_not_mem]
      refine ⟨fun a ha => ?_, fun n hn => ?_⟩
      · obtain ⟨before, line, after, hlines, hnames, -⟩ := mem_packages_ofDiff.mp ha
        exact (hnone line (by simp [hlines])).2 a hnames
      · obtain ⟨line, hline, hnames⟩ := mem_eclasses_ofDiff.mp hn
        exact (hnone line hline).1 n hnames
  packages_ascending := pairwise_packages_ofDiff
  mem_packages a := mem_packages_ofDiff
  eclasses_ascending := by
    rw [eclasses_ofDiff_eq]
    exact Text.pairwise_sortDistinct _
  mem_eclasses n := mem_eclasses_ofDiff
  matches_package x := by
    rw [matchesPackage_iff]
    simp only [mem_packages_ofDiff]
  matches_eclass n := matchesEclass_iff.trans mem_eclasses_ofDiff

section Whole

variable (hversion : ∀ line ∈ lines, ∀ x, ¬ NamesVersion line x)
include hversion

theorem whole_of_namesAtom (hline : line ∈ lines) (ha : NamesAtom line a) :
    a.fullver = none ∧ NamesPackage line a.category a.package := by
  cases ha with
  | package hp => exact ⟨rfl, hp⟩
  | version hx => exact absurd hx (hversion line hline _)

theorem isNamedLast_whole_iff :
    IsNamedLast lines a ↔ a.fullver = none ∧ ∃ line ∈ lines, NamesPackage line a.category a.package := by
  constructor
  · rintro ⟨before, line, after, rfl, ha, -⟩
    have hline : line ∈ before ++ line :: after := by simp
    obtain ⟨hwhole, hp⟩ := whole_of_namesAtom hversion hline ha
    exact ⟨hwhole, line, hline, hp⟩
  · rintro ⟨hwhole, line, hline, hp⟩
    obtain ⟨c, p, fullver⟩ := a
    cases hwhole
    -- The last atom of the key is this one, since it is of the same package and has no version either.
    obtain ⟨⟨c', p', fullver'⟩, hb, hkey⟩ := exists_isNamedLast hline (.package hp)
    obtain ⟨before, last, after, rfl, hbnames, -⟩ := id hb
    obtain ⟨hbwhole, hbp⟩ := whole_of_namesAtom hversion (by simp) hbnames
    obtain ⟨hc, hn⟩ := Text.eq_of_append_sep hkey (isSolid_of_isCategory hp.category).slash
      (isSolid_of_isPackageName hp.package).slash
    cases hbwhole
    cases hc
    cases hn
    exact hb

/-- Where no line names a single version, each package that is named is there as a whole. -/
theorem IsScopeOf.hasWholePackages (h : IsScopeOf lines ref scope) : HasWholePackages lines ref scope where
  empty_iff := by
    rw [h.empty_iff]
    refine forall₂_congr fun line hline => and_congr_right fun _ => ?_
    exact ⟨fun hnone c p hp => hnone _ (.package hp),
      fun hnone a ha => hnone _ _ (whole_of_namesAtom hversion hline ha).2⟩
  mem_packages a := (h.mem_packages a).trans (isNamedLast_whole_iff hversion)
  matches_package x := by
    rw [h.matches_package]
    constructor
    · rintro ⟨a, ha, hmatch⟩
      obtain ⟨-, line, hline, hp⟩ := (isNamedLast_whole_iff hversion).mp ha
      obtain ⟨hc, hn, -⟩ := Atom.isMatch_iff.mp hmatch
      exact ⟨line, hline, hc ▸ hn ▸ hp⟩
    · rintro ⟨line, hline, hp⟩
      exact ⟨⟨x.category, x.package, none⟩, (isNamedLast_whole_iff hversion).mpr ⟨rfl, line, hline, hp⟩,
        Atom.isMatch_iff.mpr ⟨rfl, rfl, nofun⟩⟩

end Whole

/-! ## Scopes of comparisons -/

variable {repo : Repository} {w : World}

/-- The command that a repository is compared with. -/
def comparison (repo : Repository) (ref : Text) (d : Disk) : GitCall :=
  ⟨.run, diffArgs ref (targetFolders repo d), repo.location⟩

/-- A comparison with a ref that comes about and prints something. -/
structure Compares (repo : Repository) (ref : Text) (w : World) (output : Text) : Prop where
  available : w.git.available = true
  looks : ∃ found, hasEclasses repo.location w = (.ok found, w)
  prints : w.git.run w.calls (comparison repo ref w.disk) = .ok output

theorem resolve_of_compares (h : Compares repo ref w output) :
    resolve repo ref w = (.ok (ofDiff ref output), w.asked (comparison repo ref w.disk)) := by
  obtain ⟨havailable, ⟨found, hfound⟩, hprints⟩ := h
  have hgit : Action.gitAvailable w = (.ok true, w) := by rw [← havailable]; rfl
  have hfolder : hasEclasses repo.location w = (.ok (hasEclassFolder w.disk repo.location), w) := by
    rcases hasEclasses_cases repo.location w with hfolder | ⟨e, hfails⟩
    · exact hfolder
    · rw [hfails] at hfound
      cases hfound
  have hrun : (Action.runGit (diffArgs ref (targetFolders repo w.disk)) repo.location).attempt w =
      (.ok (.ok output), w.asked (comparison repo ref w.disk)) := by
    rw [Action.attempt_apply, Action.runGit_apply]
    exact congrArg (fun o => (Except.ok o, w.asked (comparison repo ref w.disk))) hprints
  unfold targetFolders eclassName at hrun
  rw [resolve, Action.bind_of_ok hgit, if_neg nofun]
  dsimp only
  rw [Action.bind_of_ok hfolder, Action.bind_of_ok hrun]
  rfl

/-- A comparison that comes about leads to the scope of its lines, and to the scope of just the packages and eclasses
that they name where no line names a single version. -/
theorem resolve_exact (h : Compares repo ref w output) :
    ∃ scope, resolve repo ref w = (.ok scope, w.asked (comparison repo ref w.disk)) ∧
      IsScopeOf (linesOf output) ref scope ∧
      ((∀ line ∈ linesOf output, ∀ x, ¬ NamesVersion line x) →
        HasWholePackages (linesOf output) ref scope) :=
  ⟨ofDiff ref output, resolve_of_compares h, isScopeOf_ofDiff ref output,
    fun hversion => (isScopeOf_ofDiff ref output).hasWholePackages hversion⟩

/-! ## Two outputs -/

/-- Git is there, and prints one thing whatever it is asked. -/
def printingWorld (output : Text) : World where
  git := { run := fun _ _ => .ok output, stream := fun _ _ => ⟨[], none⟩, available := true }
  disk := Disk.empty []
  stamp := "1".toList

theorem compares_printingWorld (output : Text) :
    Compares (repoOf ["dev-libs".toList]) defaultRef (printingWorld output) output where
  available := rfl
  looks := ⟨false, rfl⟩
  prints := rfl

theorem isCategory_devLibs : isCategory "dev-libs".toList = true := by decide

theorem isPackageName_foo : isPackageName "foo".toList = true := by decide +kernel

def ebuildAndEclass : Text := "dev-libs/foo/foo-1.ebuild\neclass/bar.eclass\n".toList

theorem resolve_exact_ebuildAndEclass :
    Compares (repoOf ["dev-libs".toList]) defaultRef (printingWorld ebuildAndEclass) ebuildAndEclass ∧
    (∀ line ∈ linesOf ebuildAndEclass, ∀ x, ¬ NamesVersion line x) ∧
    ∃ scope w', resolve (repoOf ["dev-libs".toList]) defaultRef (printingWorld ebuildAndEclass) =
        (.ok scope, w') ∧
      ⟨"dev-libs".toList, "foo".toList, none⟩ ∈ scope.packages ∧ scope.MatchesEclass "bar".toList := by
  have hcompares := compares_printingWorld ebuildAndEclass
  have hversion : ∀ line ∈ linesOf ebuildAndEclass, ∀ x, ¬ NamesVersion line x := by
    have hhead : ∀ line ∈ linesOf ebuildAndEclass, line.head? ≠ some '=' := by decide +kernel
    exact fun line hline x hx => hhead line hline hx.head?
  obtain ⟨scope, hresolve, hscope, hwhole⟩ := resolve_exact hcompares
  refine ⟨hcompares, hversion, scope, _, hresolve, ?_, ?_⟩
  · refine ((hwhole hversion).mem_packages _).mpr
      ⟨rfl, "dev-libs/foo/foo-1.ebuild".toList, by decide +kernel, ?_⟩
    exact ⟨⟨["foo-1.ebuild".toList], by decide⟩, isCategory_devLibs, isPackageName_foo, by decide⟩
  · refine (hscope.matches_eclass _).mpr ⟨"eclass/bar.eclass".toList, by decide +kernel, ?_⟩
    exact eclassOf?_eq_some_iff.mp (by decide)

/-- An ebuild of a package, then a file below a folder whose name begins with an equals sign. -/
def ebuildAndVersion : Text := "dev-libs/foo/foo-1.ebuild\n=dev-libs/foo-1/x\n".toList

def fooVersion (v : Text) (hv : Version.isValid v = true) : Cpv :=
  ⟨"dev-libs".toList, "foo".toList, v, isCategory_devLibs, isPackageName_foo, hv⟩

/-- The second line narrows the package of the first one to a single version. -/
theorem resolve_narrowed :
    Compares (repoOf ["dev-libs".toList]) defaultRef (printingWorld ebuildAndVersion) ebuildAndVersion ∧
    (∃ line ∈ linesOf ebuildAndVersion, NamesPackage line "dev-libs".toList "foo".toList) ∧
    ∃ scope w', resolve (repoOf ["dev-libs".toList]) defaultRef (printingWorld ebuildAndVersion) =
        (.ok scope, w') ∧
      ⟨"dev-libs".toList, "foo".toList, some "1".toList⟩ ∈ scope.packages ∧
      ∃ x : Cpv, x.category = "dev-libs".toList ∧ x.package = "foo".toList ∧ ¬ scope.MatchesPackage x := by
  have hcompares := compares_printingWorld ebuildAndVersion
  have hone : Version.isValid "1".toList = true := by decide +kernel
  have htwo : Version.isValid "2".toList = true := by decide +kernel
  have hlast : IsNamedLast (linesOf ebuildAndVersion) (Atom.exactly (fooVersion "1".toList hone)) := by
    refine ⟨["dev-libs/foo/foo-1.ebuild".toList], "=dev-libs/foo-1/x".toList, [[]], by decide +kernel,
      .version ⟨["x".toList], rfl⟩, fun later hlater b hb => ?_⟩
    rw [List.mem_singleton.mp hlater, namesAtom_iff] at hb
    cases hb.2
  have hscope := isScopeOf_ofDiff defaultRef ebuildAndVersion
  refine ⟨hcompares, ⟨"dev-libs/foo/foo-1.ebuild".toList, by decide +kernel, ?_⟩, _, _,
    resolve_of_compares hcompares, (hscope.mem_packages _).mpr hlast, fooVersion "2".toList htwo, rfl, rfl,
    fun hmatches => ?_⟩
  · exact ⟨⟨["foo-1.ebuild".toList], by decide⟩, isCategory_devLibs, isPackageName_foo, by decide⟩
  · obtain ⟨a, ha, hmatch⟩ := (hscope.matches_package _).mp hmatches
    obtain ⟨hc, hp, hv⟩ := Atom.isMatch_iff.mp hmatch
    have hkey : a.key = (Atom.exactly (fooVersion "1".toList hone)).key := congrArg₂ Cpv.keyOf hc hp
    rw [isNamedLast_iff] at ha hlast
    rw [hkey, hlast] at ha
    cases ha
    cases hv _ rfl

end Scope

end PackageHistory
