import PackageHistory.Proofs.Atom
import PackageHistory.Proofs.OrderedMap
import PackageHistory.Proofs.Path.Resolve
import PackageHistory.Scope

/-!
# The packages of a scope

Each package of a scope comes from a line of output. A line that begins with a category stands for a package
of that category, or for none.
-/

namespace PackageHistory

/-! ## From lines to packages -/

namespace Scope

variable {category name t : Text} {a : Atom}

theorem atomOf?_of_isSolid (h : IsSolid t) : atomOf? t = none := by
  have hhead := Atom.head?_of_isSolid h []
  rw [List.append_nil] at hhead
  have hparse := Atom.parse_of_head? hhead
  rw [Text.splitOn_of_not_mem h.slash] at hparse
  have hsegments : Text.join ['/'] ([t].take 2) = t := by simp
  rw [atomOf?, Text.splitOn_of_not_mem h.slash, hsegments, Atom.parse?, hparse]
  rfl

/-- Below a category the next segment is the package, if it can be one. -/
theorem atomOf?_below (h : isCategory category = true) (t : Text) :
    ∃ segment rest, t.splitOn '/' = segment :: rest ∧ atomOf? (category ++ '/' :: t) =
      if isPackageName segment = true then some ⟨category, segment, none⟩ else none := by
  have hsolid := isSolid_of_isCategory h
  obtain ⟨segment, rest, hsplit⟩ := List.exists_cons_of_ne_nil (Text.splitOn_ne_nil '/' t)
  have hslash : '/' ∉ segment := Text.not_mem_of_mem_splitOn (hsplit ▸ List.mem_cons_self)
  have hsegments : (category ++ '/' :: t).splitOn '/' = category :: segment :: rest := by
    rw [Text.splitOn_append_sep, Text.splitOn_of_not_mem hsolid.slash, hsplit]
    rfl
  have htwo : Text.join ['/'] ((category :: segment :: rest).take 2) = category ++ '/' :: segment := by
    simp [Text.join_cons_cons]
  have hparse := Atom.parse_of_head? (Atom.head?_of_isSolid hsolid ('/' :: segment))
  rw [Text.splitOn_append_sep, Text.splitOn_of_not_mem hsolid.slash,
    Text.splitOn_of_not_mem hslash] at hparse
  refine ⟨segment, rest, hsplit, ?_⟩
  rw [atomOf?, hsegments, htwo, Atom.parse?, hparse]
  simp only [List.singleton_append, h]
  cases isPackageName segment <;> rfl

/-! ## Packages of a scope -/

theorem isValid_of_atomOf? (h : atomOf? t = some a) : a.IsValid := by
  rw [atomOf?, Atom.parse?] at h
  cases hparse : Atom.parse (Text.join ['/'] ((t.splitOn '/').take 2)) with
  | error e => rw [hparse] at h; cases h
  | ok b =>
    rw [hparse] at h
    cases h
    exact (Atom.parse_eq_ok_iff.mp hparse).1

theorem exists_of_mem_packageAtoms {paths : List Text} (h : a ∈ packageAtoms paths) :
    ∃ path ∈ paths, atomOf? path = some a := by
  rw [packageAtoms, List.mem_mergeSort, List.mem_map] at h
  obtain ⟨x, hx, rfl⟩ := h
  obtain ⟨b, hb, rfl⟩ := List.mem_map.mp (OrderedMap.mem_of_mem_ofList hx)
  exact List.mem_filterMap.mp hb

theorem exists_mem_packageAtoms {paths : List Text} {path : Text} (hpath : path ∈ paths)
    (ha : atomOf? path = some ⟨category, name, none⟩) :
    ∃ a ∈ packageAtoms paths, a.category = category ∧ a.package = name := by
  have hmem : (Cpv.keyOf category name, (⟨category, name, none⟩ : Atom)) ∈
      (paths.filterMap atomOf?).map fun a => (a.key, a) :=
    List.mem_map.mpr ⟨_, List.mem_filterMap.mpr ⟨path, hpath, ha⟩, rfl⟩
  obtain ⟨b, hb⟩ := OrderedMap.exists_mem_ofList hmem
  have hin : b ∈ packageAtoms paths := by
    rw [packageAtoms, List.mem_mergeSort]
    exact List.mem_map_of_mem hb
  -- The pair in the map is one of those that were put there, so its key is that of its atom.
  obtain ⟨b', hb', heq⟩ := List.mem_map.mp (OrderedMap.mem_of_mem_ofList hb)
  obtain ⟨hkey, rfl⟩ := Prod.mk.inj heq
  have hvalid := isValid_of_atomOf? ha
  obtain ⟨hc, hn⟩ := Text.eq_of_append_sep hkey (isSolid_of_isCategory hvalid.category).slash
    (isSolid_of_isPackageName hvalid.package).slash
  exact ⟨b', hin, hc, hn⟩

/-- The packages that a scope is restricted to. -/
def packages : Scope → List Atom
  | empty _ => []
  | changed _ targets => targets.packages

theorem packages_ofDiff (ref output : Text) : (ofDiff ref output).packages =
    packageAtoms (output.filledLines.filter fun path => !eclassFolder.isPrefixOf path) := by
  rw [ofDiff]
  split
  · next hnone =>
    rw [Bool.and_eq_true, List.isEmpty_iff] at hnone
    exact hnone.1.symm
  · rfl

/-! ## Lines of changed paths -/

/-- A changed path, as it is printed. -/
abbrev lineOf (p : Path) : Text := Text.join ['/'] p

/-- The first name of a path stands as it is in a line that white space was taken from. -/
theorem lineOf_cases (h : IsSolid t) (rest : Path) :
    Text.trim (lineOf (t :: rest)) = Text.trimEnd (lineOf (t :: rest)) ∧
      (rest = [] ∧ Text.trimEnd (lineOf (t :: rest)) = t ∨
        ∃ next more, rest = next :: more ∧ Text.trimEnd (lineOf (t :: rest)) =
          t ++ '/' :: Text.trimEnd (lineOf (next :: more))) := by
  cases rest with
  | nil =>
    have hline : lineOf [t] = t := by simp [lineOf]
    rw [hline]
    exact ⟨by simpa using h.trim_append [], .inl ⟨rfl, h.trimEnd_eq⟩⟩
  | cons next more =>
    have hline : lineOf (t :: next :: more) = t ++ '/' :: lineOf (next :: more) := by
      rw [lineOf, Text.join_cons_cons, List.append_assoc]
      rfl
    rw [hline]
    exact ⟨h.trim_append _, .inr ⟨next, more, rfl, Text.trimEnd_slash t _⟩⟩

/-- A line that begins with a category stands for a package of that category, if for any. -/
theorem category_of_atomOf? (h : isCategory category = true) {rest : Path}
    (ha : atomOf? (lineOf (category :: rest)).trim = some a) :
    a.category = category ∧ ∃ t, (lineOf (category :: rest)).trim = category ++ '/' :: t := by
  have hsolid := isSolid_of_isCategory h
  obtain ⟨htrim, ⟨-, hline⟩ | ⟨next, more, -, hline⟩⟩ := lineOf_cases hsolid rest
  · rw [htrim, hline, atomOf?_of_isSolid hsolid] at ha
    cases ha
  · rw [htrim, hline] at ha ⊢
    refine ⟨?_, _, rfl⟩
    obtain ⟨segment, rest, -, hatom⟩ := atomOf?_below h (Text.trimEnd (lineOf (next :: more)))
    rw [hatom] at ha
    split at ha
    · cases ha
      rfl
    · cases ha

/-- A line that goes on from a category to a package stands for that package. -/
theorem atomOf?_lineOf (hc : isCategory category = true) (hn : isPackageName name = true) (rest : Path) :
    ∃ t, (lineOf (category :: name :: rest)).trim = category ++ '/' :: t ∧
      atomOf? (category ++ '/' :: t) = some ⟨category, name, none⟩ := by
  obtain ⟨htrim, ⟨hnil, -⟩ | ⟨next, more, heq, hline⟩⟩ :=
    lineOf_cases (isSolid_of_isCategory hc) (name :: rest)
  · cases hnil
  cases heq
  refine ⟨_, htrim.trans hline, ?_⟩
  have hsolid := isSolid_of_isPackageName hn
  obtain ⟨segment, others, hsplit, hatom⟩ := atomOf?_below hc (Text.trimEnd (lineOf (name :: rest)))
  have hsegment : segment = name := by
    obtain ⟨-, ⟨-, hend⟩ | ⟨next, more, -, hend⟩⟩ := lineOf_cases hsolid rest
    · rw [hend, Text.splitOn_of_not_mem hsolid.slash] at hsplit
      exact (List.cons.inj hsplit).1.symm
    · rw [hend, Text.splitOn_append_sep, Text.splitOn_of_not_mem hsolid.slash] at hsplit
      exact (List.cons.inj hsplit).1.symm
  rw [hatom, hsegment, if_pos hn]

end Scope

end PackageHistory
