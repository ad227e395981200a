import PackageHistory.Atom
import PackageHistory.Proofs.Cpv

/-!
# Texts of atoms

An atom reads back from its text, and nothing else is read from a text than the atom that it is of. The text of
a package version is not that of a package, so an atom means one version or all of them, never both.
-/

namespace PackageHistory

/-! ## Names that end in a version -/

theorem endsInVersion_append {v : Text} (hv : Version.isValid v = true) (p : Text) :
    endsInVersion (p ++ '-' :: v) = true := by
  induction p with
  | nil => simp [endsInVersion, hv]
  | cons c rest ih => simp [endsInVersion, ih]

theorem not_isPackageName_append {v : Text} (hv : Version.isValid v = true) (p : Text) :
    isPackageName (p ++ '-' :: v) = false := by
  unfold isPackageName
  rw [endsInVersion_append hv, Bool.not_true, Bool.and_false]

namespace Atom

variable {a b : Atom} {t category name : Text} {x : Cpv}

/-! ## Valid atoms -/

structure IsValid (a : Atom) : Prop where
  category : isCategory a.category = true
  package : isPackageName a.package = true
  fullver : ∀ v, a.fullver = some v → Version.isValid v = true

def exactly (x : Cpv) : Atom := ⟨x.category, x.package, some x.fullver⟩

theorem isValid_exactly (x : Cpv) : (exactly x).IsValid where
  category := x.category_valid
  package := x.package_valid
  fullver v hv := by
    cases hv
    exact x.fullver_valid

/-! ## Reading a text -/

theorem parse_of_head? (h : t.head? ≠ some '=') :
    parse t =
      match t.splitOn '/' with
      | [category, package] =>
        if !isCategory category then .error ⟨t, .category category⟩
        else if !isPackageName package then .error ⟨t, .package package⟩
        else .ok ⟨category, package, none⟩
      | _ => .error ⟨t, .noCategoryPackage⟩ := by
  unfold parse
  split
  · next rest => exact absurd rfl h
  · rfl

theorem head?_of_isSolid (h : IsSolid category) (rest : Text) : (category ++ rest).head? ≠ some '=' := by
  obtain ⟨c, more, rfl, hc⟩ := h.first
  rintro heq
  cases heq
  revert hc
  decide

theorem parse_exactly (x : Cpv) : parse ('=' :: x.text) = .ok (exactly x) := by
  show (Cpv.parse x.text).map _ = _
  rw [Cpv.parse_eq_ok_iff.mpr rfl]
  rfl

theorem parse_keyOf (hcategory : isCategory category = true) (hname : isPackageName name = true) :
    parse (Cpv.keyOf category name) = .ok ⟨category, name, none⟩ := by
  have hsplit : (Cpv.keyOf category name).splitOn '/' = [category, name] := by
    rw [Cpv.keyOf, Text.splitOn_append_sep,
      Text.splitOn_of_not_mem (isSolid_of_isCategory hcategory).slash,
      Text.splitOn_of_not_mem (isSolid_of_isPackageName hname).slash]
    rfl
  have hhead : (Cpv.keyOf category name).head? ≠ some '=' :=
    head?_of_isSolid (isSolid_of_isCategory hcategory) _
  rw [parse_of_head? hhead, hsplit]
  simp [hcategory, hname]

/-- A text reads as the valid atom that it is the text of. -/
theorem parse_eq_ok_iff : parse t = .ok a ↔ a.IsValid ∧ a.text = t := by
  constructor
  · intro h
    unfold parse at h
    split at h
    · next rest =>
      cases hread : Cpv.parse rest with
      | error e => rw [hread] at h; cases h
      | ok x =>
        rw [hread] at h
        cases h
        exact ⟨isValid_exactly x, by rw [← Cpv.parse_eq_ok_iff.mp hread]; rfl⟩
    · split at h
      · next category name hsplit =>
        split at h
        · cases h
        · next hcategory =>
          split at h
          · cases h
          · next hname =>
            cases h
            have hjoin := Text.join_splitOn '/' t
            rw [hsplit, Text.join_cons] at hjoin
            exact ⟨⟨by simpa using hcategory, by simpa using hname, nofun⟩, by
              simpa [text, key, Cpv.keyOf] using hjoin⟩
      · cases h
  · rintro ⟨hvalid, rfl⟩
    obtain ⟨category, name, fullver⟩ := a
    cases fullver with
    | none => exact parse_keyOf hvalid.category hvalid.package
    | some v => exact parse_exactly ⟨category, name, v, hvalid.category, hvalid.package, hvalid.fullver v rfl⟩

theorem eq_of_text (ha : a.IsValid) (hb : b.IsValid) (h : a.text = b.text) : a = b := by
  have hread : parse b.text = .ok a := parse_eq_ok_iff.mpr ⟨ha, h⟩
  rw [parse_eq_ok_iff.mpr ⟨hb, rfl⟩] at hread
  exact (Except.ok.inj hread).symm

/-- What the text of a package version reads as, if as anything, is not a package as a whole. -/
theorem fullver_ne_none (hread : parse x.text = .ok a) : a.fullver ≠ none := by
  intro hnone
  obtain ⟨hvalid, htext⟩ := parse_eq_ok_iff.mp hread
  have hkey : x.category ++ '/' :: (x.package ++ '-' :: x.fullver) =
      a.category ++ '/' :: a.package := by
    simpa [text, hnone, key, Cpv.keyOf, Cpv.text, Cpv.textOf] using htext.symm
  obtain ⟨-, hname⟩ := Text.eq_of_append_sep hkey (isSolid_of_isCategory hvalid.category).slash
    (isSolid_of_isPackageName hvalid.package).slash
  have hnot := hvalid.package
  rw [← hname, not_isPackageName_append x.fullver_valid] at hnot
  cases hnot

/-! ## Matching -/

theorem isMatch_iff : a.isMatch x = true ↔
    a.category = x.category ∧ a.package = x.package ∧ ∀ v, a.fullver = some v → v = x.fullver := by
  obtain ⟨category, name, fullver⟩ := a
  cases fullver <;> simp [isMatch, admits, and_assoc]

theorem isMatch_exactly {y : Cpv} : (exactly x).isMatch y = true ↔ x.text = y.text := by
  rw [isMatch_iff]
  constructor
  · rintro ⟨hcategory, hpackage, hfullver⟩
    rw [Cpv.eq_of_parts hcategory hpackage (hfullver _ rfl)]
  · intro h
    obtain rfl := Cpv.text_injective h
    exact ⟨rfl, rfl, fun v hv => (Option.some.inj hv).symm⟩

theorem isMatch_key {y : Cpv} :
    (⟨x.category, x.package, none⟩ : Atom).isMatch y = true ↔ x.key = y.key := by
  rw [isMatch_iff]
  constructor
  · rintro ⟨hcategory, hpackage, -⟩
    exact congrArg₂ Cpv.keyOf hcategory hpackage
  · intro h
    obtain ⟨hcategory, hpackage⟩ := Text.eq_of_append_sep h
      (isSolid_of_isCategory y.category_valid).slash (isSolid_of_isPackageName y.package_valid).slash
    exact ⟨hcategory, hpackage, nofun⟩

/-- Atoms that were read print as what they were read from, so they are the same when their parts are. The atom
of a package version matches what has its text, the atom of a package what has its key, and no text is both a
package version and an atom of all versions. -/
theorem parse_matches_exactly :
    (∀ t a, parse t = .ok a → a.text = t) ∧
    (∀ s t a b, parse s = .ok a → parse t = .ok b →
      (a.isSame b = true ↔ a.category = b.category ∧ a.package = b.package ∧ a.fullver = b.fullver)) ∧
    (∀ x : Cpv, ∃ a, parse ('=' :: x.text) = .ok a ∧ ∀ y, a.isMatch y = true ↔ x.text = y.text) ∧
    (∀ x : Cpv, ∃ a, parse x.key = .ok a ∧ ∀ y, a.isMatch y = true ↔ x.key = y.key) ∧
    (∀ t x a, Cpv.parse t = .ok x → parse t = .ok a → a.fullver ≠ none) := by
  refine ⟨fun t a h => (parse_eq_ok_iff.mp h).2, ?_, fun x => ?_, fun x => ?_, ?_⟩
  · intro s t a b ha hb
    have hsame : a.isSame b = true ↔ a.text = b.text := decide_eq_true_iff
    rw [hsame]
    constructor
    · intro h
      obtain rfl := eq_of_text (parse_eq_ok_iff.mp ha).1 (parse_eq_ok_iff.mp hb).1 h
      exact ⟨rfl, rfl, rfl⟩
    · rintro ⟨hcategory, hpackage, hfullver⟩
      simp only [text, target, key, hcategory, hpackage, hfullver]
  · exact ⟨exactly x, parse_exactly x, fun y => isMatch_exactly⟩
  · exact ⟨_, parse_keyOf x.category_valid x.package_valid, fun y => isMatch_key⟩
  · intro t x a hx ha
    rw [← Cpv.parse_eq_ok_iff.mp hx] at ha
    exact fullver_ne_none ha

/-- A name that goes on like a version, before a version with a revision. -/
theorem parse_matches_dashed :
    ∃ a b, parse "=dev-libs/foo-1x2-1-r2".toList = .ok a ∧ parse "dev-libs/foo-1x2".toList = .ok b ∧
      a.isSame b = false ∧ a.text = "=dev-libs/foo-1x2-1-r2".toList ∧
      ∀ x, Cpv.parse "dev-libs/foo-1x2".toList ≠ .ok x := by
  obtain ⟨hprint, hsame, -, -, hapart⟩ := parse_matches_exactly
  have ha : parse "=dev-libs/foo-1x2-1-r2".toList =
      .ok ⟨"dev-libs".toList, "foo-1x2".toList, some "1-r2".toList⟩ := by rfl
  have hb : parse "dev-libs/foo-1x2".toList = .ok ⟨"dev-libs".toList, "foo-1x2".toList, none⟩ := by rfl
  refine ⟨_, _, ha, hb, ?_, hprint _ _ ha, fun x hx => hapart _ _ _ hx hb rfl⟩
  rw [Bool.eq_false_iff, ne_eq, hsame _ _ _ _ ha hb]
  rintro ⟨-, -, hfullver⟩
  cases hfullver

end Atom

end PackageHistory
