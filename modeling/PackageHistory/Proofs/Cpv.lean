import PackageHistory.Proofs.Names
import PackageHistory.Proofs.Version.Grammar

/-!
# Texts of package versions

A package version reads back from its text, and nothing else is read from a text than the package version
that it is of.
-/

namespace PackageHistory

/-! ## Dashes and slashes in versions -/

namespace Version

variable {t v : Text}

theorem slash_not_mem (h : isValid t = true) : '/' ∉ t := by
  obtain ⟨s, hs, rfl⟩ := isValid_iff.mp h
  rw [Spelling.render_eq_append, List.mem_append, not_or]
  constructor
  · intro hslash
    have hchar := Spelling.mem_unrevised hs hslash
    revert hchar
    decide
  · cases hr : s.revision with
    | none => simp [Spelling.renderRevision]
    | some digits =>
      have hdigits := Spelling.not_mem_digits (hs.revision_digits digits hr) (c := '/') rfl
      simpa [Spelling.renderRevision] using hdigits

theorem isDigit_of_head? (h : isValid t = true) {c : Char} (hc : t.head? = some c) :
    c.isDigit = true := by
  obtain ⟨s, hs, rfl⟩ := isValid_iff.mp h
  obtain ⟨first, rest, hcomponents⟩ := List.exists_cons_of_ne_nil hs.components_ne_nil
  obtain ⟨hne, hdigits⟩ := Spelling.isDigits_iff.mp
    (hs.component_digits first (hcomponents ▸ List.mem_cons_self))
  obtain ⟨d, more, rfl⟩ := List.exists_cons_of_ne_nil hne
  rw [Spelling.render_eq, hcomponents, Text.join_cons] at hc
  cases hc
  exact hdigits c List.mem_cons_self

/-- The one dash that a version may have is that of its revision, and no version follows it. -/
theorem not_isValid_behind_dash (h : isValid (t ++ '-' :: v) = true) : isValid v = false := by
  obtain ⟨s, hs, hrender⟩ := isValid_iff.mp h
  rw [Spelling.render_eq_append] at hrender
  cases hr : s.revision with
  | none =>
    rw [hr, Spelling.renderRevision, List.append_nil] at hrender
    exact absurd (hrender ▸ by simp) (Spelling.dash_not_mem_unrevised hs)
  | some digits =>
    rw [hr] at hrender
    have hdigits := Spelling.not_mem_digits (hs.revision_digits digits hr) (c := '-') rfl
    obtain ⟨-, rfl⟩ := Text.eq_of_append_sep hrender.symm (Spelling.dash_not_mem_unrevised hs)
      (by simpa using hdigits)
    by_contra hvalid
    have hhead := isDigit_of_head? (by simpa using hvalid) (c := 'r') rfl
    revert hhead
    decide

end Version

/-! ## Cutting the version off -/

namespace Cpv

variable {t p v : Text}

theorem of_splitVersion? (h : splitVersion? t = some (p, v)) :
    t = p ++ '-' :: v ∧ Version.isValid v = true := by
  induction t generalizing p with
  | nil => cases h
  | cons c cs ih =>
    have hlater (h : (splitVersion? cs).map (fun r => (c :: r.1, r.2)) = some (p, v)) :
        c :: cs = p ++ '-' :: v ∧ Version.isValid v = true := by
      obtain ⟨⟨p', v'⟩, hsplit, heq⟩ := Option.map_eq_some_iff.mp h
      cases heq
      obtain ⟨rfl, hvalid⟩ := ih hsplit
      exact ⟨rfl, hvalid⟩
    unfold splitVersion? at h
    split at h
    · cases h
    · dsimp only at h
      split at h
      · next w =>
        split at h
        · next hvalid =>
          cases h
          exact ⟨rfl, hvalid⟩
        · exact hlater h
      · exact hlater h

theorem splitVersion?_append (hfilled : p ≠ []) (hline : ∀ c ∈ p, isLineEnd c = false)
    (hv : Version.isValid v = true) : splitVersion? (p ++ '-' :: v) = some (p, v) := by
  induction p with
  | nil => exact absurd rfl hfilled
  | cons c rest ih =>
    obtain ⟨hc, hrest⟩ := List.forall_mem_cons.mp hline
    rw [List.cons_append]
    unfold splitVersion?
    cases rest with
    | nil => simp [hc, hv]
    | cons d more =>
      have hlater := ih (List.cons_ne_nil d more) hrest
      simp only [hc, Bool.false_eq_true, if_false, hlater, Option.map_some]
      split
      · next w heq =>
        -- A version at an earlier dash would have the version `v` behind a dash.
        obtain ⟨rfl, rfl⟩ := List.cons.inj heq
        have hnot : Version.isValid (more ++ '-' :: v) ≠ true := by
          intro hw
          rw [Version.not_isValid_behind_dash hw] at hv
          cases hv
        exact if_neg hnot
      · rfl

/-! ## Reading a text -/

theorem isLineEnd_of_isBlank {c : Char} (h : isBlank c = false) : isLineEnd c = false := by
  unfold isLineEnd
  simp only [Bool.or_eq_false_iff, decide_eq_false_iff_not]
  refine ⟨⟨⟨?_, ?_⟩, ?_⟩, ?_⟩ <;> (rintro rfl; revert h; decide)

/-- A text reads as the package version that it is the text of. -/
theorem parse_eq_ok_iff {x : Cpv} : parse t = .ok x ↔ x.text = t := by
  unfold parse
  constructor
  · intro h
    split at h
    · next category rest hsplit =>
      split at h
      · next package fullver hcut =>
        obtain ⟨rfl, rfl, rfl⟩ := make_eq_ok_iff.mp h
        obtain ⟨hrest, -⟩ := of_splitVersion? hcut
        have hjoin := Text.join_splitOn '/' t
        rw [hsplit, hrest] at hjoin
        rw [← hjoin]
        simp [text, textOf, Text.join_cons]
      · cases h
    · cases h
  · rintro rfl
    have hpackage := isSolid_of_isPackageName x.package_valid
    have hcategory := (isSolid_of_isCategory x.category_valid).slash
    have hbehind : '/' ∉ x.package ++ '-' :: x.fullver := by
      have hversion := Version.slash_not_mem x.fullver_valid
      simp [hpackage.slash, hversion]
    have hsplit : x.text.splitOn '/' = [x.category, x.package ++ '-' :: x.fullver] := by
      rw [text, textOf, List.append_assoc, List.cons_append, Text.splitOn_append_sep,
        Text.splitOn_of_not_mem hcategory, Text.splitOn_of_not_mem hbehind]
      rfl
    have hcut := splitVersion?_append hpackage.filled
      (fun c hc => isLineEnd_of_isBlank (hpackage.blank c hc)) x.fullver_valid
    simp only [hsplit, hcut]
    exact x.make_self

theorem text_injective : Function.Injective text := by
  intro x y h
  have hx : parse y.text = .ok x := parse_eq_ok_iff.mpr h
  have hy : parse y.text = .ok y := parse_eq_ok_iff.mpr rfl
  exact Except.ok.inj (hx.symm.trans hy)

/-- What is made of parts reads back from its text, the texts that can be read are those of valid parts, and
no two of them have one text. -/
theorem parse_unambiguous :
    (∀ category package fullver x, make category package fullver = .ok x →
      x.category = category ∧ x.package = package ∧ x.fullver = fullver ∧
        x.version = Version.withoutRevision fullver ∧ x.key = keyOf category package ∧
        x.text = textOf category package fullver ∧ parse x.text = .ok x) ∧
    (∀ t, (∃ x, parse t = .ok x) ↔ ∃ category package fullver,
      isCategory category = true ∧ isPackageName package = true ∧
        Version.isValid fullver = true ∧ t = textOf category package fullver) ∧
    (∀ t x, parse t = .ok x → x.text = t) ∧
    (∀ x y : Cpv, (x.category, x.package, x.fullver) ≠ (y.category, y.package, y.fullver) →
      x.text ≠ y.text) := by
  refine ⟨?_, ?_, fun t x => parse_eq_ok_iff.mp, ?_⟩
  · intro category package fullver x h
    obtain ⟨rfl, rfl, rfl⟩ := make_eq_ok_iff.mp h
    exact ⟨rfl, rfl, rfl, rfl, rfl, rfl, parse_eq_ok_iff.mpr rfl⟩
  · intro t
    constructor
    · rintro ⟨x, h⟩
      exact ⟨_, _, _, x.category_valid, x.package_valid, x.fullver_valid,
        (parse_eq_ok_iff.mp h).symm⟩
    · rintro ⟨category, package, fullver, hc, hp, hv, rfl⟩
      exact ⟨⟨category, package, fullver, hc, hp, hv⟩, parse_eq_ok_iff.mpr rfl⟩
  · intro x y hne htext
    apply hne
    rw [text_injective htext]

/-- What stands behind a dash of the name is no version, and the revision has a dash of its own. -/
theorem parse_dashed :
    ∃ x, make "dev-libs".toList "foo-1x2".toList "1-r2".toList = .ok x ∧
      x.version = "1".toList ∧ x.key = "dev-libs/foo-1x2".toList ∧
      parse "dev-libs/foo-1x2-1-r2".toList = .ok x := by
  obtain ⟨x, hmake⟩ : ∃ x, make "dev-libs".toList "foo-1x2".toList "1-r2".toList = .ok x :=
    ⟨⟨_, _, _, by decide +kernel, by decide +kernel, by decide +kernel⟩, make_eq_ok_iff.mpr ⟨rfl, rfl, rfl⟩⟩
  obtain ⟨-, -, -, hversion, hkey, htext, hparse⟩ := parse_unambiguous.1 _ _ _ x hmake
  refine ⟨x, hmake, ?_, ?_, ?_⟩
  · rw [hversion]
    decide +kernel
  · rw [hkey]
    decide +kernel
  · rw [htext] at hparse
    exact hparse

end Cpv

end PackageHistory
