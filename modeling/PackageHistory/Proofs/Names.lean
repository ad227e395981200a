import PackageHistory.Cpv
import PackageHistory.Proofs.Path

/-!
# Names of categories and packages

Valid names have neither slashes nor white space, so they are single names of a path and stand unchanged in a
line.
-/

namespace PackageHistory

theorem toNat_of_isWordChar {c : Char} (h : isWordChar c = true) :
    48 ≤ c.toNat ∧ c.toNat ≤ 57 ∨ 65 ≤ c.toNat ∧ c.toNat ≤ 90 ∨ c.toNat = 95 ∨
      97 ≤ c.toNat ∧ c.toNat ≤ 122 := by
  delta isWordChar Char.isAlphanum Char.isAlpha Char.isUpper Char.isLower Char.isDigit at h
  simp only [Bool.or_eq_true, Bool.and_eq_true, decide_eq_true_eq, ge_iff_le,
    UInt32.le_iff_toNat_le] at h
  rcases h with ((h | h) | h) | rfl
  · exact .inr (.inl h)
  · exact .inr (.inr (.inr h))
  · exact .inl h
  · exact .inr (.inr (.inl rfl))

theorem isBlank_of_isWordChar {c : Char} (h : isWordChar c = true) : isBlank c = false := by
  have hrange := toNat_of_isWordChar h
  simp only [isBlank, Bool.or_eq_false_iff, Bool.and_eq_false_iff, decide_eq_false_iff_not]
  omega

/-- A text that begins with a letter, digit or underscore and has neither slashes nor white space. -/
structure IsSolid (t : Text) : Prop where
  first : ∃ c rest, t = c :: rest ∧ isWordChar c = true
  slash : '/' ∉ t
  blank : ∀ c ∈ t, isBlank c = false

namespace IsSolid

variable {t : Text}

theorem filled (h : IsSolid t) : t ≠ [] := by
  obtain ⟨c, rest, rfl, -⟩ := h.first
  nofun

theorem isName (h : IsSolid t) : Path.IsName t := by
  refine ⟨h.slash, h.filled, ?_, ?_⟩ <;>
  · obtain ⟨c, rest, rfl, hc⟩ := h.first
    rintro heq
    cases heq
    revert hc
    decide

theorem trim_append (h : IsSolid t) (rest : Text) : Text.trim (t ++ rest) = Text.trimEnd (t ++ rest) := by
  obtain ⟨c, more, rfl, hc⟩ := h.first
  have hstart : Text.trimStart (c :: more ++ rest) = c :: more ++ rest :=
    List.dropWhile_cons_of_neg (by simp [isBlank_of_isWordChar hc])
  rw [Text.trim, hstart]

theorem trimEnd_eq (h : IsSolid t) : Text.trimEnd t = t := by
  have htrim := Text.trimEnd_append t h.filled (fun c hc => h.blank c (List.mem_of_getLast? hc)) []
  rwa [List.append_nil, show Text.trimEnd [] = [] from rfl, List.append_nil] at htrim

theorem of_chars {c : Char} {rest : Text} (hc : isWordChar c = true)
    (hrest : ∀ d ∈ rest, isWordChar d = true ∨ d = '+' ∨ d = '.' ∨ d = '-') : IsSolid (c :: rest) := by
  have hchars : ∀ d ∈ c :: rest, isWordChar d = true ∨ d = '+' ∨ d = '.' ∨ d = '-' := by
    intro d hd
    rcases List.mem_cons.mp hd with rfl | hd
    · exact .inl hc
    · exact hrest d hd
  refine ⟨⟨c, rest, rfl, hc⟩, fun hslash => ?_, fun d hd => ?_⟩
  · have hnot := hchars '/' hslash
    revert hnot
    decide
  · rcases hchars d hd with hword | rfl | rfl | rfl
    · exact isBlank_of_isWordChar hword
    all_goals decide

end IsSolid

theorem isSolid_of_isCategory {c : Text} (h : isCategory c = true) : IsSolid c := by
  cases c with
  | nil => cases h
  | cons first rest =>
    rw [isCategory, Bool.and_eq_true, List.all_eq_true] at h
    exact .of_chars h.1 fun d hd => by simpa [or_assoc] using h.2 d hd

theorem isSolid_of_isPackageName {p : Text} (h : isPackageName p = true) : IsSolid p := by
  cases p with
  | nil => cases h
  | cons first rest =>
    simp only [isPackageName, Bool.and_eq_true, List.all_eq_true] at h
    exact .of_chars h.1.1 fun d hd => by
      rcases (by simpa using h.1.2 d hd : (isWordChar d = true ∨ d = '+') ∨ d = '-') with
        (hword | hplus) | hdash
      · exact .inl hword
      · exact .inr (.inl hplus)
      · exact .inr (.inr (.inr hdash))

end PackageHistory
