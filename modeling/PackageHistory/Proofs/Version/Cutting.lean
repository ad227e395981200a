import PackageHistory.Proofs.Version.Spelling

/-!
# Versions taken apart from the end

Instead of reading a version from its beginning one may cut the revision off its end, the rest at underscores
and the letter off the first piece. On a version that comes to the same.
-/

namespace PackageHistory.Version.Spelling

/-- Cuts a text at the first dash from which it reads as a revision. -/
def cutRevision : Text → Text × Option Text
  | [] => ([], none)
  | c :: cs =>
    match readRevision? (c :: cs) with
    | some (some digits) => ([], some digits)
    | _ => (c :: (cutRevision cs).1, (cutRevision cs).2)

def cutLetter (t : Text) : Text × Option Char :=
  match t.getLast? with
  | some c => if c.isLower then (t.dropLast, some c) else (t, none)
  | none => (t, none)

/-- Cuts off the revision, cuts what is left at underscores and cuts a letter off the first piece. -/
def cut? (t : Text) : Option Spelling :=
  match Text.splitOn '_' (cutRevision t).1 with
  | [] => none
  | base :: pieces =>
    (pieces.mapM readSuffix?).map fun suffixes =>
      { components := Text.splitOn '.' (cutLetter base).1
        letter := (cutLetter base).2
        suffixes
        revision := (cutRevision t).2 }

variable {s : Spelling}

theorem cutRevision_append {t : Text} {r : Option Text} (ht : '-' ∉ t)
    (hr : ∀ digits, r = some digits → Text.isDigits digits = true) :
    cutRevision (t ++ renderRevision r) = (t, r) := by
  induction t with
  | nil =>
    cases r with
    | none => rfl
    | some digits =>
      have hread := readRevision?_eq_some_iff.mpr ⟨rfl, hr⟩
      rw [List.nil_append, renderRevision, cutRevision]
      rw [renderRevision] at hread
      simp only [hread]
  | cons c t ih =>
    obtain ⟨hc, ht⟩ := not_or.mp (fun h => ht (List.mem_cons.mpr h))
    have hread : readRevision? (c :: (t ++ renderRevision r)) = none := by
      unfold readRevision?
      split
      · next h => cases h
      · next h => exact absurd (List.cons.inj h).1.symm hc
      · rfl
    rw [List.cons_append, cutRevision, hread, ih ht]

/-- The numbers and the letter. -/
def base (s : Spelling) : Text := Text.join ['.'] s.components ++ s.letter.toList

theorem cutLetter_base (h : s.WellFormed) :
    cutLetter s.base = (Text.join ['.'] s.components, s.letter) := by
  unfold base cutLetter
  cases hl : s.letter with
  | some c =>
    have hlower : c.isLower = true := h.letter_lower c hl
    simp [hlower]
  | none =>
    rw [Option.toList_none, List.append_nil]
    split
    · next c hlast =>
      -- The last character of the numbers is no letter.
      have hc : c.isLower = false := by
        by_contra hlower
        rcases isNumeric_of_mem_join h.component_digits (List.mem_of_getLast? hlast) with hdigit | rfl
        · rw [not_isDigit_of_isLower (by simpa using hlower)] at hdigit
          cases hdigit
        · exact hlower rfl
      rw [hc]
      rfl
    · rfl

theorem underscore_not_mem_base (h : s.WellFormed) : '_' ∉ s.base := by
  intro hmem
  rcases List.mem_append.mp hmem with hmem | hmem
  · have hchar := isNumeric_of_mem_join h.component_digits hmem
    revert hchar
    decide
  · have hlower := h.letter_lower '_' (by simpa using hmem)
    revert hlower
    decide

theorem splitOn_unrevised (h : s.WellFormed) :
    Text.splitOn '_' { s with revision := none : Spelling }.render = s.base :: s.suffixes.map bodyOf := by
  have hjoin : { s with revision := none : Spelling }.render =
      Text.join ['_'] (s.base :: s.suffixes.map bodyOf) := by
    rw [Text.join_cons, List.flatMap_map, render, renderRevision, List.append_nil]
    rfl
  rw [hjoin]
  apply Text.splitOn_join (List.cons_ne_nil _ _)
  intro piece hpiece
  rcases List.mem_cons.mp hpiece with rfl | hpiece
  · exact underscore_not_mem_base h
  · obtain ⟨x, hx, rfl⟩ := List.mem_map.mp hpiece
    exact not_mem_bodyOf (h.suffix_digits x hx) rfl rfl

theorem cut?_render (h : s.WellFormed) : cut? s.render = some s := by
  have hrevision : cutRevision s.render = ({ s with revision := none : Spelling }.render, s.revision) := by
    rw [render_eq_append]
    exact cutRevision_append (dash_not_mem_unrevised h) h.revision_digits
  have hcomponents : Text.splitOn '.' (Text.join ['.'] s.components) = s.components :=
    Text.splitOn_join h.components_ne_nil fun digits hmem =>
      not_mem_digits (h.component_digits digits hmem) rfl
  have hsuffixes : (s.suffixes.map bodyOf).mapM readSuffix? = some s.suffixes :=
    mapM_readSuffix?_eq_some_iff.mpr ⟨rfl, h.suffix_digits⟩
  simp only [cut?, hrevision, splitOn_unrevised h, cutLetter_base h, hcomponents, hsuffixes,
    Option.map_some]

end PackageHistory.Version.Spelling
