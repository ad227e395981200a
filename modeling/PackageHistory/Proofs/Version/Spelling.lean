import PackageHistory.Proofs.Text
import PackageHistory.Version.Basic

/-!
# Spellings that read back

A text is read as a spelling exactly when the spelling is well formed and written that way. So every text has
at most one spelling.
-/

namespace PackageHistory.Version.Spelling

/-! ## Characters -/

theorem not_isDigit_of_isLower {c : Char} (h : c.isLower = true) : c.isDigit = false := by
  rw [Text.isLower_iff] at h
  by_contra hdigit
  have hrange := Text.isDigit_iff.mp (by simpa using hdigit)
  omega

theorem isLower_of_mem_name {c : Char} {kind : SuffixKind} (h : c ∈ kind.name) : c.isLower = true := by
  have hall : kind.name.all Char.isLower = true := by cases kind <;> decide
  exact List.all_eq_true.mp hall c h

theorem isDigits_iff {t : Text} : Text.isDigits t = true ↔ t ≠ [] ∧ ∀ c ∈ t, c.isDigit = true := by
  simp [Text.isDigits]

/-! ## Suffixes -/

variable {t : Text}

/-- A suffix without its underscore. -/
def bodyOf (x : SuffixKind × Text) : Text := x.1.name ++ x.2

theorem readSuffix?_eq_some_iff {x : SuffixKind × Text} :
    readSuffix? t = some x ↔ t = bodyOf x ∧ x.2.all Char.isDigit = true := by
  obtain ⟨kind, digits⟩ := x
  unfold readSuffix?
  constructor
  · intro h
    obtain ⟨word, rest, hspan⟩ : ∃ word rest, t.span Char.isLower = (word, rest) := ⟨_, _, rfl⟩
    obtain ⟨rfl, -, -⟩ := Text.of_span_eq hspan
    simp only [hspan] at h
    split at h
    · next kind' hkind =>
      split at h
      · next hall =>
        cases h
        rw [SuffixKind.ofName?_eq_some_iff] at hkind
        exact ⟨by rw [bodyOf, hkind], hall⟩
      · cases h
    · cases h
  · rintro ⟨rfl, hall⟩
    have hspan : (bodyOf (kind, digits)).span Char.isLower = (kind.name, digits) := by
      apply Text.span_append
      · intro c hc
        exact isLower_of_mem_name hc
      · intro c hc
        have hdigit : c.isDigit = true := List.all_eq_true.mp hall c (List.mem_of_mem_head? hc)
        by_contra hlower
        rw [not_isDigit_of_isLower (by simpa using hlower)] at hdigit
        cases hdigit
    have hname : SuffixKind.ofName? kind.name = some kind := SuffixKind.ofName?_eq_some_iff.mpr rfl
    simp only [hspan, hname, hall, if_true]

theorem mapM_readSuffix?_eq_some_iff {pieces : List Text} {xs : List (SuffixKind × Text)} :
    pieces.mapM readSuffix? = some xs ↔
      pieces = xs.map bodyOf ∧ ∀ x ∈ xs, x.2.all Char.isDigit = true := by
  induction pieces generalizing xs with
  | nil => cases xs <;> simp
  | cons piece rest ih =>
    simp only [List.mapM_cons, Option.bind_eq_bind, Option.bind_eq_some_iff, Option.pure_def,
      Option.some.injEq, readSuffix?_eq_some_iff, ih]
    constructor
    · rintro ⟨x, ⟨rfl, hx⟩, xs, ⟨rfl, hxs⟩, rfl⟩
      exact ⟨rfl, List.forall_mem_cons.mpr ⟨hx, hxs⟩⟩
    · rintro ⟨hpieces, hall⟩
      obtain ⟨x, xs, rfl, rfl, rfl⟩ := List.map_eq_cons_iff.mp hpieces.symm
      obtain ⟨hx, hxs⟩ := List.forall_mem_cons.mp hall
      exact ⟨x, ⟨rfl, hx⟩, xs, ⟨rfl, hxs⟩, rfl⟩

theorem flatMap_renderSuffix (x : SuffixKind × Text) (xs : List (SuffixKind × Text)) :
    (x :: xs).flatMap renderSuffix = '_' :: Text.join ['_'] ((x :: xs).map bodyOf) := by
  induction xs generalizing x with
  | nil => simp [renderSuffix, bodyOf]
  | cons y ys ih =>
    rw [List.flatMap_cons, ih]
    simp [renderSuffix, bodyOf, Text.join_cons_cons]

theorem not_mem_bodyOf {x : SuffixKind × Text} (h : x.2.all Char.isDigit = true) {c : Char}
    (hlower : c.isLower = false) (hdigit : c.isDigit = false) : c ∉ bodyOf x := by
  intro hmem
  rcases List.mem_append.mp hmem with hmem | hmem
  · exact Text.ne_of_test (isLower_of_mem_name hmem) hlower rfl
  · exact Text.ne_of_test (List.all_eq_true.mp h c hmem) hdigit rfl

theorem readSuffixes?_eq_some_iff {xs : List (SuffixKind × Text)} :
    readSuffixes? t = some xs ↔
      t = xs.flatMap renderSuffix ∧ ∀ x ∈ xs, x.2.all Char.isDigit = true := by
  constructor
  · intro h
    unfold readSuffixes? at h
    split at h
    · cases h
      simp
    · next rest =>
      obtain ⟨hpieces, hall⟩ := mapM_readSuffix?_eq_some_iff.mp h
      obtain ⟨x, xs, rfl⟩ : ∃ y ys, xs = y :: ys := by
        apply List.exists_cons_of_ne_nil
        rintro rfl
        exact Text.splitOn_ne_nil _ _ hpieces
      rw [flatMap_renderSuffix, ← hpieces, Text.join_splitOn]
      exact ⟨rfl, hall⟩
    · cases h
  · rintro ⟨rfl, hall⟩
    cases xs with
    | nil => rfl
    | cons x xs =>
      have hsplit : Text.splitOn '_' (Text.join ['_'] ((x :: xs).map bodyOf)) =
          (x :: xs).map bodyOf := by
        apply Text.splitOn_join (by simp)
        intro piece hpiece
        obtain ⟨y, hy, rfl⟩ := List.mem_map.mp hpiece
        exact not_mem_bodyOf (hall y hy) rfl rfl
      rw [flatMap_renderSuffix, readSuffixes?, hsplit]
      exact mapM_readSuffix?_eq_some_iff.mpr ⟨rfl, hall⟩

/-! ## Revisions -/

theorem readRevision?_eq_some_iff {r : Option Text} :
    readRevision? t = some r ↔
      t = renderRevision r ∧ ∀ digits, r = some digits → Text.isDigits digits = true := by
  unfold readRevision?
  constructor
  · intro h
    split at h
    · cases h
      exact ⟨rfl, by simp⟩
    · split at h
      · next hdigits =>
        cases h
        exact ⟨rfl, by simpa using hdigits⟩
      · cases h
    · cases h
  · rintro ⟨rfl, hdigits⟩
    cases r with
    | none => rfl
    | some digits => simp [renderRevision, hdigits digits rfl]

/-! ## Whole spellings -/

/-- The suffixes and the revision. -/
def ending (s : Spelling) : Text := s.suffixes.flatMap renderSuffix ++ renderRevision s.revision

variable {s s' : Spelling}

theorem render_eq (s : Spelling) :
    s.render = Text.join ['.'] s.components ++ (s.letter.toList ++ s.ending) := by
  simp [render, ending]

theorem ne_dash_of_mem_suffixes {suffixes : List (SuffixKind × Text)} {c : Char}
    (h : ∀ x ∈ suffixes, x.2.all Char.isDigit = true) (hc : c ∈ suffixes.flatMap renderSuffix) :
    c ≠ '-' := by
  obtain ⟨x, hx, hc⟩ := List.mem_flatMap.mp hc
  rintro rfl
  rcases List.mem_cons.mp hc with heq | hc
  · cases heq
  · exact not_mem_bodyOf (h x hx) rfl rfl hc

theorem head?_ending {c : Char} (hc : c ∈ s.ending.head?) : c = '_' ∨ c = '-' := by
  unfold ending at hc
  cases hs : s.suffixes with
  | nil =>
    cases hr : s.revision with
    | none =>
      rw [hs, hr] at hc
      cases hc
    | some digits =>
      rw [hs, hr] at hc
      cases hc
      exact .inr rfl
  | cons x xs =>
    rw [hs] at hc
    cases hc
    exact .inl rfl

theorem isNumeric_of_mem_join {components : List Text} {c : Char}
    (h : ∀ digits ∈ components, Text.isDigits digits = true) (hc : c ∈ Text.join ['.'] components) :
    c.isDigit = true ∨ c = '.' := by
  induction components with
  | nil => cases hc
  | cons digits rest ih =>
    have hdigits := (isDigits_iff.mp (h digits List.mem_cons_self)).2
    cases rest with
    | nil => exact .inl (hdigits c (by simpa using hc))
    | cons next rest =>
      rw [Text.join_cons_cons, List.append_assoc, List.singleton_append, List.mem_append,
        List.mem_cons] at hc
      rcases hc with hc | hc | hc
      · exact .inl (hdigits c hc)
      · exact .inr hc
      · exact ih (fun d hd => h d (List.mem_cons_of_mem _ hd)) hc

/-! ## Spellings without a revision -/

theorem render_eq_append (s : Spelling) :
    s.render = { s with revision := none : Spelling }.render ++ renderRevision s.revision := by
  simp [render, renderRevision]

theorem mem_unrevised (h : s.WellFormed) {c : Char}
    (hc : c ∈ { s with revision := none : Spelling }.render) :
    c.isDigit = true ∨ c.isLower = true ∨ c = '.' ∨ c = '_' := by
  simp only [render, renderRevision, List.append_nil, List.mem_append] at hc
  rcases hc with (hc | hc) | hc
  · rcases isNumeric_of_mem_join h.component_digits hc with hc | hc
    · exact .inl hc
    · exact .inr (.inr (.inl hc))
  · exact .inr (.inl (h.letter_lower c (by simpa using hc)))
  · obtain ⟨x, hx, hc⟩ := List.mem_flatMap.mp hc
    rcases List.mem_cons.mp hc with hc | hc
    · exact .inr (.inr (.inr hc))
    · rcases List.mem_append.mp hc with hc | hc
      · exact .inr (.inl (isLower_of_mem_name hc))
      · exact .inl (List.all_eq_true.mp (h.suffix_digits x hx) c hc)

theorem dash_not_mem_unrevised (h : s.WellFormed) :
    '-' ∉ { s with revision := none : Spelling }.render := by
  intro hdash
  have hchar := mem_unrevised h hdash
  revert hchar
  decide

theorem not_mem_digits {digits : Text} {c : Char} (h : Text.isDigits digits = true)
    (hc : c.isDigit = false) : c ∉ digits :=
  fun hmem => Text.ne_of_test ((isDigits_iff.mp h).2 c hmem) hc rfl

/-! ## Reading in parts -/

/-- What is made of the numbers, the letter and what follows them. -/
def assemble (numeric : Text) (letter : Option Char) (more : Text) : Option Spelling :=
  let (suffixText, revisionText) := more.span (· ≠ '-')
  let components := List.splitOn '.' numeric
  if components.all Text.isDigits then
    match readSuffixes? suffixText, readRevision? revisionText with
    | some suffixes, some revision => some { components, letter, suffixes, revision }
    | _, _ => none
  else none

variable {numeric rest more : Text} {letter : Option Char}

theorem parse?_eq_assemble (hspan : t.span (fun c => c.isDigit || c = '.') = (numeric, rest)) :
    ∃ letter more, parse? t = assemble numeric letter more ∧ rest = letter.toList ++ more ∧
      (∀ c, letter = some c → c.isLower = true) ∧
      (letter = none → ∀ c ∈ more.head?, c.isLower = false) := by
  unfold parse?
  rw [hspan]
  cases rest with
  | nil => exact ⟨none, [], rfl, rfl, by simp, by simp⟩
  | cons c more =>
    by_cases hc : c.isLower = true
    · refine ⟨some c, more, ?_, rfl, by simpa using hc, by simp⟩
      simp only [hc, if_true]
      rfl
    · refine ⟨none, c :: more, ?_, rfl, by simp, by simpa using hc⟩
      simp only [hc]
      rfl

theorem assemble_eq_some_iff (hletter : ∀ c, letter = some c → c.isLower = true) :
    assemble numeric letter more = some s ↔
      s.WellFormed ∧ numeric = Text.join ['.'] s.components ∧ letter = s.letter ∧ more = s.ending := by
  unfold assemble
  constructor
  · intro h
    obtain ⟨suffixText, revisionText, hspan⟩ : ∃ suffixText revisionText,
        more.span (· ≠ '-') = (suffixText, revisionText) := ⟨_, _, rfl⟩
    obtain ⟨rfl, -, -⟩ := Text.of_span_eq hspan
    simp only [hspan] at h
    split at h
    · next hall =>
      split at h
      · next suffixes revision hsuffixes hrevision =>
        cases h
        obtain ⟨rfl, hsuffix⟩ := readSuffixes?_eq_some_iff.mp hsuffixes
        obtain ⟨rfl, hdigits⟩ := readRevision?_eq_some_iff.mp hrevision
        have hwell : WellFormed ⟨List.splitOn '.' numeric, letter, suffixes, revision⟩ :=
          ⟨List.splitOn_ne_nil _ _, List.all_eq_true.mp hall, hletter, hsuffix, hdigits⟩
        exact ⟨hwell, (List.intercalate_splitOn '.').symm, rfl, rfl⟩
      · cases h
    · cases h
  · rintro ⟨h, rfl, rfl, rfl⟩
    have hcomponents : List.splitOn '.' (Text.join ['.'] s.components) = s.components := by
      refine List.splitOn_intercalate '.' ?_ h.components_ne_nil
      intro digits hmem
      exact not_mem_digits (h.component_digits digits hmem) rfl
    have hspan : s.ending.span (· ≠ '-') =
        (s.suffixes.flatMap renderSuffix, renderRevision s.revision) := by
      apply Text.span_append
      · intro c hc
        simpa using ne_dash_of_mem_suffixes h.suffix_digits hc
      · intro c hc
        cases hr : s.revision with
        | none =>
          rw [hr] at hc
          cases hc
        | some digits =>
          rw [hr] at hc
          cases hc
          rfl
    have hall : s.components.all Text.isDigits = true := List.all_eq_true.mpr h.component_digits
    have hsuffixes : readSuffixes? (s.suffixes.flatMap renderSuffix) = some s.suffixes :=
      readSuffixes?_eq_some_iff.mpr ⟨rfl, h.suffix_digits⟩
    have hrevision : readRevision? (renderRevision s.revision) = some s.revision :=
      readRevision?_eq_some_iff.mpr ⟨rfl, h.revision_digits⟩
    simp only [hspan, hcomponents, hall, if_true, hsuffixes, hrevision]

/-- What follows the numbers begins with neither a digit nor a dot. -/
theorem head?_behind_numbers (h : s.WellFormed) {c : Char}
    (hc : c ∈ (s.letter.toList ++ s.ending).head?) : c.isDigit = false ∧ c ≠ '.' := by
  cases hletter : s.letter with
  | none =>
    rw [hletter] at hc
    rcases head?_ending hc with rfl | rfl <;> decide
  | some d =>
    rw [hletter] at hc
    cases hc
    have hlower := h.letter_lower c hletter
    exact ⟨not_isDigit_of_isLower hlower, Text.ne_of_test hlower rfl⟩

/-- Reading gives the one spelling that is written that way. -/
theorem parse?_eq_some_iff : parse? t = some s ↔ s.WellFormed ∧ s.render = t := by
  obtain ⟨numeric, rest, hspan⟩ : ∃ numeric rest,
      t.span (fun c => c.isDigit || c = '.') = (numeric, rest) := ⟨_, _, rfl⟩
  obtain ⟨letter, more, hparse, rfl, hletter, hnone⟩ := parse?_eq_assemble hspan
  rw [hparse, assemble_eq_some_iff hletter]
  constructor
  · rintro ⟨h, rfl, rfl, rfl⟩
    exact ⟨h, (render_eq s).trans (Text.of_span_eq hspan).1.symm⟩
  · rintro ⟨h, rfl⟩
    have hcut : s.render.span (fun c => c.isDigit || c = '.') =
        (Text.join ['.'] s.components, s.letter.toList ++ s.ending) := by
      rw [render_eq]
      apply Text.span_append
      · intro c hc
        simpa using isNumeric_of_mem_join h.component_digits hc
      · intro c hc
        simpa using head?_behind_numbers h hc
    obtain ⟨rfl, hrest⟩ := Prod.mk.inj (hspan.symm.trans hcut)
    refine ⟨h, rfl, ?_⟩
    -- A letter is lower case, and what may stand in its place is not.
    cases hl : s.letter with
    | none =>
      cases letter with
      | none => simpa [hl] using hrest
      | some c =>
        have hc : c ∈ s.ending.head? := by
          rw [hl] at hrest
          rw [← (show _ = s.ending from hrest)]
          rfl
        exact absurd (hletter c rfl) (by rcases head?_ending hc with rfl | rfl <;> decide)
    | some d =>
      cases letter with
      | none =>
        have hd : d ∈ more.head? := by
          rw [hl] at hrest
          rw [show more = _ from hrest]
          rfl
        have hlower := h.letter_lower d hl
        rw [hnone rfl d hd] at hlower
        cases hlower
      | some c => simpa [hl] using hrest

theorem render_injective (h : s.WellFormed) (h' : s'.WellFormed) (heq : s.render = s'.render) :
    s = s' := by
  have hread : parse? s.render = some s := parse?_eq_some_iff.mpr ⟨h, rfl⟩
  have hread' : parse? s.render = some s' := parse?_eq_some_iff.mpr ⟨h', heq.symm⟩
  exact Option.some.inj (hread.symm.trans hread')

end PackageHistory.Version.Spelling
