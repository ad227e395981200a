import PackageHistory.Proofs.Number
import PackageHistory.Proofs.Version.Grammar
import PackageHistory.Proofs.Version.Order

/-!
# Versions that are level

Valid versions are in a total preorder. Two of them are level when they differ only in zeros that count for
nothing: before the first number, at the end of a fraction, and before or in place of the digits of suffixes
and revision.
-/

namespace PackageHistory

open Std

/-! ## Numbers without leading zeros -/

namespace Text

theorem digitsValue_concat (t : Text) (c : Char) :
    digitsValue (t ++ [c]) = 10 * digitsValue t + (c.toNat - '0'.toNat) := by
  simp [digitsValue, List.foldl_append]

/-- Digits that do not start with a zero are those of their value. -/
theorem ofNat_digitsValue {t : Text} (h : isDigits t = true) (hhead : t.head? ≠ some '0') :
    ofNat (digitsValue t) = t := by
  induction t using List.reverseRecOn with
  | nil => cases h
  | append_singleton t c ih =>
    have hc : c.isDigit = true := by
      rw [isDigits, Bool.and_eq_true, List.all_eq_true] at h
      exact h.2 c (by simp)
    have hrange := isDigit_iff.mp hc
    have hzero : '0'.toNat = 48 := rfl
    have hback : Nat.digitChar (c.toNat - 48) = c := by
      apply Char.toNat_inj.mp
      rw [Nat.toNat_digitChar_of_lt_ten (by omega)]
      omega
    rw [digitsValue_concat, hzero]
    cases t with
    | nil =>
      have hvalue : 10 * digitsValue [] + (c.toNat - 48) = c.toNat - 48 := by simp [digitsValue]
      rw [hvalue, ofNat, Nat.toDigits_of_lt_base (by omega), hback, List.nil_append]
    | cons d rest =>
      have hinit : isDigits (d :: rest) = true := by
        simp only [isDigits, List.cons_append, List.all_cons, List.all_append,
          Bool.and_eq_true] at h ⊢
        exact ⟨rfl, h.2.1, h.2.2.1⟩
      have hread : ofNat (digitsValue (d :: rest)) = d :: rest := ih hinit hhead
      have hpos : 0 < digitsValue (d :: rest) := by
        apply Nat.pos_of_ne_zero
        intro hvalue
        rw [hvalue] at hread
        apply hhead
        rw [← hread]
        rfl
      have hcut := Nat.toDigits_append_toDigits (b := 10) (n := digitsValue (d :: rest))
        (d := c.toNat - 48) (by omega) hpos (by omega)
      rw [Nat.toDigits_of_lt_base (n := c.toNat - 48) (by omega), hback] at hcut
      rw [ofNat, ← hcut]
      exact congrArg (· ++ [c]) hread

end Text

namespace Version

/-! ## Keys that are equal -/

instance : LawfulEqCmp compareKey where
  eq_of_compare {a b} h := by
    obtain ⟨h₁, h₂⟩ := Ordering.then_eq_eq.mp h
    obtain ⟨h₂, h₃⟩ := Ordering.then_eq_eq.mp h₂
    exact Prod.ext (Nat.compare_eq_eq.mp h₁)
      (Prod.ext (LawfulEqCmp.eq_of_compare h₂) (Nat.compare_eq_eq.mp h₃))

instance : LawfulEqCmp compareSuffixKey where
  eq_of_compare {a b} h := by
    obtain ⟨h₁, h₂⟩ := Ordering.then_eq_eq.mp h
    exact Prod.ext (Nat.compare_eq_eq.mp h₁) (Nat.compare_eq_eq.mp h₂)

/-- Components after the first that count alike. -/
def SameComponent (a b : Text) : Prop :=
  a = b ∨ (a.head? = some '0' ∧ b.head? = some '0' ∧ stripZeros a = stripZeros b)

theorem componentKey_eq_iff {a b : Text} (ha : Text.isDigits a = true)
    (hb : Text.isDigits b = true) : componentKey a = componentKey b ↔ SameComponent a b := by
  unfold componentKey SameComponent
  by_cases ha0 : a.head? = some '0' <;> by_cases hb0 : b.head? = some '0'
  · have hsame : a = b → stripZeros a = stripZeros b := fun h => by rw [h]
    simpa [ha0, hb0] using hsame
  · have hne : a ≠ b := fun h => hb0 (h ▸ ha0)
    simp [ha0, hb0, hne]
  · have hne : a ≠ b := fun h => ha0 (h ▸ hb0)
    simp [ha0, hb0, hne]
  · have hvalue : Text.digitsValue a = Text.digitsValue b ↔ a = b := by
      constructor
      · intro h
        rw [← Text.ofNat_digitsValue ha ha0, h, Text.ofNat_digitsValue hb hb0]
      · rintro rfl
        rfl
    simp [ha0, hb0, hvalue]

theorem map_componentKey_eq_iff {as bs : List Text} (ha : ∀ a ∈ as, Text.isDigits a = true)
    (hb : ∀ b ∈ bs, Text.isDigits b = true) :
    as.map componentKey = bs.map componentKey ↔
      as.length = bs.length ∧ ∀ pair ∈ as.zip bs, SameComponent pair.1 pair.2 := by
  induction as generalizing bs with
  | nil => cases bs <;> simp
  | cons a as ih =>
    cases bs with
    | nil => simp
    | cons b bs =>
      obtain ⟨ha, has⟩ := List.forall_mem_cons.mp ha
      obtain ⟨hb, hbs⟩ := List.forall_mem_cons.mp hb
      rw [List.map_cons, List.map_cons, List.cons.injEq, ih has hbs, componentKey_eq_iff ha hb,
        List.zip_cons_cons, List.forall_mem_cons, List.length_cons, List.length_cons,
        Nat.add_right_cancel_iff]
      exact and_left_comm

theorem letterKey_eq_iff {a b : Option Char} : letterKey a = letterKey b ↔ a = b := by
  cases a <;> cases b <;> simp [letterKey, Char.toNat_inj]

theorem suffixKeys_eq_iff {as bs : List (SuffixKind × Nat)} : suffixKeys as = suffixKeys bs ↔ as = bs := by
  have hinjective : Function.Injective fun x : SuffixKind × Nat => (2 * x.1.rank, x.2) := by
    rintro ⟨kind, n⟩ ⟨kind', n'⟩ h
    obtain ⟨hrank, rfl⟩ := Prod.mk.inj h
    revert hrank
    cases kind <;> cases kind' <;> simp [SuffixKind.rank]
  rw [suffixKeys, suffixKeys, List.append_cancel_right_eq, hinjective.list_map.eq_iff]

/-! ## Spellings that are level -/

/-- The first numbers have one value, the further ones count alike, and so do the letters, the suffixes and
the revisions; digits that are missing are worth zero. -/
structure Spelling.LevelWith (s t : Spelling) : Prop where
  first : s.components.head?.map Text.digitsValue = t.components.head?.map Text.digitsValue
  count : s.components.length = t.components.length
  further : ∀ pair ∈ s.components.tail.zip t.components.tail, SameComponent pair.1 pair.2
  letter : s.letter = t.letter
  suffixes : s.suffixes.map (fun x => (x.1, Text.digitsValue x.2)) =
    t.suffixes.map fun x => (x.1, Text.digitsValue x.2)
  revision : s.revision.elim 0 Text.digitsValue = t.revision.elim 0 Text.digitsValue

variable {s t : Spelling}

theorem compareTexts_render (hs : s.WellFormed) (ht : t.WellFormed) :
    compareTexts s.render t.render = .ok (compareByKeys (ofSpelling s) (ofSpelling t)) := by
  rw [compareTexts, parse?_render hs, parse?_render ht]
  exact congrArg Except.ok (compare_eq hs.component_digits ht.component_digits)

theorem componentKeys_eq_iff (hs : s.WellFormed) (ht : t.WellFormed) :
    componentKeys s.components = componentKeys t.components ↔
      s.components.head?.map Text.digitsValue = t.components.head?.map Text.digitsValue ∧
      s.components.length = t.components.length ∧
      ∀ pair ∈ s.components.tail.zip t.components.tail, SameComponent pair.1 pair.2 := by
  obtain ⟨a, as, hcs⟩ := List.exists_cons_of_ne_nil hs.components_ne_nil
  obtain ⟨b, bs, hct⟩ := List.exists_cons_of_ne_nil ht.components_ne_nil
  have has : ∀ x ∈ as, Text.isDigits x = true := fun x hx =>
    hs.component_digits x (hcs ▸ List.mem_cons_of_mem _ hx)
  have hbs : ∀ x ∈ bs, Text.isDigits x = true := fun x hx =>
    ht.component_digits x (hct ▸ List.mem_cons_of_mem _ hx)
  rw [hcs, hct, componentKeys, componentKeys, List.cons.injEq, map_componentKey_eq_iff has hbs]
  simp

theorem compareByKeys_eq_eq_iff (hs : s.WellFormed) (ht : t.WellFormed) :
    compareByKeys (ofSpelling s) (ofSpelling t) = .eq ↔ s.LevelWith t := by
  simp only [compareByKeys, Ordering.then_eq_eq, LawfulEqCmp.compare_eq_iff_eq, letterKey_eq_iff,
    suffixKeys_eq_iff, revision_ofSpelling]
  rw [show (ofSpelling s).components = s.components from rfl,
    show (ofSpelling t).components = t.components from rfl, componentKeys_eq_iff hs ht]
  constructor
  · rintro ⟨⟨hfirst, hcount, hfurther⟩, hletter, hsuffixes, hrevision⟩
    exact ⟨hfirst, hcount, hfurther, hletter, hsuffixes, hrevision⟩
  · rintro ⟨hfirst, hcount, hfurther, hletter, hsuffixes, hrevision⟩
    exact ⟨⟨hfirst, hcount, hfurther⟩, hletter, hsuffixes, hrevision⟩

/-! ## The preorder -/

/-- Valid versions compare as a total preorder does, and those are equal in it whose spellings are level. -/
theorem compareTexts_preorder {a b c : Text} (ha : isValid a = true) (hb : isValid b = true)
    (hc : isValid c = true) :
    compareTexts a a = .ok .eq ∧
    (∃ o, compareTexts a b = .ok o ∧ compareTexts b a = .ok o.swap) ∧
    (∀ o o', compareTexts a b = .ok o → compareTexts b c = .ok o' → o.isLE = true → o'.isLE = true →
      ∃ o'', compareTexts a c = .ok o'' ∧ o''.isLE = true ∧ (o = .lt ∨ o' = .lt → o'' = .lt)) ∧
    (compareTexts a b = .ok .eq ↔ ∃ s t : Spelling, s.WellFormed ∧ s.render = a ∧
      t.WellFormed ∧ t.render = b ∧ s.LevelWith t) := by
  obtain ⟨s, hs, rfl⟩ := isValid_iff.mp ha
  obtain ⟨t, ht, rfl⟩ := isValid_iff.mp hb
  obtain ⟨u, hu, rfl⟩ := isValid_iff.mp hc
  simp only [compareTexts_render, hs, ht, hu, Except.ok.injEq]
  refine ⟨ReflCmp.compare_self, ⟨_, rfl, OrientedCmp.eq_swap⟩, ?_, ?_⟩
  · rintro _ _ rfl rfl hle hle'
    refine ⟨_, rfl, TransCmp.isLE_trans hle hle', ?_⟩
    rintro (hlt | hlt)
    · exact TransCmp.lt_of_lt_of_isLE hlt hle'
    · exact TransCmp.lt_of_isLE_of_lt hle hlt
  · rw [compareByKeys_eq_eq_iff hs ht]
    constructor
    · intro h
      exact ⟨s, t, hs, rfl, ht, rfl, h⟩
    · rintro ⟨s', t', hs', hrender, ht', hrender', h⟩
      rw [Spelling.render_injective hs' hs hrender, Spelling.render_injective ht' ht hrender'] at h
      exact h

/-- A fraction that ends in zeros, one that does not, and a number: the first two are level and come before
the third. -/
theorem compareTexts_fractions :
    isValid "1.010_p".toList = true ∧ isValid "1.01_p0-r0".toList = true ∧
      isValid "1.1".toList = true ∧
      compareTexts "1.010_p".toList "1.01_p0-r0".toList = .ok .eq ∧
      compareTexts "1.010_p".toList "1.1".toList = .ok .lt := by
  have hfraction : isValid "1.010_p".toList = true := by decide
  have hshorter : isValid "1.01_p0-r0".toList = true := by decide
  have hnumber : isValid "1.1".toList = true := by decide
  obtain ⟨-, -, htrans, hlevel⟩ := compareTexts_preorder hfraction hshorter hnumber
  have heq : compareTexts "1.010_p".toList "1.01_p0-r0".toList = .ok .eq := by
    apply hlevel.mpr
    refine ⟨⟨["1".toList, "010".toList], none, [(.p, [])], none⟩,
      ⟨["1".toList, "01".toList], none, [(.p, "0".toList)], some "0".toList⟩,
      ⟨by decide, by decide, nofun, by decide, by decide⟩, by decide,
      ⟨by decide, by decide, nofun, by decide, by decide⟩, by decide, ?_⟩
    exact ⟨by decide, by decide, by simp [SameComponent]; decide, rfl, by decide, by decide⟩
  obtain ⟨o, hlt, -, hstrict⟩ := htrans .eq .lt heq (by decide) (by decide) (by decide)
  rw [hstrict (.inr rfl)] at hlt
  exact ⟨hfraction, hshorter, hnumber, heq, hlt⟩

end Version

end PackageHistory
