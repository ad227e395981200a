import PackageHistory.Cpv
import PackageHistory.Proofs.Text.Order

/-!
# The order of versions is one

Each part of a version is compared by a key: a list is compared like its keys, one by one. So the
order of versions is total and transitive, as that of texts is.
-/

namespace PackageHistory

open Std

namespace Version

/-! ## Components -/

/-- Where a component stands: those with a leading zero come first, by their fraction, then the
others, by their value. -/
def componentKey (digits : Text) : Nat × Text × Nat :=
  if digits.head? = some '0' then (0, stripZeros digits, 0) else (1, [], Text.digitsValue digits)

def compareKey (a b : Nat × Text × Nat) : Ordering :=
  (Ord.compare a.1 b.1).then ((Text.compare a.2.1 b.2.1).then (Ord.compare a.2.2 b.2.2))

instance : TransCmp compareKey :=
  have : TransCmp fun a b : Nat × Text × Nat => Text.compare a.2.1 b.2.1 :=
    transCmp_on Text.compare fun a : Nat × Text × Nat => a.2.1
  inferInstanceAs <| TransCmp <| compareLex (compareOn Prod.fst) <|
    compareLex (fun a b : Nat × Text × Nat => Text.compare a.2.1 b.2.1) (compareOn fun a => a.2.2)

theorem stripZeros_cons {c : Char} (h : c ≠ '0') (cs : Text) :
    stripZeros (c :: cs) = c :: stripZeros cs := by
  have hlast : ∀ t : Text, (t ++ [c]).dropWhile (· = '0') = t.dropWhile (· = '0') ++ [c] := by
    intro t
    induction t with
    | nil => simp [h]
    | cons d t ih => by_cases hd : d = '0' <;> simp [hd, ih]
  simp [stripZeros, hlast]

theorem stripZeros_zero (cs : Text) :
    stripZeros ('0' :: cs) = [] ∨ ∃ t, stripZeros ('0' :: cs) = '0' :: t := by
  have hlast : ∀ t : Text, (t ++ ['0']).dropWhile (· = '0') = [] ∨
      ∃ u, (t ++ ['0']).dropWhile (· = '0') = u ++ ['0'] := by
    intro t
    induction t with
    | nil => exact .inl (by simp)
    | cons d t ih =>
      by_cases hd : d = '0'
      · simpa [hd] using ih
      · exact .inr ⟨d :: t, by simp [hd]⟩
  rcases hlast cs.reverse with h | ⟨u, h⟩
  · exact .inl (by simp [stripZeros, h])
  · exact .inr ⟨u.reverse, by simp [stripZeros, h]⟩

/-- A fraction comes before digits that do not start with a zero. -/
theorem compare_stripZeros {cs ds : Text} {d : Char} (hd : d.isDigit = true) (hne : d ≠ '0') :
    Text.compare (stripZeros ('0' :: cs)) (stripZeros (d :: ds)) = .lt := by
  rw [stripZeros_cons hne]
  rcases stripZeros_zero cs with h | ⟨t, h⟩
  · rw [h]
    rfl
  · have hrank : Ord.compare (unitRank '0') (unitRank d) = .lt := by
      have hbounds : '0'.toNat ≤ d.toNat ∧ d.toNat ≤ '9'.toNat := by
        simpa [Char.isDigit, Char.le_def, UInt32.le_iff_toNat_le] using hd
      have hdiff : d.toNat ≠ '0'.toNat := fun e => hne (Char.toNat_inj.mp e)
      have hzero : '0'.toNat = 48 := rfl
      have hnine : '9'.toNat = 57 := rfl
      rw [Nat.compare_eq_lt, unitRank, unitRank, if_pos (by omega), if_pos (by omega)]
      omega
    rw [h, Text.compare, hrank]
    rfl

theorem compareComponent_eq {a b : Text} (ha : Text.isDigits a = true) (hb : Text.isDigits b = true) :
    compareComponent a b = compareKey (componentKey a) (componentKey b) := by
  have hhead {t : Text} (ht : Text.isDigits t = true) : ∃ c cs, t = c :: cs ∧ c.isDigit = true := by
    cases t with
    | nil => cases ht
    | cons c cs =>
      have hall : c.isDigit = true ∧ ∀ x ∈ cs, x.isDigit = true := by
        simpa [Text.isDigits] using ht
      exact ⟨c, cs, rfl, hall.1⟩
  obtain ⟨c, cs, rfl, hc⟩ := hhead ha
  obtain ⟨d, ds, rfl, hd⟩ := hhead hb
  by_cases hc0 : c = '0'
  · subst hc0
    by_cases hd0 : d = '0'
    · subst hd0
      cases h : Text.compare (stripZeros ('0' :: cs)) (stripZeros ('0' :: ds)) <;>
        simp [compareComponent, componentKey, compareKey, h, ReflCmp.compare_self]
    · simp [compareComponent, componentKey, compareKey, hd0, compare_stripZeros hd hd0]
      rfl
  · by_cases hd0 : d = '0'
    · subst hd0
      have hswap : Text.compare (stripZeros (c :: cs)) (stripZeros ('0' :: ds)) =
          (Text.compare (stripZeros ('0' :: ds)) (stripZeros (c :: cs))).swap := OrientedCmp.eq_swap
      rw [compare_stripZeros hc hc0] at hswap
      simp [compareComponent, componentKey, compareKey, hc0, hswap]
      rfl
    · simp [compareComponent, componentKey, compareKey, hc0, hd0, ReflCmp.compare_self]

/-- The keys of a list of components; the first one counts by its value whatever it starts with. -/
def componentKeys : List Text → List (Nat × Text × Nat)
  | [] => []
  | a :: rest => (1, [], Text.digitsValue a) :: rest.map componentKey

theorem compareTail_eq {as bs : List Text} (ha : ∀ a ∈ as, Text.isDigits a = true)
    (hb : ∀ b ∈ bs, Text.isDigits b = true) :
    compareTail as bs = List.compareLex compareKey (as.map componentKey) (bs.map componentKey) := by
  induction as generalizing bs with
  | nil => cases bs <;> rfl
  | cons a as ih =>
    cases bs with
    | nil => rfl
    | cons b bs =>
      rw [compareTail, ih (fun x hx => ha x (List.mem_cons_of_mem _ hx))
        (fun x hx => hb x (List.mem_cons_of_mem _ hx)), List.map_cons, List.map_cons,
        List.compareLex_cons_cons,
        compareComponent_eq (ha a List.mem_cons_self) (hb b List.mem_cons_self)]

theorem compareComponents_eq {as bs : List Text} (ha : ∀ a ∈ as, Text.isDigits a = true)
    (hb : ∀ b ∈ bs, Text.isDigits b = true) :
    compareComponents as bs = List.compareLex compareKey (componentKeys as) (componentKeys bs) := by
  cases as with
  | nil => cases bs <;> rfl
  | cons a as =>
    cases bs with
    | nil => rfl
    | cons b bs =>
      rw [compareComponents, compareTail_eq (fun x hx => ha x (List.mem_cons_of_mem _ hx))
        (fun x hx => hb x (List.mem_cons_of_mem _ hx)), componentKeys, componentKeys,
        List.compareLex_cons_cons]
      rfl

/-! ## Letters and suffixes -/

def letterKey : Option Char → Nat
  | none => 0
  | some c => c.toNat + 1

theorem compareLetter_eq (a b : Option Char) :
    compareLetter a b = Ord.compare (letterKey a) (letterKey b) := by
  cases a with
  | none => cases b <;> rfl
  | some c =>
    cases b with
    | none => rfl
    | some d =>
      show Ord.compare c.toNat d.toNat = Ord.compare (c.toNat + 1) (d.toNat + 1)
      rw [Nat.compare_eq_ite_lt, Nat.compare_eq_ite_lt]
      simp

/-- The suffixes, and where their end stands: behind every pre-release, before a patch. -/
def suffixKeys (suffixes : List (SuffixKind × Nat)) : List (Nat × Nat) :=
  suffixes.map (fun x => (2 * x.1.rank, x.2)) ++ [(7, 0)]

def compareSuffixKey (a b : Nat × Nat) : Ordering :=
  (Ord.compare a.1 b.1).then (Ord.compare a.2 b.2)

instance : TransCmp compareSuffixKey :=
  inferInstanceAs <| TransCmp <| compareLex (compareOn Prod.fst) (compareOn Prod.snd)

theorem compareSuffixes_eq (as bs : List (SuffixKind × Nat)) :
    compareSuffixes as bs = List.compareLex compareSuffixKey (suffixKeys as) (suffixKeys bs) := by
  induction as generalizing bs with
  | nil =>
    cases bs with
    | nil => rfl
    | cons b bs =>
      obtain ⟨kind, n⟩ := b
      cases kind <;> rfl
  | cons a as ih =>
    obtain ⟨kind, n⟩ := a
    cases bs with
    | nil => cases kind <;> rfl
    | cons b bs =>
      obtain ⟨kind', n'⟩ := b
      have hrank : Ord.compare kind.rank kind'.rank = Ord.compare (2 * kind.rank) (2 * kind'.rank) := by
        cases kind <;> cases kind' <;> rfl
      show ((Ord.compare kind.rank kind'.rank).then (Ord.compare n n')).then (compareSuffixes as bs) = _
      have hcons (x : SuffixKind × Nat) (xs : List (SuffixKind × Nat)) :
          suffixKeys (x :: xs) = (2 * x.1.rank, x.2) :: suffixKeys xs := rfl
      rw [ih, hrank, hcons, hcons, List.compareLex_cons_cons]
      rfl

/-! ## Whole versions -/

def compareByKeys (a b : Version) : Ordering :=
  (List.compareLex compareKey (componentKeys a.components) (componentKeys b.components)).then <|
  (Ord.compare (letterKey a.letter) (letterKey b.letter)).then <|
  (List.compareLex compareSuffixKey (suffixKeys a.suffixes) (suffixKeys b.suffixes)).then <|
  Ord.compare a.revision b.revision

instance : TransCmp compareByKeys :=
  have : TransCmp fun a b : Version =>
      List.compareLex compareKey (componentKeys a.components) (componentKeys b.components) :=
    transCmp_on (List.compareLex compareKey) fun a : Version => componentKeys a.components
  have : TransCmp fun a b : Version =>
      List.compareLex compareSuffixKey (suffixKeys a.suffixes) (suffixKeys b.suffixes) :=
    transCmp_on (List.compareLex compareSuffixKey) fun a : Version => suffixKeys a.suffixes
  inferInstanceAs <| TransCmp <|
    compareLex (fun a b : Version =>
      List.compareLex compareKey (componentKeys a.components) (componentKeys b.components)) <|
    compareLex (compareOn fun a => letterKey a.letter) <|
    compareLex (fun a b : Version =>
      List.compareLex compareSuffixKey (suffixKeys a.suffixes) (suffixKeys b.suffixes))
      (compareOn fun a => a.revision)

theorem compare_eq {a b : Version} (ha : ∀ c ∈ a.components, Text.isDigits c = true)
    (hb : ∀ c ∈ b.components, Text.isDigits c = true) : compare a b = compareByKeys a b := by
  rw [compare, compareComponents_eq ha hb, compareLetter_eq, compareSuffixes_eq]
  rfl

theorem components_of_parse? {t : Text} {v : Version} (h : parse? t = some v) :
    ∀ c ∈ v.components, Text.isDigits c = true := by
  rw [parse?, Option.map_eq_some_iff] at h
  obtain ⟨spelling, hs, rfl⟩ := h
  show ∀ c ∈ spelling.components, Text.isDigits c = true
  unfold Spelling.parse? at hs
  dsimp only at hs
  split at hs
  · next hall =>
    split at hs
    · rw [Option.some.injEq] at hs
      subst hs
      exact List.all_eq_true.mp hall
    · cases hs
  · cases hs

end Version

/-! ## Package versions -/

namespace Cpv

theorem compare_eq (a b : Cpv) :
    compare a b =
      (Text.compare a.category b.category).then ((Text.compare a.package b.package).then
        (Version.compareByKeys a.parsed b.parsed)) := by
  have hdigits (c : Cpv) : ∀ x ∈ c.parsed.components, Text.isDigits x = true :=
    Version.components_of_parse? (Option.some_get c.fullver_valid).symm
  rw [compare, Version.compare_eq (hdigits a) (hdigits b)]

theorem eq_of_compare {a b : Cpv} (h : compare a b = .eq) :
    a.category = b.category ∧ a.package = b.package ∧ Version.compare a.parsed b.parsed = .eq := by
  obtain ⟨hcategory, hrest⟩ := Ordering.then_eq_eq.mp h
  obtain ⟨hpackage, hversion⟩ := Ordering.then_eq_eq.mp hrest
  exact ⟨Text.eq_of_compare hcategory, Text.eq_of_compare hpackage, hversion⟩

instance : TransCmp compare := by
  have hkeys : compare = fun a b => (Text.compare a.category b.category).then
      ((Text.compare a.package b.package).then (Version.compareByKeys a.parsed b.parsed)) := by
    funext a b
    exact compare_eq a b
  rw [hkeys]
  have : TransCmp fun a b : Cpv => Text.compare a.category b.category :=
    transCmp_on Text.compare category
  have : TransCmp fun a b : Cpv => Text.compare a.package b.package :=
    transCmp_on Text.compare package
  have : TransCmp fun a b : Cpv => Version.compareByKeys a.parsed b.parsed :=
    transCmp_on Version.compareByKeys parsed
  exact inferInstanceAs <| TransCmp <| compareLex
    (fun a b : Cpv => Text.compare a.category b.category) <| compareLex
    (fun a b : Cpv => Text.compare a.package b.package)
    (fun a b : Cpv => Version.compareByKeys a.parsed b.parsed)

end Cpv

end PackageHistory
