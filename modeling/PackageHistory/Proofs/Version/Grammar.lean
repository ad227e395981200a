import Mathlib.Computability.RegularExpressions
import PackageHistory.Proofs.Version.Cutting

/-!
# The grammar of versions

The valid versions are the words of one regular expression, and each of them has one spelling. What is read of
it are the parts of that spelling, with numbers in place of the digits of suffixes and revision.
-/

namespace PackageHistory.Version

/-! ## The expression -/

namespace Pattern

open RegularExpression

def oneOf (chars : List Char) : RegularExpression Char := chars.foldr (fun c e => char c + e) 0

def word (t : Text) : RegularExpression Char := t.foldr (fun c e => char c * e) 1

def oneOfWords (words : List Text) : RegularExpression Char :=
  words.foldr (fun w e => word w + e) 0

/-- One time or more. -/
def atLeastOnce (e : RegularExpression Char) : RegularExpression Char := e * e.star

def perhaps (e : RegularExpression Char) : RegularExpression Char := 1 + e

def digit : RegularExpression Char := oneOf "0123456789".toList

def lower : RegularExpression Char := oneOf "abcdefghijklmnopqrstuvwxyz".toList

def numbers : RegularExpression Char :=
  atLeastOnce digit * (char '.' * atLeastOnce digit).star

def suffix : RegularExpression Char :=
  char '_' * oneOfWords (SuffixKind.all.map SuffixKind.name) * digit.star

def revision : RegularExpression Char := word ['-', 'r'] * atLeastOnce digit

def version : RegularExpression Char := numbers * perhaps lower * suffix.star * perhaps revision

/-! ## Its words -/

variable {t : Text}

theorem mem_char {c : Char} : t ∈ (char c).matches' ↔ t = [c] := Iff.rfl

@[simp] theorem mem_oneOf {chars : List Char} :
    t ∈ (oneOf chars).matches' ↔ ∃ c ∈ chars, t = [c] := by
  induction chars with
  | nil => simp [oneOf]
  | cons d rest ih =>
    have hcons : oneOf (d :: rest) = char d + oneOf rest := rfl
    rw [hcons, matches'_add, Language.mem_add, mem_char, ih]
    simp

@[simp] theorem mem_word {w : Text} : t ∈ (word w).matches' ↔ t = w := by
  induction w generalizing t with
  | nil => simp [word]
  | cons c rest ih =>
    have hcons : word (c :: rest) = char c * word rest := rfl
    rw [hcons, matches'_mul, Language.mem_mul]
    simp only [mem_char, ih]
    constructor
    · rintro ⟨_, rfl, _, rfl, rfl⟩
      rfl
    · rintro rfl
      exact ⟨_, rfl, _, rfl, rfl⟩

@[simp] theorem mem_oneOfWords {words : List Text} :
    t ∈ (oneOfWords words).matches' ↔ t ∈ words := by
  induction words with
  | nil => simp [oneOfWords]
  | cons w rest ih =>
    have hcons : oneOfWords (w :: rest) = word w + oneOfWords rest := rfl
    rw [hcons, matches'_add, Language.mem_add, mem_word, ih, List.mem_cons]

@[simp] theorem mem_perhaps {e : RegularExpression Char} :
    t ∈ (perhaps e).matches' ↔ t = [] ∨ t ∈ e.matches' := by
  simp [perhaps, Language.mem_add]

/-- When the words of an expression are the values of a function, its repetitions are the values that stand
one after another. -/
theorem mem_star {α : Type} {e : RegularExpression Char} {P : α → Prop} {f : α → Text}
    (h : ∀ t, t ∈ e.matches' ↔ ∃ x, P x ∧ t = f x) :
    t ∈ e.star.matches' ↔ ∃ xs : List α, (∀ x ∈ xs, P x) ∧ t = xs.flatMap f := by
  rw [matches'_star, Language.mem_kstar]
  constructor
  · rintro ⟨pieces, rfl, hpieces⟩
    induction pieces with
    | nil => exact ⟨[], by simp, rfl⟩
    | cons piece rest ih =>
      obtain ⟨hpiece, hrest⟩ := List.forall_mem_cons.mp hpieces
      obtain ⟨x, hx, rfl⟩ := (h piece).mp hpiece
      obtain ⟨xs, hxs, heq⟩ := ih hrest
      exact ⟨x :: xs, List.forall_mem_cons.mpr ⟨hx, hxs⟩, by simp [heq]⟩
  · rintro ⟨xs, hxs, rfl⟩
    refine ⟨xs.map f, by rw [List.flatMap_def], ?_⟩
    intro piece hpiece
    obtain ⟨x, hx, rfl⟩ := List.mem_map.mp hpiece
    exact (h _).mpr ⟨x, hxs x hx, rfl⟩

theorem isDigit_iff_mem {c : Char} : c.isDigit = true ↔ c ∈ "0123456789".toList := by
  constructor
  · intro h
    have hrange := Text.isDigit_iff.mp h
    have hall : ∀ n < 58, 48 ≤ n → Char.ofNat n ∈ "0123456789".toList := by decide
    simpa using hall c.toNat (by omega) hrange.1
  · have hall : "0123456789".toList.all Char.isDigit = true := by decide
    exact List.all_eq_true.mp hall c

theorem isLower_iff_mem {c : Char} : c.isLower = true ↔ c ∈ "abcdefghijklmnopqrstuvwxyz".toList := by
  constructor
  · intro h
    have hrange := Text.isLower_iff.mp h
    have hall : ∀ n < 123, 97 ≤ n → Char.ofNat n ∈ "abcdefghijklmnopqrstuvwxyz".toList := by decide
    simpa using hall c.toNat (by omega) hrange.1
  · have hall : "abcdefghijklmnopqrstuvwxyz".toList.all Char.isLower = true := by decide
    exact List.all_eq_true.mp hall c

theorem mem_digit : t ∈ digit.matches' ↔ ∃ c, c.isDigit = true ∧ t = [c] := by
  simp only [digit, mem_oneOf, isDigit_iff_mem]

theorem mem_digits : t ∈ digit.star.matches' ↔ t.all Char.isDigit = true := by
  rw [mem_star fun _ => mem_digit]
  simp

theorem mem_atLeastOnce_digit : t ∈ (atLeastOnce digit).matches' ↔ Text.isDigits t = true := by
  rw [atLeastOnce, matches'_mul, Language.mem_mul]
  simp only [mem_digits, mem_digit]
  constructor
  · rintro ⟨_, ⟨c, hc, rfl⟩, rest, hrest, rfl⟩
    simpa [Text.isDigits, hc] using hrest
  · intro h
    cases t with
    | nil => cases h
    | cons c rest =>
      simp only [Text.isDigits, List.all_cons, Bool.and_eq_true] at h
      exact ⟨[c], ⟨c, h.2.1, rfl⟩, rest, h.2.2, rfl⟩

theorem mem_numbers : t ∈ numbers.matches' ↔ ∃ components : List Text,
    components ≠ [] ∧ (∀ c ∈ components, Text.isDigits c = true) ∧
      t = Text.join ['.'] components := by
  have hdotted (u : Text) : u ∈ (char '.' * atLeastOnce digit).matches' ↔
      ∃ digits, Text.isDigits digits = true ∧ u = ['.'] ++ digits := by
    rw [matches'_mul, Language.mem_mul]
    simp only [mem_char, mem_atLeastOnce_digit]
    constructor
    · rintro ⟨_, rfl, digits, hdigits, rfl⟩
      exact ⟨digits, hdigits, rfl⟩
    · rintro ⟨digits, hdigits, rfl⟩
      exact ⟨_, rfl, digits, hdigits, rfl⟩
  rw [numbers, matches'_mul, Language.mem_mul]
  simp only [mem_atLeastOnce_digit, mem_star hdotted]
  constructor
  · rintro ⟨first, hfirst, _, ⟨rest, hrest, rfl⟩, rfl⟩
    exact ⟨first :: rest, List.cons_ne_nil _ _, List.forall_mem_cons.mpr ⟨hfirst, hrest⟩,
      (Text.join_cons ..).symm⟩
  · rintro ⟨components, hne, hdigits, rfl⟩
    obtain ⟨first, rest, rfl⟩ := List.exists_cons_of_ne_nil hne
    obtain ⟨hfirst, hrest⟩ := List.forall_mem_cons.mp hdigits
    exact ⟨first, hfirst, _, ⟨rest, hrest, rfl⟩, (Text.join_cons ..).symm⟩

theorem mem_suffix : t ∈ suffix.matches' ↔
    ∃ x : SuffixKind × Text, x.2.all Char.isDigit = true ∧ t = Spelling.renderSuffix x := by
  rw [suffix, matches'_mul, matches'_mul, Language.mem_mul]
  simp only [Language.mem_mul, mem_char, mem_oneOfWords, mem_digits]
  constructor
  · rintro ⟨_, ⟨_, rfl, name, hname, rfl⟩, digits, hdigits, rfl⟩
    obtain ⟨kind, -, rfl⟩ := List.mem_map.mp hname
    exact ⟨(kind, digits), hdigits, rfl⟩
  · rintro ⟨⟨kind, digits⟩, hdigits, rfl⟩
    refine ⟨'_' :: kind.name, ⟨['_'], rfl, kind.name, ?_, rfl⟩, digits, hdigits, rfl⟩
    exact List.mem_map_of_mem (by cases kind <;> decide)

theorem mem_revision : t ∈ (perhaps revision).matches' ↔ ∃ r : Option Text,
    (∀ digits, r = some digits → Text.isDigits digits = true) ∧ t = Spelling.renderRevision r := by
  rw [mem_perhaps, revision, matches'_mul, Language.mem_mul]
  simp only [mem_word, mem_atLeastOnce_digit]
  constructor
  · rintro (rfl | ⟨_, rfl, digits, hdigits, rfl⟩)
    · exact ⟨none, by simp, rfl⟩
    · exact ⟨some digits, by simpa using hdigits, rfl⟩
  · rintro ⟨r, hr, rfl⟩
    cases r with
    | none => exact .inl rfl
    | some digits => exact .inr ⟨_, rfl, digits, hr digits rfl, rfl⟩

theorem mem_letter : t ∈ (perhaps lower).matches' ↔ ∃ letter : Option Char,
    (∀ c, letter = some c → c.isLower = true) ∧ t = letter.toList := by
  rw [mem_perhaps, lower, mem_oneOf]
  simp only [← isLower_iff_mem]
  constructor
  · rintro (rfl | ⟨c, hc, rfl⟩)
    · exact ⟨none, by simp, rfl⟩
    · exact ⟨some c, by simpa using hc, rfl⟩
  · rintro ⟨letter, hletter, rfl⟩
    cases letter with
    | none => exact .inl rfl
    | some c => exact .inr ⟨c, hletter c rfl, rfl⟩

theorem mem_version : t ∈ version.matches' ↔ ∃ s : Spelling, s.WellFormed ∧ s.render = t := by
  rw [version, matches'_mul, matches'_mul, matches'_mul, Language.mem_mul]
  simp only [Language.mem_mul, mem_numbers, mem_letter, mem_star fun _ => mem_suffix, mem_revision]
  constructor
  · rintro ⟨_, ⟨_, ⟨_, ⟨components, hne, hdigits, rfl⟩, _, ⟨letter, hletter, rfl⟩, rfl⟩, _,
      ⟨suffixes, hsuffixes, rfl⟩, rfl⟩, _, ⟨revision, hrevision, rfl⟩, rfl⟩
    exact ⟨⟨components, letter, suffixes, revision⟩,
      ⟨hne, hdigits, hletter, hsuffixes, hrevision⟩, rfl⟩
  · rintro ⟨s, h, rfl⟩
    exact ⟨_, ⟨_, ⟨_, ⟨_, h.components_ne_nil, h.component_digits, rfl⟩, _,
      ⟨_, h.letter_lower, rfl⟩, rfl⟩, _, ⟨_, h.suffix_digits, rfl⟩, rfl⟩, _,
      ⟨_, h.revision_digits, rfl⟩, rfl⟩

end Pattern

/-! ## Versions and their spellings -/

variable {t : Text}

theorem revision_ofSpelling (s : Spelling) :
    (ofSpelling s).revision = s.revision.elim 0 Text.digitsValue := by
  unfold ofSpelling
  cases s.revision <;> rfl

theorem parse?_render {s : Spelling} (h : s.WellFormed) : parse? s.render = some (ofSpelling s) := by
  rw [parse?, Spelling.parse?_eq_some_iff.mpr ⟨h, rfl⟩]
  rfl

theorem exists_spelling_of_parse? {v : Version} (h : parse? t = some v) :
    ∃ s : Spelling, s.WellFormed ∧ s.render = t ∧ v = ofSpelling s := by
  obtain ⟨s, hs, rfl⟩ := Option.map_eq_some_iff.mp h
  obtain ⟨hwell, hrender⟩ := Spelling.parse?_eq_some_iff.mp hs
  exact ⟨s, hwell, hrender, rfl⟩

theorem isValid_iff : isValid t = true ↔ ∃ s : Spelling, s.WellFormed ∧ s.render = t := by
  rw [isValid, Option.isSome_iff_exists]
  constructor
  · rintro ⟨v, hv⟩
    obtain ⟨s, h, hrender, -⟩ := exists_spelling_of_parse? hv
    exact ⟨s, h, hrender⟩
  · rintro ⟨s, h, rfl⟩
    exact ⟨_, parse?_render h⟩

/-- To read is to test a text and cut it from the end. -/
theorem parse?_eq_cut (t : Text) :
    parse? t = if isValid t then (Spelling.cut? t).map ofSpelling else none := by
  split
  · next hvalid =>
    obtain ⟨s, h, rfl⟩ := isValid_iff.mp hvalid
    rw [Spelling.cut?_render h, parse?_render h, Option.map_some]
  · next hvalid => exact Option.not_isSome_iff_eq_none.mp hvalid

/-- Reading accepts the words of the expression, which are the texts that have a spelling. That is unique,
and what is read, or cut from the end, are its parts. -/
theorem parse?_iff_spelled (t : Text) :
    ((parse? t).isSome = true ↔ isValid t = true) ∧
    (isValid t = true ↔ t ∈ Pattern.version.matches') ∧
    (isValid t = true ↔ ∃! s : Spelling, s.WellFormed ∧ s.render = t) ∧
    parse? t = (if isValid t then (Spelling.cut? t).map ofSpelling else none) ∧
    ∀ s : Spelling, s.WellFormed → s.render = t → ∃ v, parse? t = some v ∧
      v.components = s.components ∧ v.letter = s.letter ∧
      v.suffixes = s.suffixes.map (fun x => (x.1, Text.digitsValue x.2)) ∧
      v.revision = s.revision.elim 0 Text.digitsValue := by
  refine ⟨Iff.rfl, isValid_iff.trans Pattern.mem_version.symm, ?_, parse?_eq_cut t, ?_⟩
  · rw [isValid_iff]
    constructor
    · rintro ⟨s, h, hrender⟩
      refine ⟨s, ⟨h, hrender⟩, ?_⟩
      rintro s' ⟨h', hrender'⟩
      exact Spelling.render_injective h' h (hrender'.trans hrender.symm)
    · exact ExistsUnique.exists
  · rintro s h rfl
    exact ⟨_, parse?_render h, rfl, rfl, rfl, revision_ofSpelling s⟩

/-- A letter, a suffix without digits right behind it, and zeros that count for nothing. -/
def lettered : Spelling where
  components := ["1".toList, "020".toList]
  letter := some 'b'
  suffixes := [(.pre, []), (.p, "07".toList)]
  revision := some "003".toList

theorem parse?_lettered : lettered.WellFormed ∧ lettered.render = "1.020b_pre_p07-r003".toList ∧
    ∃ v, parse? "1.020b_pre_p07-r003".toList = some v ∧
      v.components = ["1".toList, "020".toList] ∧ v.letter = some 'b' ∧
      v.suffixes = [(.pre, 0), (.p, 7)] ∧ v.revision = 3 := by
  have hwell : lettered.WellFormed :=
    ⟨by decide, by decide, by rintro c ⟨⟩; rfl, by decide, by decide⟩
  have hrender : lettered.render = "1.020b_pre_p07-r003".toList := by decide
  exact ⟨hwell, hrender, (parse?_iff_spelled _).2.2.2.2 lettered hwell hrender⟩

end PackageHistory.Version
