import Mathlib.Algebra.Order.Ring.Nat
import Mathlib.Tactic.Positivity.Basic
import Mathlib.Tactic.Ring
import PackageHistory.Proofs.Number

/-!
# Integers that are held exactly

Those of 53 significant bits. Every integer that is read is one, and a sum with a short integer
rounds to one.
-/

namespace PackageHistory

namespace Binary64

/-- A natural number that is a magnitude. -/
def IsExact (n : Nat) : Prop :=
  ∃ mantissa shift, mantissa < 2 ^ 53 ∧ shift ≤ 971 ∧ n = mantissa * 2 ^ shift

theorem IsExact.of_lt {n : Nat} (h : n < 2 ^ 53) : IsExact n := ⟨n, 0, h, by omega, by simp⟩

/-- A mantissa of full length and a shift that make a number of more than 53 bits. -/
structure IsLong (mantissa shift : Nat) : Prop where
  low : 2 ^ 52 ≤ mantissa
  high : mantissa < 2 ^ 53
  pos : 1 ≤ shift
  fits : shift ≤ 971

theorem IsExact.isLong {n : Nat} (h : IsExact n) (hlong : 2 ^ 53 ≤ n) :
    ∃ mantissa shift, IsLong mantissa shift ∧ n = mantissa * 2 ^ shift := by
  obtain ⟨m, s, hm, hs, rfl⟩ := h
  have hpos : m ≠ 0 := by
    rintro rfl
    simp at hlong
  have hlog : m.log2 < 53 := (Nat.log2_lt hpos).mpr hm
  have hself : 2 ^ m.log2 ≤ m := Nat.log2_self_le hpos
  have hnext : m < 2 ^ (m.log2 + 1) := Nat.lt_log2_self
  have hshift : 53 < m.log2 + 1 + s := by
    apply (Nat.pow_lt_pow_iff_right (a := 2) (by omega)).mp
    calc 2 ^ 53 ≤ m * 2 ^ s := hlong
      _ < 2 ^ (m.log2 + 1) * 2 ^ s := Nat.mul_lt_mul_of_pos_right hnext (Nat.two_pow_pos _)
      _ = 2 ^ (m.log2 + 1 + s) := (Nat.pow_add ..).symm
  refine ⟨m * 2 ^ (52 - m.log2), s - (52 - m.log2), ⟨?_, ?_, by omega, by omega⟩, ?_⟩
  · calc 2 ^ 52 = 2 ^ m.log2 * 2 ^ (52 - m.log2) := by rw [← Nat.pow_add]; congr 1; omega
      _ ≤ m * 2 ^ (52 - m.log2) := Nat.mul_le_mul_right _ hself
  · calc m * 2 ^ (52 - m.log2) < 2 ^ (m.log2 + 1) * 2 ^ (52 - m.log2) :=
          Nat.mul_lt_mul_of_pos_right hnext (Nat.two_pow_pos _)
      _ = 2 ^ 53 := by rw [← Nat.pow_add]; congr 1; omega
  · rw [Nat.mul_assoc, ← Nat.pow_add]
    congr 2
    omega

/-! ## Rounded quotients -/

theorem mul_add_le_mul {a b : Nat} (h : a < b) (unit : Nat) : a * unit + unit ≤ b * unit := by
  rw [← Nat.succ_mul]
  exact Nat.mul_le_mul_right unit h

section RoundDiv

variable {num den q : Nat}

theorem roundDiv_bounds (h : 0 < den) :
    num / den ≤ roundDiv num den ∧ roundDiv num den ≤ num / den + 1 ∧
      2 * (roundDiv num den * den) ≤ 2 * num + den ∧ 2 * num ≤ 2 * (roundDiv num den * den) + den := by
  have hsplit := Nat.div_add_mod' num den
  have hmod := Nat.mod_lt num h
  have hsucc : (num / den + 1) * den = num / den * den + den := Nat.succ_mul ..
  unfold roundDiv
  dsimp only
  split
  · omega
  · split
    · omega
    · split <;> omega

theorem le_of_mul_lt (den : Nat) (h : 2 * (num * den) < 2 * (q * den) + 2 * den) : num ≤ q := by
  by_contra hlt
  have hmul := mul_add_le_mul (Nat.lt_of_not_ge hlt) den
  omega

/-- A quotient less than a half away rounds to `q`, and so does one that is a half away when `q` is
even. -/
theorem roundDiv_eq (h : 0 < den) (hlow : 2 * (q * den) ≤ 2 * num + den)
    (hhigh : 2 * num ≤ 2 * (q * den) + den)
    (htie : q % 2 = 1 → 2 * (q * den) < 2 * num + den ∧ 2 * num < 2 * (q * den) + den) :
    roundDiv num den = q := by
  have hsplit := Nat.div_add_mod' num den
  have hmod := Nat.mod_lt num h
  have hsucc : (num / den + 1) * den = num / den * den + den := Nat.succ_mul ..
  have hle : num / den ≤ q := le_of_mul_lt den (by omega)
  have hge : q ≤ num / den + 1 := le_of_mul_lt den (by omega)
  unfold roundDiv
  dsimp only
  rcases Nat.lt_or_ge (num / den) q with hlt | hge'
  · obtain rfl : q = num / den + 1 := by omega
    rw [if_neg (by omega)]
    split
    · rfl
    · rw [if_neg (by omega)]
  · obtain rfl : q = num / den := by omega
    split
    · rfl
    · rw [if_neg (by omega), if_pos (by omega)]

theorem roundDiv_le (hden : 0 < den) (h : num < q * den) : roundDiv num den ≤ q := by
  have hquotient : num / den < q := (Nat.div_lt_iff_lt_mul hden).mpr h
  have hround : roundDiv num den ≤ num / den + 1 := (roundDiv_bounds hden).2.1
  omega

end RoundDiv

/-! ## The nearest magnitude of a natural number -/

section Nearest

variable {x shift mantissa : Nat}

theorem log2_of_binade (hlow : 2 ^ (52 + shift) ≤ x) (hhigh : x < 2 ^ (53 + shift)) :
    x.log2 = 52 + shift := by
  have hpos : x ≠ 0 := by
    have := Nat.two_pow_pos (52 + shift)
    omega
  have hle : 52 + shift ≤ x.log2 := (Nat.le_log2 hpos).mpr hlow
  have hlt : x.log2 < 53 + shift := (Nat.log2_lt hpos).mpr hhigh
  omega

/-- Between two powers of two the nearest magnitude is a rounded quotient. -/
theorem nearest_of_binade (hlow : 2 ^ (52 + shift) ≤ x) (hhigh : x < 2 ^ (53 + shift)) :
    nearest x 1 =
      let found : Magnitude :=
        if roundDiv x (2 ^ shift) = 2 ^ 53 then ⟨2 ^ 52, shift + 1⟩
        else ⟨roundDiv x (2 ^ shift), shift⟩
      if 971 < found.exponent then none else some found := by
  have hlog := log2_of_binade hlow hhigh
  have hpos : ¬ x = 0 := by
    have := Nat.two_pow_pos (52 + shift)
    omega
  have hone : Nat.log2 1 = 0 := by decide
  have hguess : scale x 1 (-((52 + shift : Nat) : Int)) = (x, 2 ^ (52 + shift)) := by
    unfold scale
    rw [if_neg (by omega), power_eq, Nat.one_mul]
    congr 2
    omega
  have hexp : max (((52 + shift : Nat) : Int) - 52) (-1074) = shift := by omega
  have hscale : scale x 1 (-(shift : Int)) = (x, 2 ^ shift) := by
    unfold scale
    split
    · obtain rfl : shift = 0 := by omega
      simp
    · rw [power_eq, Nat.one_mul]
      congr 2
      omega
  unfold nearest
  simp only [if_neg hpos, hone, hlog, Int.natCast_zero, Int.sub_zero, hguess, if_pos hlow, hexp,
    hscale, power_eq]

/-- The numbers between the middles to the neighbours of a magnitude, with the middles when the
mantissa is even. Below a power of two the neighbour is half as far away. -/
structure IsBetween (mantissa shift x : Nat) : Prop where
  low : 4 * (mantissa * 2 ^ shift) ≤ 4 * x + (if mantissa = 2 ^ 52 then 1 else 2) * 2 ^ shift
  high : 4 * x ≤ 4 * (mantissa * 2 ^ shift) + 2 * 2 ^ shift
  odd : mantissa % 2 = 1 → 4 * (mantissa * 2 ^ shift) < 4 * x + 2 * 2 ^ shift ∧
    4 * x < 4 * (mantissa * 2 ^ shift) + 2 * 2 ^ shift

theorem isBetween_self : IsBetween mantissa shift (mantissa * 2 ^ shift) := by
  have hunit := Nat.two_pow_pos shift
  exact ⟨by omega, by omega, fun _ => by omega⟩

theorem nearest_of_isBetween (h : IsLong mantissa shift) (hx : IsBetween mantissa shift x) :
    nearest x 1 = some ⟨mantissa, shift⟩ := by
  obtain ⟨hmantissa, hfull, hpos, hshift⟩ := h
  obtain ⟨hlow, hhigh, hodd⟩ := hx
  have hunit := Nat.two_pow_pos shift
  have hless := mul_add_le_mul hfull (2 ^ shift)
  rcases Nat.lt_or_ge x (2 ^ (52 + shift)) with hbelow | hin
  · -- Only a power of two reaches below its binade.
    rw [Nat.pow_add] at hbelow
    have hpower : mantissa = 2 ^ 52 := by
      by_contra hne
      have hmore := mul_add_le_mul (show 2 ^ 52 < mantissa by omega) (2 ^ shift)
      rw [if_neg hne] at hlow
      omega
    subst hpower
    obtain ⟨s, rfl⟩ : ∃ s, shift = s + 1 := ⟨shift - 1, by omega⟩
    rw [if_pos rfl, Nat.pow_succ] at hlow
    rw [Nat.pow_succ] at hbelow
    have hs := Nat.two_pow_pos s
    have hround : roundDiv x (2 ^ s) = 2 ^ 53 :=
      roundDiv_eq hs (by omega) (by omega) (by omega)
    have hin : 2 ^ (52 + s) ≤ x := by rw [Nat.pow_add]; omega
    have hout : x < 2 ^ (53 + s) := by rw [Nat.pow_add]; omega
    rw [nearest_of_binade hin hout]
    simp only [hround, if_true]
    rw [if_neg (by omega)]
    rfl
  · have hround : roundDiv x (2 ^ shift) = mantissa := by
      refine roundDiv_eq hunit ?_ (by omega) fun h => ?_
      · split at hlow <;> omega
      · have hclose := hodd h
        exact ⟨by omega, by omega⟩
    have hne : ¬ mantissa = 2 ^ 53 := by omega
    rw [nearest_of_binade hin (by rw [Nat.pow_add]; omega)]
    simp only [hround, if_neg hne]
    rw [if_neg (by omega)]

end Nearest

/-! ## Sums -/

theorem roundNat_of_binade {x shift : Nat} (hpos : 1 ≤ shift) (hlow : 2 ^ (52 + shift) ≤ x)
    (hhigh : x < 2 ^ (53 + shift)) : roundNat x = roundDiv x (2 ^ shift) * 2 ^ shift := by
  have hlong : 2 ^ 53 ≤ x := Nat.le_trans (Nat.pow_le_pow_right (by omega) (by omega)) hlow
  unfold roundNat
  simp only [power_eq, log2_of_binade hlow hhigh]
  rw [if_neg (by omega), Nat.add_sub_cancel_left]

theorem exists_binade {x : Nat} (h : 2 ^ 53 ≤ x) :
    ∃ shift, 1 ≤ shift ∧ 2 ^ (52 + shift) ≤ x ∧ x < 2 ^ (53 + shift) := by
  have hlog : 53 ≤ x.log2 := (Nat.le_log2 (by omega)).mpr h
  have hself : 2 ^ x.log2 ≤ x := Nat.log2_self_le (by omega)
  have hnext : x < 2 ^ (x.log2 + 1) := Nat.lt_log2_self
  refine ⟨x.log2 - 52, by omega, ?_, ?_⟩
  · rwa [show 52 + (x.log2 - 52) = x.log2 by omega]
  · rwa [show 53 + (x.log2 - 52) = x.log2 + 1 by omega]

theorem le_roundNat {x : Nat} (h : 2 ^ 53 ≤ x) : 2 ^ 53 ≤ roundNat x := by
  obtain ⟨shift, hpos, hlow, hhigh⟩ := exists_binade h
  rw [roundNat_of_binade hpos hlow hhigh]
  have hunit := Nat.two_pow_pos shift
  have hquotient : 2 ^ 52 ≤ x / 2 ^ shift := by
    rw [Nat.le_div_iff_mul_le hunit, ← Nat.pow_add]
    exact hlow
  calc 2 ^ 53 = 2 ^ 52 * 2 ^ 1 := rfl
    _ ≤ 2 ^ 52 * 2 ^ shift := Nat.mul_le_mul_left _ (Nat.pow_le_pow_right (by omega) hpos)
    _ ≤ roundDiv x (2 ^ shift) * 2 ^ shift :=
      Nat.mul_le_mul_right _ (Nat.le_trans hquotient (roundDiv_bounds hunit).1)

/-- Half of the last place of the greatest magnitude. What is less can be added without leaving the range. -/
def halfOfLastPlace : Nat := power 2 970

theorem short_lt_halfOfLastPlace : 2 ^ 53 < halfOfLastPlace := by
  have hpower {top : Nat} (h : 53 < top) : 2 ^ 53 < power 2 top := Nat.pow_lt_pow_right (by omega) h
  exact hpower (by omega)

theorem isExact_roundNat {m k : Nat} (hm : IsExact m) (hk : k < halfOfLastPlace) :
    IsExact (roundNat (m + k)) := by
  rcases Nat.lt_or_ge (m + k) (2 ^ 53) with hlt | hlong
  · have hself : roundNat (m + k) = m + k := by rw [roundNat, power_eq, if_pos hlt]
    rw [hself]
    exact .of_lt hlt
  obtain ⟨mantissa, most, hmantissa, hmost, rfl⟩ := hm
  -- The greatest shift is named, so that no power of it is computed.
  obtain ⟨top, htop⟩ : ∃ top, top = 970 := ⟨_, rfl⟩
  rw [halfOfLastPlace, ← htop, power_eq] at hk
  have hhalf : 2 ^ (top + 1) = 2 * 2 ^ top := Nat.pow_succ'
  have hlimit : mantissa * 2 ^ most + 2 ^ (top + 1) ≤ 2 ^ 53 * 2 ^ (top + 1) :=
    calc mantissa * 2 ^ most + 2 ^ (top + 1) ≤ mantissa * 2 ^ (top + 1) + 2 ^ (top + 1) :=
          Nat.add_le_add_right
            (Nat.mul_le_mul_left _ (Nat.pow_le_pow_right (by omega) (by omega))) _
      _ ≤ 2 ^ 53 * 2 ^ (top + 1) := mul_add_le_mul hmantissa _
  generalize mantissa * 2 ^ most = m at hlong hlimit ⊢
  obtain ⟨shift, hpos, hlow, hhigh⟩ := exists_binade hlong
  have hshort : shift ≤ top + 1 := by
    have hlt : 2 ^ (52 + shift) < 2 ^ (53 + (top + 1)) := by
      rw [Nat.pow_add 2 53]
      omega
    have := (Nat.pow_lt_pow_iff_right (a := 2) (by omega)).mp hlt
    omega
  rw [roundNat_of_binade hpos hlow hhigh]
  have hunit := Nat.two_pow_pos shift
  have hle : roundDiv (m + k) (2 ^ shift) ≤ 2 ^ 53 :=
    roundDiv_le hunit (by rwa [← Nat.pow_add])
  rcases Nat.lt_or_eq_of_le hle with hlt | heq
  · exact ⟨_, shift, hlt, by omega, rfl⟩
  · refine ⟨2 ^ 52, shift + 1, by omega, ?_, by rw [heq, Nat.pow_succ]; ring⟩
    -- At the top of the range the sum does not round up to the next power of two.
    by_contra hover
    obtain rfl : shift = top + 1 := by omega
    have hbound : 2 * (roundDiv (m + k) (2 ^ (top + 1)) * 2 ^ (top + 1)) ≤ 2 * (m + k) + 2 ^ (top + 1) :=
      (roundDiv_bounds hunit).2.2.1
    rw [heq] at hbound
    omega

/-! ## What is read -/

theorem scale_eq (a b : Nat) (e : Int) : scale a b e = (a * 2 ^ e.toNat, b * 2 ^ (-e).toNat) := by
  unfold scale
  split
  · rw [show (-e).toNat = 0 by omega]
    simp
  · rw [show e.toNat = 0 by omega]
    simp

/-- Scaled down to its leading 53 bits a quotient is below `2 ^ 53`. -/
theorem scaled_lt {num den : Nat} {log exponent : Int} (hden : den ≠ 0)
    (hlog : log = if (scale num den (-((num.log2 : Int) - den.log2))).2 ≤
        (scale num den (-((num.log2 : Int) - den.log2))).1
      then (num.log2 : Int) - den.log2 else (num.log2 : Int) - den.log2 - 1)
    (hexponent : log - 52 ≤ exponent) :
    (scale num den (-exponent)).1 < 2 ^ 53 * (scale num den (-exponent)).2 := by
  have hnext : num < 2 ^ (num.log2 + 1) := Nat.lt_log2_self
  have hself : 2 ^ den.log2 ≤ den := Nat.log2_self_le hden
  simp only [scale_eq] at hlog ⊢
  rw [Int.neg_neg]
  split at hlog
  · calc num * 2 ^ (-exponent).toNat < 2 ^ (num.log2 + 1) * 2 ^ (-exponent).toNat :=
          Nat.mul_lt_mul_of_pos_right hnext (Nat.two_pow_pos _)
      _ = 2 ^ (num.log2 + 1 + (-exponent).toNat) := (Nat.pow_add ..).symm
      _ ≤ 2 ^ (53 + (den.log2 + exponent.toNat)) := Nat.pow_le_pow_right (by omega) (by omega)
      _ = 2 ^ 53 * (2 ^ den.log2 * 2 ^ exponent.toNat) := by rw [Nat.pow_add, Nat.pow_add]
      _ ≤ 2 ^ 53 * (den * 2 ^ exponent.toNat) :=
          Nat.mul_le_mul_left _ (Nat.mul_le_mul_right _ hself)
  · next hless =>
    rw [Nat.not_le, Int.neg_neg] at hless
    generalize hp : (-((num.log2 : Int) - den.log2)).toNat = p at hless
    generalize hq : ((num.log2 : Int) - den.log2).toNat = q at hless
    apply Nat.lt_of_mul_lt_mul_right (a := 2 ^ p)
    calc num * 2 ^ (-exponent).toNat * 2 ^ p = num * 2 ^ p * 2 ^ (-exponent).toNat := by ring
      _ < den * 2 ^ q * 2 ^ (-exponent).toNat :=
          Nat.mul_lt_mul_of_pos_right hless (Nat.two_pow_pos _)
      _ = den * 2 ^ (q + (-exponent).toNat) := by rw [Nat.pow_add]; ring
      _ ≤ den * 2 ^ (53 + exponent.toNat + p) :=
          Nat.mul_le_mul_left _ (Nat.pow_le_pow_right (by omega) (by omega))
      _ = 2 ^ 53 * (den * 2 ^ exponent.toNat) * 2 ^ p := by rw [Nat.pow_add, Nat.pow_add]; ring

theorem nearest_of_pos {num den : Nat} (hnum : num ≠ 0) (hden : den ≠ 0) :
    ∃ exponent, (scale num den (-exponent)).1 < 2 ^ 53 * (scale num den (-exponent)).2 ∧
      nearest num den =
        let mantissa := roundDiv (scale num den (-exponent)).1 (scale num den (-exponent)).2
        let found : Magnitude :=
          if mantissa = 2 ^ 53 then ⟨2 ^ 52, exponent + 1⟩ else ⟨mantissa, exponent⟩
        if 971 < found.exponent then none else some found := by
  refine ⟨_, scaled_lt hden rfl (Int.le_max_left _ (-1074)), ?_⟩
  unfold nearest
  rw [if_neg hnum]
  rfl

theorem nearest_fits {num den : Nat} {m : Magnitude} (hden : den ≠ 0)
    (h : nearest num den = some m) : m.mantissa < 2 ^ 53 ∧ m.exponent ≤ 971 := by
  by_cases hnum : num = 0
  · rw [nearest, if_pos hnum] at h
    cases h
    decide
  obtain ⟨exponent, hlt, heq⟩ := nearest_of_pos hnum hden
  have hle := roundDiv_le (by rw [scale_eq]; exact Nat.mul_pos (by omega) (Nat.two_pow_pos _)) hlt
  have hfound : ∀ found : Magnitude, (if 971 < found.exponent then none else some found) = some m →
      found = m ∧ m.exponent ≤ 971 := by
    intro found hf
    split at hf
    · cases hf
    · cases hf
      exact ⟨rfl, by omega⟩
  obtain ⟨hm, hexponent⟩ := hfound _ (heq.symm.trans h)
  refine ⟨?_, hexponent⟩
  rw [← hm]
  split
  · show 2 ^ 52 < 2 ^ 53
    omega
  · next hne => exact Nat.lt_of_le_of_ne hle hne

end Binary64

namespace Number

open Binary64

/-- A sum that is held as a short integer was one. -/
theorem short_of_plus_le {m k : Nat} (h : (integer m).plus k ≤ integer (2 ^ 53 - 1)) :
    m + k < 2 ^ 53 := by
  by_contra hlong
  have hround := le_roundNat (x := m + k) (by omega)
  have hsum : (integer m).plus k = integer (roundNat (m + k)) := rfl
  rw [hsum, integer_le_integer] at h
  omega

/-- The number is an integer only if that is held exactly. -/
def HoldsExact (a : Number) : Prop := ∀ n, a = .integer n → IsExact n.natAbs

theorem holdsExact_ofMagnitude {m : Magnitude} (hmantissa : m.mantissa < 2 ^ 53)
    (hexponent : m.exponent ≤ 971) (negative : Bool) : (ofMagnitude negative m).HoldsExact := by
  intro n hn
  unfold ofMagnitude at hn
  simp only [scale_eq, Nat.one_mul] at hn
  split at hn
  · rw [integer.injEq] at hn
    have hsize : n.natAbs = m.mantissa * 2 ^ m.exponent.toNat / 2 ^ (-m.exponent).toNat := by
      rw [← hn]
      split
      · rw [Int.natAbs_neg, Int.natAbs_natCast]
      · rw [Int.natAbs_natCast]
    rw [hsize]
    rcases Int.le_total 0 m.exponent with hge | hle
    · rw [show (-m.exponent).toNat = 0 by omega, Nat.pow_zero, Nat.div_one]
      exact ⟨_, _, hmantissa, by omega, rfl⟩
    · rw [show m.exponent.toNat = 0 by omega, Nat.pow_zero, Nat.mul_one]
      exact .of_lt (Nat.lt_of_le_of_lt (Nat.div_le_self ..) hmantissa)
  · cases hn

theorem holdsExact_ofDecimal (negative : Bool) (digits : Text) (exponent : Int) :
    (ofDecimal negative digits exponent).HoldsExact := by
  unfold ofDecimal
  dsimp only
  split
  · intro n hn
    cases hn
    exact .of_lt (by decide)
  · split
    · nofun
    · unfold ofQuotient
      split
      · next hm =>
        obtain ⟨hmantissa, hexponent⟩ := nearest_fits (by rw [power_eq]; positivity) hm
        exact holdsExact_ofMagnitude hmantissa hexponent negative
      · nofun

end Number

end PackageHistory
