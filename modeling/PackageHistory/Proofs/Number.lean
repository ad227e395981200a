import Mathlib.Algebra.Group.Int.Defs
import Mathlib.Algebra.Group.Nat.Defs
import PackageHistory.Number

/-! # Integers among the numbers: sums, and digits that read back -/

namespace PackageHistory

open Binary64

/-! ## Digits -/

namespace Text

theorem digitsValue_ofNat (n : Nat) : digitsValue (ofNat n) = n :=
  Nat.ofDigitChars_ten_toDigits

theorem isDigit_of_mem_ofNat {n : Nat} {c : Char} (h : c ∈ ofNat n) : c.isDigit = true :=
  Nat.isDigit_of_mem_toDigits (by omega) (by omega) h

theorem ofNat_ne_nil (n : Nat) : ofNat n ≠ [] := Nat.toDigits_ne_nil

theorem head?_ofNat {n : Nat} (h : 0 < n) : (ofNat n).head? ≠ some '0' := by
  induction n using Nat.strongRecOn with
  | _ n ih =>
    unfold ofNat
    by_cases hlt : n < 10
    · rw [Nat.toDigits_of_lt_base hlt]
      have hall : ∀ m < 10, 0 < m → [m.digitChar].head? ≠ some '0' := by decide
      exact hall n hlt h
    · rw [Nat.toDigits_of_base_le (by omega) (by omega)]
      have htens := ih (n / 10) (by omega) (by omega)
      rw [List.head?_append]
      cases hd : (Nat.toDigits 10 (n / 10)).head? with
      | none => exact absurd (List.head?_eq_none_iff.mp hd) Nat.toDigits_ne_nil
      | some c =>
        rw [ofNat, hd] at htens
        exact htens

theorem length_ofNat_le {n : Nat} (h : n < 2 ^ 53) : (ofNat n).length ≤ 16 :=
  (Nat.length_toDigits_le_iff (by omega) (by omega)).mpr (by omega)

end Text

/-! ## Exact magnitudes -/

namespace Binary64

@[simp] theorem power_eq (base exponent : Nat) : power base exponent = base ^ exponent := rfl

theorem round_of_natAbs_lt {n : Int} (h : n.natAbs < 2 ^ 53) : round n = n := by
  have hnat {k : Nat} (hk : k < 2 ^ 53) : roundNat k = k := by
    rw [roundNat, power_eq, if_pos hk]
  cases n with
  | ofNat n =>
    show ((roundNat n : Nat) : Int) = Int.ofNat n
    rw [hnat (k := n) h]
    rfl
  | negSucc n =>
    show -(roundNat (n + 1) : Int) = Int.negSucc n
    rw [hnat (by simpa using h)]
    rfl

theorem roundDiv_one (n : Nat) : roundDiv n 1 = n := by
  unfold roundDiv
  simp [Nat.mod_one]

/-- Up to 53 bits the nearest magnitude is the number itself, shifted to full length. -/
theorem nearest_of_lt {n : Nat} (hpos : 0 < n) (h : n < 2 ^ 53) :
    nearest n 1 = some ⟨n * 2 ^ (52 - n.log2), n.log2 - 52⟩ := by
  have hlog : n.log2 < 53 := (Nat.log2_lt (by omega)).mpr h
  have hself : 2 ^ n.log2 ≤ n := Nat.log2_self_le (by omega)
  have hone : Nat.log2 1 = 0 := by decide
  have hlt : n * 2 ^ (52 - n.log2) < 2 ^ 53 := by
    have hnext : n < 2 ^ (n.log2 + 1) := Nat.lt_log2_self
    calc n * 2 ^ (52 - n.log2) < 2 ^ (n.log2 + 1) * 2 ^ (52 - n.log2) :=
          Nat.mul_lt_mul_of_pos_right hnext (Nat.two_pow_pos _)
      _ = 2 ^ 53 := by rw [← Nat.pow_add]; congr 1; omega
  have hguess : ((scale n 1 (-(n.log2 : Int))).2 ≤ (scale n 1 (-(n.log2 : Int))).1) := by
    unfold scale
    split
    · next h0 =>
      have : n.log2 = 0 := by omega
      simp [this]
      omega
    · simpa using hself
  have hexp : max ((n.log2 : Int) - 52) (-1074) = n.log2 - 52 := by omega
  have hscale : scale n 1 (-((n.log2 : Int) - 52)) = (n * 2 ^ (52 - n.log2), 1) := by
    unfold scale
    rw [if_pos (by omega)]
    congr 3
    omega
  unfold nearest
  simp only [hone, Int.natCast_zero, Int.sub_zero, if_neg (show ¬ n = 0 by omega)]
  rw [if_pos hguess, hexp, hscale]
  dsimp only
  have hshort : ¬ n * 2 ^ (52 - n.log2) = 2 ^ 53 := by omega
  simp only [roundDiv_one, power_eq, if_neg hshort]
  rw [if_neg (by omega)]

end Binary64

namespace Number

/-! ## Sums -/

theorem integer_plus {m n : Int} (h : (m + n).natAbs < 2 ^ 53) :
    (integer m).plus n = integer (m + n) := by
  rw [plus, round_of_natAbs_lt h]

/-! ## Integers made of their digits -/

theorem ofMagnitude_shifted {n : Nat} (h : n < 2 ^ 53) (negative : Bool) :
    ofMagnitude negative ⟨n * 2 ^ (52 - n.log2), n.log2 - 52⟩ =
      integer (if negative then -n else n) := by
  have hlog : n.log2 < 53 := by
    by_cases h0 : n = 0
    · subst h0; decide
    · exact (Nat.log2_lt h0).mpr h
  have hunit : scale 1 1 ((n.log2 : Int) - 52) = (1, 2 ^ (52 - n.log2)) := by
    unfold scale
    split
    · have h52 : n.log2 = 52 := by omega
      simp [h52]
    · congr 1
      rw [Nat.one_mul]
      congr 1
      omega
  unfold ofMagnitude
  simp only [hunit, Nat.mul_one, Nat.mul_mod_left, if_true]
  rw [Nat.mul_div_cancel _ (Nat.two_pow_pos _)]

theorem ofDecimal_ofNat {n : Nat} (h : n < 2 ^ 53) (negative : Bool) :
    ofDecimal negative (Text.ofNat n) 0 = integer (if negative then -n else n) := by
  by_cases h0 : n = 0
  · subst h0
    cases negative <;> decide
  have hpos : 0 < n := by omega
  have hdrop : (Text.ofNat n).dropWhile (· = '0') = Text.ofNat n := by
    cases ht : Text.ofNat n with
    | nil => rfl
    | cons c cs =>
      have hhead := Text.head?_ofNat hpos
      rw [ht] at hhead
      rw [List.dropWhile_cons_of_neg (by simpa using hhead)]
  have hlength := Text.length_ofNat_le h
  unfold ofDecimal
  simp only [hdrop]
  rw [if_neg (by simp [Text.ofNat_ne_nil]), if_neg (by simp; omega), Text.digitsValue_ofNat]
  simp only [Int.toNat_zero, Int.neg_zero, power_eq, Nat.pow_zero, Nat.mul_one, ofQuotient]
  rw [nearest_of_lt hpos h]
  exact ofMagnitude_shifted h negative

end Number

end PackageHistory
