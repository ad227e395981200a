import Mathlib.Data.List.DropRight
import PackageHistory.Proofs.Number.Exact

/-!
# The shortest decimals of long integers

Among 17 digits there are some that read back, so an integer that is held exactly is written as digits
that are followed by zeros or by the power of ten that stands for them.
-/

namespace PackageHistory

namespace Text

theorem digitsValue_append_zeros (ds : Text) (n : Nat) :
    digitsValue (ds ++ List.replicate n '0') = digitsValue ds * 10 ^ n := by
  induction n generalizing ds with
  | zero => simp
  | succ n ih =>
    have hzero : digitsValue (ds ++ ['0']) = digitsValue ds * 10 := by
      simp [digitsValue, List.foldl_append, Nat.mul_comm]
    rw [List.replicate_succ, List.append_cons, ih, hzero, Nat.pow_succ, Nat.mul_assoc,
      Nat.mul_comm 10]

theorem exists_length_ofNat (n : Nat) : ∃ k, (ofNat n).length = k + 1 :=
  Nat.exists_eq_succ_of_ne_zero fun h => ofNat_ne_nil n (List.length_eq_zero_iff.mp h)

theorem pow_le_of_length {n k : Nat} (h : (ofNat n).length = k + 1) (hpos : 0 < n) : 10 ^ k ≤ n := by
  by_contra hlt
  cases k with
  | zero => omega
  | succ k =>
    have hshort := (Nat.length_toDigits_le_iff (b := 10) (by omega) (by omega)).mpr
      (Nat.lt_of_not_ge hlt)
    rw [ofNat] at h
    omega

/-- Digits without the zeros at their end. -/
def significant (ds : Text) : Text := (ds.reverse.dropWhile (· = '0')).reverse

theorem exists_zeros (ds : Text) : ∃ n, ds = significant ds ++ List.replicate n '0' := by
  have hsplit := List.takeWhile_append_dropWhile (p := fun c : Char => decide (c = '0'))
    (l := ds.reverse)
  have hzeros : ds.reverse.takeWhile (fun c => decide (c = '0')) = List.replicate
      (ds.reverse.takeWhile fun c => decide (c = '0')).length '0' := by
    apply List.eq_replicate_of_mem
    intro c hc
    simpa using List.mem_takeWhile_imp hc
  have hback := congrArg List.reverse hsplit
  rw [hzeros, List.reverse_append, List.reverse_replicate, List.reverse_reverse] at hback
  exact ⟨_, hback.symm⟩

theorem significant_ofNat_ne_nil {n : Nat} (h : 0 < n) : significant (ofNat n) ≠ [] := by
  obtain ⟨z, hzeros⟩ := exists_zeros (ofNat n)
  intro hnil
  rw [hnil, List.nil_append] at hzeros
  cases z with
  | zero => exact ofNat_ne_nil n hzeros
  | succ z =>
    apply head?_ofNat h
    rw [hzeros]
    rfl

end Text

namespace ShortestDecimal

open Binary64

/-! ## Grids -/

/-- A multiple of `10 ^ grid` reads back. -/
def Reach.fits (r : Reach) (grid : Int) (c : Nat) : Bool :=
  let den := r.den * power 10 grid.toNat
  let low := r.low * power 10 (-grid).toNat
  let high := r.high * power 10 (-grid).toNat
  if r.closed then low ≤ c * den && c * den ≤ high else low < c * den && c * den < high

/-- The multiple just below the value. -/
def Reach.floor (r : Reach) (grid : Int) : Nat :=
  r.value * power 10 (-grid).toNat / (r.den * power 10 grid.toNat)

/-- The nearer one of the two multiples around the value. -/
def Reach.nearer (r : Reach) (grid : Int) : Option Nat :=
  let den := r.den * power 10 grid.toNat
  let value := r.value * power 10 (-grid).toNat
  let floor := r.floor grid
  if value - floor * den < (floor + 1) * den - value then some floor
  else if (floor + 1) * den - value < value - floor * den then some (floor + 1)
  else if floor % 2 = 0 then some floor else some (floor + 1)

theorem onGrid_eq (r : Reach) (grid : Int) : onGrid r grid =
    match r.fits grid (r.floor grid), r.fits grid (r.floor grid + 1) with
    | false, false => none
    | true, false => some (r.floor grid)
    | false, true => some (r.floor grid + 1)
    | true, true => r.nearer grid := rfl

theorem nearer_cases (r : Reach) (grid : Int) :
    r.nearer grid = some (r.floor grid) ∨ r.nearer grid = some (r.floor grid + 1) := by
  unfold Reach.nearer
  dsimp only
  split
  · exact .inl rfl
  · split
    · exact .inr rfl
    · split
      · exact .inl rfl
      · exact .inr rfl

theorem onGrid_cases (r : Reach) (grid : Int) :
    (onGrid r grid = none ∧ r.fits grid (r.floor grid) = false ∧
        r.fits grid (r.floor grid + 1) = false) ∨
      ∃ c, onGrid r grid = some c ∧ r.fits grid c = true := by
  rw [onGrid_eq]
  cases hfloor : r.fits grid (r.floor grid) <;> cases hceiling : r.fits grid (r.floor grid + 1)
  · exact .inl ⟨rfl, rfl, rfl⟩
  · exact .inr ⟨_, rfl, hceiling⟩
  · exact .inr ⟨_, rfl, hfloor⟩
  · rcases nearer_cases r grid with h | h
    · exact .inr ⟨_, h, hfloor⟩
    · exact .inr ⟨_, h, hceiling⟩

/-! ## The reach of a long integer -/

section Long

variable {mantissa shift : Nat}

/-- The reach in parts of a quarter of the unit. -/
theorem reach_eq (h : IsLong mantissa shift) :
    ∃ quarter den, 0 < den ∧ 4 * quarter = 2 ^ shift * den ∧
      reach ⟨mantissa, shift⟩ =
        { low := (4 * mantissa - if mantissa = 2 ^ 52 then 1 else 2) * quarter
          value := 4 * mantissa * quarter
          high := (4 * mantissa + 2) * quarter
          den := den
          closed := mantissa % 2 = 0 } := by
  have hpos := h.pos
  refine ⟨2 ^ ((shift : Int) - 2).toNat, 2 ^ (-((shift : Int) - 2)).toNat, Nat.two_pow_pos _, ?_, ?_⟩
  · rw [show 4 = 2 ^ 2 from rfl, ← Nat.pow_add, ← Nat.pow_add]
    congr 1
    omega
  · have hbelow : -1074 < (shift : Int) := by omega
    unfold reach
    by_cases hpower : mantissa = 4503599627370496 <;>
      simp [scale_eq, hbelow, hpower]

theorem pointOf_reach (h : IsLong mantissa shift) :
    pointOf (reach ⟨mantissa, shift⟩) = (Text.ofNat (mantissa * 2 ^ shift)).length := by
  obtain ⟨quarter, den, hden, hquarter, hreach⟩ := reach_eq h
  have hlow := h.low
  have hvalue : 4 * mantissa * quarter = mantissa * 2 ^ shift * den := by
    rw [Nat.mul_comm 4, Nat.mul_assoc, hquarter, Nat.mul_assoc]
  have hle : den ≤ mantissa * 2 ^ shift * den :=
    Nat.le_mul_of_pos_left _ (Nat.mul_pos (by omega) (Nat.two_pow_pos _))
  rw [hreach]
  unfold pointOf
  simp only [hvalue, if_pos hle, Nat.mul_div_cancel _ hden]
  rfl

theorem floor_reach (h : IsLong mantissa shift) (grid : Nat) :
    (reach ⟨mantissa, shift⟩).floor grid = mantissa * 2 ^ shift / 10 ^ grid := by
  obtain ⟨quarter, den, hden, hquarter, hreach⟩ := reach_eq h
  have hvalue : 4 * mantissa * quarter = den * (mantissa * 2 ^ shift) := by
    rw [Nat.mul_comm 4, Nat.mul_assoc, hquarter, Nat.mul_comm den, Nat.mul_assoc]
  rw [hreach, Reach.floor]
  simp only [hvalue, power_eq, Int.toNat_natCast, Int.toNat_neg_natCast, Nat.pow_zero, Nat.mul_one]
  exact Nat.mul_div_mul_left _ _ hden

theorem fits_reach_iff (h : IsLong mantissa shift) (grid c : Nat) :
    (reach ⟨mantissa, shift⟩).fits grid c = true ↔ IsBetween mantissa shift (c * 10 ^ grid) := by
  obtain ⟨quarter, den, hden, hquarter, hreach⟩ := reach_eq h
  have hlow := h.low
  -- The bounds are compared in quarters of the unit, without the denominator.
  have hscale (a : Nat) : 4 * (a * quarter) = a * 2 ^ shift * den := by
    rw [Nat.mul_left_comm, hquarter, Nat.mul_assoc]
  have hle (a x : Nat) : a * quarter ≤ x * den ↔ a * 2 ^ shift ≤ 4 * x := by
    rw [← Nat.mul_le_mul_left_iff (show 0 < 4 by omega), hscale, ← Nat.mul_assoc,
      Nat.mul_le_mul_right_iff hden]
  have hge (a x : Nat) : x * den ≤ a * quarter ↔ 4 * x ≤ a * 2 ^ shift := by
    rw [← Nat.mul_le_mul_left_iff (show 0 < 4 by omega), hscale, ← Nat.mul_assoc,
      Nat.mul_le_mul_right_iff hden]
  have hden' : c * (den * 10 ^ grid) = c * 10 ^ grid * den := by
    rw [Nat.mul_comm den, Nat.mul_assoc]
  rw [hreach, Reach.fits]
  simp only [power_eq, Int.toNat_natCast, Int.toNat_neg_natCast, Nat.pow_zero, Nat.mul_one, hden']
  have hbelow : (4 * mantissa - if mantissa = 2 ^ 52 then 1 else 2) * 2 ^ shift =
      4 * (mantissa * 2 ^ shift) - (if mantissa = 2 ^ 52 then 1 else 2) * 2 ^ shift := by
    rw [Nat.sub_mul, Nat.mul_assoc]
  have habove : (4 * mantissa + 2) * 2 ^ shift = 4 * (mantissa * 2 ^ shift) + 2 * 2 ^ shift := by
    rw [Nat.add_mul, Nat.mul_assoc]
  by_cases heven : mantissa % 2 = 0
  · simp only [heven, decide_true, if_true, Bool.and_eq_true, decide_eq_true_eq, hle, hge, hbelow,
      habove]
    constructor
    · rintro ⟨hl, hh⟩
      exact ⟨by omega, hh, fun hodd => by omega⟩
    · rintro ⟨hl, hh, -⟩
      exact ⟨by omega, hh⟩
  · have hne : ¬ mantissa = 2 ^ 52 := by
      rintro rfl
      exact heven (by decide)
    rw [if_neg hne] at hbelow
    simp only [heven, decide_false, Bool.false_eq_true, if_false, Bool.and_eq_true,
      decide_eq_true_eq, ← Nat.not_le, hle, hge, if_neg hne, hbelow, habove]
    constructor
    · rintro ⟨hl, hh⟩
      exact ⟨by rw [if_neg hne]; omega, by omega, fun _ => ⟨by omega, by omega⟩⟩
    · rintro ⟨-, -, hodd⟩
      have := hodd (by omega)
      have hunit : 1 * 2 ^ shift ≤ mantissa * 2 ^ shift := Nat.mul_le_mul_right _ (by omega)
      exact ⟨by omega, by omega⟩

/-- Of two neighbours on a grid of 17 digits one is nearer to the integer than half of its unit. -/
theorem isBetween_neighbour (h : IsLong mantissa shift) {step : Nat} (hpos : 0 < step)
    (hstep : step * 10 ^ 16 ≤ mantissa * 2 ^ shift) :
    IsBetween mantissa shift (mantissa * 2 ^ shift / step * step) ∨
      IsBetween mantissa shift ((mantissa * 2 ^ shift / step + 1) * step) := by
  have hunit := Nat.two_pow_pos shift
  have hsplit := Nat.div_add_mod' (mantissa * 2 ^ shift) step
  have hmod := Nat.mod_lt (mantissa * 2 ^ shift) hpos
  have hsucc : (mantissa * 2 ^ shift / step + 1) * step = mantissa * 2 ^ shift / step * step + step :=
    Nat.succ_mul ..
  have hfull : mantissa * 2 ^ shift < 2 ^ 53 * 2 ^ shift := Nat.mul_lt_mul_of_pos_right h.high hunit
  by_cases hceiling : 2 * ((mantissa * 2 ^ shift / step + 1) * step) < 2 * (mantissa * 2 ^ shift) + 2 ^ shift
  · exact .inr ⟨by omega, by omega, fun _ => by omega⟩
  · have hne : ¬ mantissa = 2 ^ 52 := by
      intro hpower
      rw [hpower] at hceiling hstep hsucc hsplit hmod
      omega
    exact .inl ⟨by rw [if_neg hne]; omega, by omega, fun _ => by omega⟩

theorem findSome?_range {α : Type} {f : Nat → Option α} {k n : Nat} (hk : k < n)
    (h : (f k).isSome) : ∃ j ≤ k, ∃ a, f j = some a ∧ (List.range n).findSome? f = some a := by
  have hsome : ((List.range (k + 1)).findSome? f).isSome :=
    List.findSome?_isSome_iff.mpr ⟨k, by simp, h⟩
  obtain ⟨a, ha⟩ := Option.isSome_iff_exists.mp hsome
  obtain ⟨j, hj, hfound⟩ := List.exists_of_findSome?_eq_some ha
  refine ⟨j, by simpa [Nat.lt_succ_iff] using hj, a, hfound, ?_⟩
  rw [show n = k + 1 + (n - (k + 1)) by omega, List.range_add, List.findSome?_append, ha]
  rfl

/-- Of 17 digits the last grid is fine enough; of fewer the integer itself is on the last grid. -/
theorem isSome_onGrid (h : IsLong mantissa shift) {k : Nat}
    (hbound : 10 ^ k ≤ mantissa * 2 ^ shift) :
    (onGrid (reach ⟨mantissa, shift⟩) ((k - min 16 k : Nat) : Int)).isSome := by
  rcases onGrid_cases (reach ⟨mantissa, shift⟩) ((k - min 16 k : Nat) : Int) with
    ⟨-, hfloor, hceiling⟩ | ⟨c, hc, -⟩
  · exfalso
    rw [floor_reach h] at hfloor hceiling
    rw [← Bool.not_eq_true, fits_reach_iff h] at hfloor hceiling
    rcases Nat.le_total k 16 with hle | hge
    · rw [Nat.min_eq_right hle, Nat.sub_self, Nat.pow_zero, Nat.div_one, Nat.mul_one] at hfloor
      exact hfloor isBetween_self
    · rw [Nat.min_eq_left hge] at hfloor hceiling
      have hstep : 10 ^ (k - 16) * 10 ^ 16 ≤ mantissa * 2 ^ shift := by
        rw [← Nat.pow_add, Nat.sub_add_cancel hge]
        exact hbound
      rcases isBetween_neighbour h (Nat.pow_pos (by omega)) hstep with hb | hb
      · exact hfloor hb
      · exact hceiling hb
  · rw [hc]
    rfl

/-- The digits that are found stand for a number between the middles to the neighbours. -/
theorem exists_multiple (h : IsLong mantissa shift) :
    ∃ c grid : Nat, IsBetween mantissa shift (c * 10 ^ grid) ∧
      digits ⟨mantissa, shift⟩ =
        (Text.significant (Text.ofNat c), ((Text.ofNat c).length : Int) + grid) := by
  have hpoint := pointOf_reach h
  have hpos : 0 < mantissa * 2 ^ shift :=
    Nat.mul_pos (by have := h.low; omega) (Nat.two_pow_pos _)
  obtain ⟨k, hlength⟩ := Text.exists_length_ofNat (mantissa * 2 ^ shift)
  have hgrid (j : Nat) (hj : j ≤ k) : ((k + 1 : Nat) : Int) - j - 1 = ((k - j : Nat) : Int) := by
    omega
  -- The search may stop earlier, but not later than here.
  have hlast := isSome_onGrid h (Text.pow_le_of_length hlength hpos)
  rw [← hgrid _ (by omega)] at hlast
  obtain ⟨j, hj, ⟨c, grid⟩, hfound, hrange⟩ := findSome?_range (n := 17)
    (f := fun i => (onGrid (reach ⟨mantissa, shift⟩) (((k + 1 : Nat) : Int) - i - 1)).map fun c =>
      (c, ((k + 1 : Nat) : Int) - i - 1)) (k := min 16 k) (by omega) (by simpa using hlast)
  rw [hgrid j (by omega), Option.map_eq_some_iff] at hfound
  obtain ⟨c', hc, hpair⟩ := hfound
  obtain ⟨rfl, rfl⟩ := Prod.mk.inj hpair
  refine ⟨c', k - j, ?_, ?_⟩
  · rcases onGrid_cases (reach ⟨mantissa, shift⟩) ((k - j : Nat) : Int) with
      ⟨hnone, -⟩ | ⟨c, hsome, hfits⟩
    · rw [hnone] at hc
      cases hc
    · rw [hsome, Option.some.injEq] at hc
      rw [← hc]
      exact (fits_reach_iff h _ _).mp hfits
  · unfold digits
    dsimp only
    rw [hpoint, hlength, hrange]
    rfl

/-! ## Digits that read back -/

theorem pos_of_isBetween (h : IsLong mantissa shift) {c grid : Nat}
    (hbetween : IsBetween mantissa shift (c * 10 ^ grid)) : 0 < c := by
  have hself : 2 ^ 52 * 2 ^ shift ≤ mantissa * 2 ^ shift := Nat.mul_le_mul_right _ h.low
  have hunit := Nat.two_pow_pos shift
  have hlow := hbetween.low
  by_contra h0
  obtain rfl : c = 0 := by omega
  rw [Nat.zero_mul] at hlow
  split at hlow <;> omega

theorem length_le_of_isBetween (h : IsLong mantissa shift) {c grid : Nat} (hc : 0 < c)
    (hbetween : IsBetween mantissa shift (c * 10 ^ grid)) :
    (Text.ofNat c).length + grid ≤ 400 := by
  obtain ⟨k, hlength⟩ := Text.exists_length_ofNat c
  have hlow := Text.pow_le_of_length hlength hc
  have hhigh := hbetween.high
  have hunit := Nat.two_pow_pos shift
  have hless := mul_add_le_mul h.high (2 ^ shift)
  have hten : 2 ^ (3 * (k + grid)) ≤ 10 ^ (k + grid) := by
    rw [Nat.pow_mul]
    exact Nat.pow_le_pow_left (by omega) _
  have hlt : 2 ^ (3 * (k + grid)) < 2 ^ (53 + shift) := by
    have hmul : 10 ^ k * 10 ^ grid ≤ c * 10 ^ grid := Nat.mul_le_mul_right _ hlow
    rw [← Nat.pow_add] at hmul
    rw [Nat.pow_add 2 53]
    omega
  have hexponent := (Nat.pow_lt_pow_iff_right (a := 2) (by omega)).mp hlt
  have hfits := h.fits
  omega

/-- A long integer is written as digits of which the first is not zero, to be followed by zeros, and
read back they give the integer. -/
theorem exists_digits (h : IsLong mantissa shift) :
    ∃ (ds : Text) (zeros : Nat), ds ≠ [] ∧ ds.head? ≠ some '0' ∧ (∀ c ∈ ds, c.isDigit = true) ∧
      text ⟨mantissa, shift⟩ = layOut ds ((ds.length + zeros : Nat) : Int) ∧
      ds.length + zeros ≤ 400 ∧
      nearest (Text.digitsValue ds * 10 ^ zeros) 1 = some ⟨mantissa, shift⟩ := by
  obtain ⟨c, grid, hbetween, hdigits⟩ := exists_multiple h
  obtain ⟨z, hzeros⟩ := Text.exists_zeros (Text.ofNat c)
  have hc := pos_of_isBetween h hbetween
  have hhead := Text.head?_ofNat hc
  have hne := Text.significant_ofNat_ne_nil hc
  have hlength : (Text.ofNat c).length = (Text.significant (Text.ofNat c)).length + z := by
    conv_lhs => rw [hzeros]
    rw [List.length_append, List.length_replicate]
  have hvalue : Text.digitsValue (Text.significant (Text.ofNat c)) * 10 ^ z = c := by
    rw [← Text.digitsValue_append_zeros, ← hzeros, Text.digitsValue_ofNat]
  have hbound := length_le_of_isBetween h hc hbetween
  refine ⟨Text.significant (Text.ofNat c), z + grid, hne, ?_, ?_, ?_, by omega, ?_⟩
  · rwa [hzeros, List.head?_append_of_ne_nil _ hne] at hhead
  · intro d hd
    apply Text.isDigit_of_mem_ofNat (n := c)
    rw [hzeros]
    exact List.mem_append_left _ hd
  · unfold text
    rw [hdigits, hlength]
    dsimp only
    congr 1
    omega
  · rw [Nat.pow_add, ← Nat.mul_assoc, hvalue]
    exact nearest_of_isBetween h hbetween

end Long

end ShortestDecimal

namespace Number

open Binary64

theorem ofMagnitude_long {mantissa shift : Nat} (negative : Bool) :
    ofMagnitude negative ⟨mantissa, shift⟩ =
      .integer (if negative then -(mantissa * 2 ^ shift : Nat) else (mantissa * 2 ^ shift : Nat)) := by
  unfold ofMagnitude
  simp only [scale_eq, Int.toNat_natCast, Int.toNat_neg_natCast, Nat.pow_zero, Nat.one_mul,
    Nat.mod_one, Nat.div_one, if_true]

/-- Digits that begin with another one than zero are read with the power of ten behind them, whether
that is written as zeros or as a power. -/
theorem ofDecimal_digits {ds : Text} {zeros : Nat} {m : Magnitude} (hne : ds ≠ [])
    (hhead : ds.head? ≠ some '0') (hbound : ds.length + zeros ≤ 400)
    (hnearest : nearest (Text.digitsValue ds * 10 ^ zeros) 1 = some m) (negative : Bool)
    {j : Nat} (hj : j ≤ zeros) :
    ofDecimal negative (ds ++ List.replicate j '0') ((zeros - j : Nat) : Int) =
      ofMagnitude negative m := by
  obtain ⟨d, more, rfl⟩ := List.exists_cons_of_ne_nil hne
  have hdrop : ((d :: more) ++ List.replicate j '0').dropWhile (· = '0') =
      (d :: more) ++ List.replicate j '0' := by
    rw [List.cons_append, List.dropWhile_cons_of_neg (by simpa using hhead)]
  unfold ofDecimal
  simp only [hdrop, List.length_append, List.length_replicate]
  rw [if_neg (by simp; omega), if_neg (by omega), Text.digitsValue_append_zeros]
  simp only [power_eq, Int.toNat_natCast, Int.toNat_neg_natCast, Nat.pow_zero, ofQuotient]
  rw [Nat.mul_assoc, ← Nat.pow_add, Nat.add_sub_cancel' hj, hnearest]

end Number

end PackageHistory
