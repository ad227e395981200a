import PackageHistory.Json.Parser
import PackageHistory.Proofs.Number.Shortest
import PackageHistory.Proofs.Text

/-!
# Integers that read back

An integer that is held exactly reads back from its text, whether that has all its digits or a power
of ten. What is read otherwise is held exactly too.
-/

namespace PackageHistory.Json

open Binary64

/-! ## Parts of numbers -/

/-- The text does not go on with a number. -/
def EndsNumber (t : Text) : Prop :=
  ∀ c rest, t = c :: rest → c.isDigit = false ∧ c ≠ '.' ∧ c ≠ 'e' ∧ c ≠ 'E'

theorem span_digits {digits rest : Text} (hd : ∀ c ∈ digits, c.isDigit = true)
    (hr : ∀ c t, rest = c :: t → c.isDigit = false) :
    (digits ++ rest).span Char.isDigit = (digits, rest) := by
  refine Text.span_append hd fun c hc => ?_
  obtain ⟨t, rfl⟩ := List.head?_eq_some_iff.mp hc
  exact hr c t rfl

theorem EndsNumber.span {digits rest : Text} (hr : EndsNumber rest)
    (hd : ∀ c ∈ digits, c.isDigit = true) :
    (digits ++ rest).span Char.isDigit = (digits, rest) :=
  span_digits hd fun c t h => (hr c t h).1

theorem readFraction_of_ne {t : Text} (h : ∀ c rest, t = c :: rest → c ≠ '.') :
    readFraction t = some ([], t) := by
  cases t with
  | nil => rfl
  | cons c rest =>
    have hc := h c rest rfl
    unfold readFraction
    split
    · next heq => exact absurd (List.cons.inj heq).1 hc
    · rfl

theorem readPower_of_endsNumber {t : Text} (h : EndsNumber t) : readPower t = some (0, t) := by
  cases t with
  | nil => rfl
  | cons c rest =>
    obtain ⟨-, -, he, hE⟩ := h c rest rfl
    simp [readPower, he, hE]

theorem isDigit_head_ofNat (n : Nat) : ∃ c cs, Text.ofNat n = c :: cs ∧ c.isDigit = true := by
  cases h : Text.ofNat n with
  | nil => exact absurd h (Text.ofNat_ne_nil n)
  | cons c cs => exact ⟨c, cs, rfl, Text.isDigit_of_mem_ofNat (n := n) (by simp [h])⟩

theorem readPower_ofNat (n : Nat) {rest : Text} (hr : EndsNumber rest) :
    readPower ('e' :: '+' :: (Text.ofNat n ++ rest)) = some ((n : Int), rest) := by
  have hspan : (Text.ofNat n ++ rest).span Char.isDigit = (Text.ofNat n, rest) :=
    hr.span fun _ => Text.isDigit_of_mem_ofNat
  simp only [readPower, hspan]
  simp [Text.ofNat_ne_nil, Text.digitsValue_ofNat]

/-! ## Numbers without a sign -/

/-- What is read of a number behind its sign. -/
def readUnsigned (negative : Bool) (t : Text) : Option (Number × Text) := do
  let (whole, t) := t.span Char.isDigit
  if whole.isEmpty || (whole.head? = some '0' && 1 < whole.length) then none
  else
    let (part, t) ← readFraction t
    let (power, t) ← readPower t
    return (Number.ofDecimal negative (whole ++ part) (power - part.length), t)

/-- The digits can stand before a point. -/
def IsWhole (digits : Text) : Prop :=
  (digits.isEmpty || (digits.head? = some '0' && 1 < digits.length)) = false

theorem isWhole_of_head {digits : Text} (hne : digits ≠ []) (hhead : digits.head? ≠ some '0') :
    IsWhole digits := by
  simp [IsWhole, hne, hhead]

theorem isWhole_ofNat (n : Nat) : IsWhole (Text.ofNat n) := by
  by_cases h0 : n = 0
  · subst h0
    show (_ : Bool) = false
    decide
  · exact isWhole_of_head (Text.ofNat_ne_nil n) (Text.head?_ofNat (Nat.pos_of_ne_zero h0))

theorem readUnsigned_whole (negative : Bool) {digits rest : Text} (hwhole : IsWhole digits)
    (hd : ∀ c ∈ digits, c.isDigit = true) (hr : EndsNumber rest) :
    readUnsigned negative (digits ++ rest) = some (Number.ofDecimal negative digits 0, rest) := by
  have hfraction : readFraction rest = some ([], rest) :=
    readFraction_of_ne fun c t h => (hr c t h).2.1
  unfold readUnsigned
  rw [IsWhole] at hwhole
  simp only [hr.span hd, hwhole, Bool.false_eq_true, if_false, hfraction,
    readPower_of_endsNumber hr, Option.bind_eq_bind, Option.bind_some, List.append_nil]
  rfl

/-- One digit before the point, if more digits follow, and a power of ten. -/
theorem readUnsigned_power (negative : Bool) {d : Char} {more rest : Text} {power : Nat}
    (hzero : d ≠ '0') (hd : ∀ c ∈ d :: more, c.isDigit = true) (hr : EndsNumber rest) :
    readUnsigned negative
        ((match d :: more with
          | [] => []
          | [d] => [d]
          | d :: more => d :: '.' :: more) ++ 'e' :: '+' :: Text.ofNat power ++ rest) =
      some (Number.ofDecimal negative (d :: more) (power - more.length), rest) := by
  have hfirst : ∀ c ∈ [d], c.isDigit = true := fun c hc => by
    rw [List.mem_singleton.mp hc]
    exact hd d List.mem_cons_self
  have hwhole : IsWhole [d] := isWhole_of_head (by simp) (by simpa using hzero)
  rw [IsWhole] at hwhole
  cases more with
  | nil =>
    have hspan : ([d] ++ 'e' :: '+' :: (Text.ofNat power ++ rest)).span Char.isDigit = _ :=
      span_digits hfirst fun c t h => by rw [← (List.cons.inj h).1]; decide
    have hfraction : readFraction ('e' :: '+' :: (Text.ofNat power ++ rest)) = some ([], _) :=
      readFraction_of_ne fun c t h => by rw [← (List.cons.inj h).1]; decide
    unfold readUnsigned
    simp only [List.append_assoc, List.cons_append] at hspan ⊢
    simp only [hspan, hwhole, Bool.false_eq_true, if_false, hfraction,
      readPower_ofNat power hr, Option.bind_eq_bind, Option.bind_some]
    rfl
  | cons d' more =>
    have hspan : ([d] ++ '.' :: (d' :: more ++ 'e' :: '+' :: (Text.ofNat power ++ rest))).span
        Char.isDigit = _ :=
      span_digits hfirst fun c t h => by rw [← (List.cons.inj h).1]; decide
    have hpart : (d' :: more ++ 'e' :: '+' :: (Text.ofNat power ++ rest)).span Char.isDigit = _ :=
      span_digits (fun c hc => hd c (List.mem_cons_of_mem _ hc)) fun c t h => by
        rw [← (List.cons.inj h).1]; decide
    have hfraction : readFraction ('.' :: (d' :: more ++ 'e' :: '+' :: (Text.ofNat power ++ rest))) =
        some (d' :: more, 'e' :: '+' :: (Text.ofNat power ++ rest)) := by
      unfold readFraction
      simp only [hpart]
      rfl
    unfold readUnsigned
    simp only [List.append_assoc, List.cons_append, List.nil_append] at hspan hfraction ⊢
    simp only [hspan, hwhole, Bool.false_eq_true, if_false, hfraction,
      readPower_ofNat power hr, Option.bind_eq_bind, Option.bind_some]
    rfl

/-! ## Integers -/

theorem text_integer (n : Int) :
    (Number.integer n).text = Number.signed (n < 0) (Number.integer n.natAbs).text := by
  have hpositive : ¬ ((n.natAbs : Int) < 0) := by omega
  unfold Number.text
  simp only [Int.natAbs_natCast, hpositive, decide_false, Number.signed, Bool.false_eq_true, if_false]
  split
  · cases n with
    | ofNat n =>
      rw [decide_eq_false (by simp)]
      rfl
    | negSucc n =>
      rw [decide_eq_true (Int.negSucc_lt_zero n)]
      rfl
  · split <;> rfl

theorem text_of_lt {n : Nat} (h : n < 2 ^ 53) : (Number.integer n).text = Text.ofNat n := by
  rw [Number.text, Int.natAbs_natCast, power_eq, if_pos h]
  rfl

/-- The digits of a long integer are read with the zeros or the power of ten behind them. -/
theorem readUnsigned_layOut {negative : Bool} {ds rest : Text} {zeros : Nat} {x : Number}
    (hne : ds ≠ []) (hhead : ds.head? ≠ some '0') (hd : ∀ c ∈ ds, c.isDigit = true)
    (hr : EndsNumber rest)
    (hread : ∀ j ≤ zeros, Number.ofDecimal negative (ds ++ List.replicate j '0')
      ((zeros - j : Nat) : Int) = x) :
    readUnsigned negative (ShortestDecimal.layOut ds ((ds.length + zeros : Nat) : Int) ++ rest) =
      some (x, rest) := by
  unfold ShortestDecimal.layOut
  dsimp only
  by_cases hshort : ds.length + zeros ≤ 21
  · have hpad : (((ds.length + zeros : Nat) : Int) - (ds.length : Int)).toNat = zeros := by omega
    rw [if_pos (by simp; omega), hpad, readUnsigned_whole negative _ _ hr]
    · have hzeros := hread zeros (Nat.le_refl _)
      rw [Nat.sub_self] at hzeros
      rw [← hzeros]
      rfl
    · exact isWhole_of_head (by simp [hne]) (by rwa [List.head?_append_of_ne_nil _ hne])
    · intro c hc
      rcases List.mem_append.mp hc with hc | hc
      · exact hd c hc
      · rw [List.eq_of_mem_replicate hc]
        decide
  · obtain ⟨d, more, rfl⟩ := List.exists_cons_of_ne_nil hne
    have hpower : (((d :: more).length + zeros : Nat) : Int) - 1 =
        ((more.length + zeros : Nat) : Int) := by
      simp only [List.length_cons]
      omega
    rw [if_neg (by simp at hshort ⊢; omega), if_neg (by simp at hshort ⊢; omega),
      if_neg (by simp at hshort ⊢; omega), hpower, if_pos (by omega), Int.natAbs_natCast]
    refine (readUnsigned_power negative (by simpa using hhead) hd hr).trans ?_
    have hzeros := hread 0 (Nat.zero_le _)
    rw [List.replicate_zero, List.append_nil, Nat.sub_zero] at hzeros
    rw [← hzeros]
    congr 3
    omega

theorem text_long {mantissa shift : Nat} (h : IsLong mantissa shift) :
    (Number.integer (mantissa * 2 ^ shift : Nat)).text = ShortestDecimal.text ⟨mantissa, shift⟩ := by
  have hlong : 2 ^ 52 * 2 ^ 1 ≤ mantissa * 2 ^ shift :=
    Nat.mul_le_mul h.low (Nat.pow_le_pow_right (by omega) h.pos)
  rw [Number.text, Int.natAbs_natCast, power_eq, if_neg (by omega),
    nearest_of_isBetween h isBetween_self]
  rfl

theorem readUnsigned_text {n : Nat} (h : IsExact n) (negative : Bool) {rest : Text}
    (hr : EndsNumber rest) :
    readUnsigned negative ((Number.integer n).text ++ rest) =
      some (.integer (if negative then -n else n), rest) := by
  rcases Nat.lt_or_ge n (2 ^ 53) with hlt | hlong
  · rw [text_of_lt hlt, readUnsigned_whole negative (isWhole_ofNat n)
      (fun _ => Text.isDigit_of_mem_ofNat) hr, Number.ofDecimal_ofNat hlt]
  · obtain ⟨mantissa, shift, hmagnitude, rfl⟩ := h.isLong hlong
    obtain ⟨ds, zeros, hne, hhead, hd, htext, hbound, hnearest⟩ :=
      ShortestDecimal.exists_digits hmagnitude
    rw [text_long hmagnitude, htext]
    refine readUnsigned_layOut hne hhead hd hr fun j hj => ?_
    rw [Number.ofDecimal_digits hne hhead hbound hnearest negative hj, Number.ofMagnitude_long]

theorem head_layOut {ds : Text} (zeros : Nat) (hne : ds ≠ []) :
    (ShortestDecimal.layOut ds ((ds.length + zeros : Nat) : Int)).head? = ds.head? := by
  obtain ⟨d, more, rfl⟩ := List.exists_cons_of_ne_nil hne
  unfold ShortestDecimal.layOut
  dsimp only
  by_cases hshort : (d :: more).length + zeros ≤ 21
  · rw [if_pos (by simp at hshort ⊢; omega)]
    rfl
  · rw [if_neg (by simp at hshort ⊢; omega), if_neg (by simp at hshort ⊢; omega),
      if_neg (by simp at hshort ⊢; omega)]
    cases more <;> rfl

theorem isDigit_head_text {n : Nat} (h : IsExact n) :
    ∃ c cs, (Number.integer n).text = c :: cs ∧ c.isDigit = true := by
  rcases Nat.lt_or_ge n (2 ^ 53) with hlt | hlong
  · rw [text_of_lt hlt]
    exact isDigit_head_ofNat n
  · obtain ⟨mantissa, shift, hmagnitude, rfl⟩ := h.isLong hlong
    obtain ⟨ds, zeros, hne, -, hd, htext, -⟩ := ShortestDecimal.exists_digits hmagnitude
    have hhead := head_layOut zeros hne
    obtain ⟨d, more, rfl⟩ := List.exists_cons_of_ne_nil hne
    rw [text_long hmagnitude, htext]
    obtain ⟨cs, hcs⟩ := List.head?_eq_some_iff.mp hhead
    exact ⟨d, cs, hcs, hd d List.mem_cons_self⟩

theorem readNumber_of_ne {c : Char} (h : c ≠ '-') (t : Text) :
    readNumber (c :: t) = readUnsigned false (c :: t) := by
  unfold readNumber
  split
  · next heq =>
    split at heq
    · next hcons => exact absurd (List.cons.inj hcons).1 h
    · cases heq
      rfl

/-- An integer that is held exactly reads back. -/
theorem readNumber_text {n : Int} (h : IsExact n.natAbs) {rest : Text} (hr : EndsNumber rest) :
    readNumber ((Number.integer n).text ++ rest) = some (.integer n, rest) := by
  have hsigned : readNumber ((Number.integer n).text ++ rest) =
      readUnsigned (n < 0) ((Number.integer n.natAbs).text ++ rest) := by
    rw [text_integer]
    cases decide (n < 0) with
    | true => rfl
    | false =>
      obtain ⟨c, cs, hcons, hdigit⟩ := isDigit_head_text h
      show readNumber ((Number.integer n.natAbs).text ++ rest) = _
      rw [hcons]
      exact readNumber_of_ne (Text.ne_of_test hdigit (by decide)) _
  rw [hsigned, readUnsigned_text h _ hr]
  congr 3
  split
  · next hneg => rw [decide_eq_true_eq] at hneg; omega
  · next hpos => rw [decide_eq_true_eq] at hpos; omega

theorem head_text {n : Int} (h : IsExact n.natAbs) :
    ∃ c cs, (Number.integer n).text = c :: cs ∧ (c = '-' ∨ c.isDigit = true) := by
  rw [text_integer]
  unfold Number.signed
  split
  · exact ⟨'-', _, rfl, .inl rfl⟩
  · obtain ⟨c, cs, hcons, hdigit⟩ := isDigit_head_text h
    exact ⟨c, cs, hcons, .inr hdigit⟩

/-! ## All that is read -/

theorem exists_readUnsigned (t : Text) :
    ∃ negative t', readNumber t = readUnsigned negative t' := by
  cases t with
  | nil => exact ⟨false, [], rfl⟩
  | cons c cs =>
    by_cases hminus : c = '-'
    · subst hminus
      exact ⟨true, cs, rfl⟩
    · exact ⟨false, c :: cs, readNumber_of_ne hminus cs⟩

theorem holdsExact_of_readNumber {t rest : Text} {a : Number} (h : readNumber t = some (a, rest)) :
    a.HoldsExact := by
  obtain ⟨negative, t', heq⟩ := exists_readUnsigned t
  rw [heq, readUnsigned] at h
  dsimp only at h
  split at h
  · cases h
  · obtain ⟨⟨part, t₁⟩, -, h⟩ := Option.bind_eq_some_iff.mp h
    obtain ⟨⟨power, t₂⟩, -, h⟩ := Option.bind_eq_some_iff.mp h
    cases h
    exact Number.holdsExact_ofDecimal negative _ _

end PackageHistory.Json
