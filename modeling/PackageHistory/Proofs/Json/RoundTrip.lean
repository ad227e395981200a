import PackageHistory.Json.Printer
import PackageHistory.Proofs.Json.MemberOrder
import PackageHistory.Proofs.Json.Numbers

/-!
# JSON that reads back

What is written on one line is read back, whatever follows it, as long as that does not go on with a
number.
-/

namespace PackageHistory.Json

/-! ## Strings -/

theorem hexUnit?_hexDigit {n : Nat} (h : n < 32) :
    hexUnit? '0' '0' (hexDigit (n / 16)) (hexDigit (n % 16)) = some n := by
  have hall : ∀ n < 32, hexUnit? '0' '0' (hexDigit (n / 16)) (hexDigit (n % 16)) = some n := by
    decide
  exact hall n h

theorem ofUnit_toNat (c : Char) : ofUnit c.toNat = c := by
  have hvalid : c.toNat.isValidChar := c.valid
  rw [ofUnit, if_pos hvalid]
  exact Char.ofNat_toNat c

theorem joinUnits?_of_lt {lead trail : Nat} (h : lead < 32) : joinUnits? lead trail = none := by
  unfold joinUnits?
  rw [if_neg]
  simp
  omega

/-- The characters that are escaped by their number. -/
def isNumbered (c : Char) : Prop :=
  escape c = "\\u00".toList ++ [hexDigit (c.toNat / 16), hexDigit (c.toNat % 16)] ∧ c.toNat < 32

theorem escape_cases (c : Char) :
    (∃ e, e ≠ 'u' ∧ simpleEscape? e = some c ∧ escape c = ['\\', e]) ∨ isNumbered c ∨
      (c ≠ '"' ∧ c ≠ '\\' ∧ ¬ c.toNat < 0x20 ∧ escape c = [c]) := by
  unfold isNumbered
  by_cases h1 : c = '"'
  · subst h1; exact .inl ⟨'"', by decide⟩
  by_cases h2 : c = '\\'
  · subst h2; exact .inl ⟨'\\', by decide⟩
  by_cases h3 : c = '\x08'
  · subst h3; exact .inl ⟨'b', by decide⟩
  by_cases h4 : c = '\x0c'
  · subst h4; exact .inl ⟨'f', by decide⟩
  by_cases h5 : c = '\n'
  · subst h5; exact .inl ⟨'n', by decide⟩
  by_cases h6 : c = '\r'
  · subst h6; exact .inl ⟨'r', by decide⟩
  by_cases h7 : c = '\t'
  · subst h7; exact .inl ⟨'t', by decide⟩
  unfold escape
  rw [if_neg h1, if_neg h2, if_neg h3, if_neg h4, if_neg h5, if_neg h6, if_neg h7]
  by_cases h8 : c.toNat < 0x20
  · rw [if_pos h8]
    exact .inr (.inl ⟨rfl, h8⟩)
  · rw [if_neg h8]
    exact .inr (.inr ⟨h1, h2, h8, rfl⟩)

/-- The text goes on with a unit in hexadecimal digits. -/
def StartsWithUnit (t : Text) : Prop := ∃ a b c d rest, t = '\\' :: 'u' :: a :: b :: c :: d :: rest

theorem readString_unit {a b c d : Char} {t : Text} (ht : ¬ StartsWithUnit t) :
    readString ('\\' :: 'u' :: a :: b :: c :: d :: t) =
      (hexUnit? a b c d).bind fun unit => (readString t).map fun r => (ofUnit unit :: r.1, r.2) :=
  readString.eq_4 a b c d t fun e f g h t' hst => ht ⟨e, f, g, h, t', hst⟩

theorem readString_of_hexUnit?_none {a b c d : Char} {t : Text} (h : hexUnit? a b c d = none) :
    readString ('\\' :: 'u' :: a :: b :: c :: d :: t) = none := by
  by_cases ht : StartsWithUnit t
  · obtain ⟨e, f, g, i, t', rfl⟩ := ht
    rw [readString.eq_3, h]
    rfl
  · rw [readString_unit ht, h]
    rfl

theorem readString_numbered {c : Char} {t : Text} {r : Text × Text} (hc : isNumbered c)
    (h : readString t = some r) : readString (escape c ++ t) = some (c :: r.1, r.2) := by
  obtain ⟨hescape, hlt⟩ := hc
  have hunit := hexUnit?_hexDigit hlt
  rw [hescape]
  show readString ('\\' :: 'u' :: '0' :: '0' :: hexDigit (c.toNat / 16) ::
    hexDigit (c.toNat % 16) :: t) = _
  by_cases ht : StartsWithUnit t
  · obtain ⟨e, f, g, i, t', rfl⟩ := ht
    rw [readString.eq_3, hunit]
    cases hnext : hexUnit? e f g i with
    | none =>
      rw [readString_of_hexUnit?_none hnext] at h
      cases h
    | some next =>
      -- A control character is no half of a pair.
      simp only [Option.bind_eq_bind, Option.bind_some, joinUnits?_of_lt hlt, h, Option.map_some,
        ofUnit_toNat]
  · rw [readString_unit ht, hunit, h]
    simp only [Option.bind_some, Option.map_some, ofUnit_toNat]

theorem readString_escape (c : Char) {t : Text} {r : Text × Text} (h : readString t = some r) :
    readString (escape c ++ t) = some (c :: r.1, r.2) := by
  rcases escape_cases c with ⟨e, hu, hsimple, hescape⟩ | hnumbered | ⟨hquote, hback, hprint, hescape⟩
  · rw [hescape]
    show readString ('\\' :: e :: t) = _
    rw [readString.eq_5 e t (fun _ _ _ _ _ _ _ _ _ he => absurd he hu)
      (fun _ _ _ _ _ he => absurd he hu), hsimple, h]
    rfl
  · exact readString_numbered hnumbered h
  · rw [hescape]
    show readString (c :: t) = _
    rw [readString.eq_6 c t hquote (fun _ _ _ _ _ _ _ _ _ he => absurd he hback)
      (fun _ _ _ _ _ he => absurd he hback) (fun _ _ he => absurd he hback), h]
    simp [hback, hprint]

theorem readString_escaped (s rest : Text) :
    readString (s.flatMap escape ++ '"' :: rest) = some (s, rest) := by
  induction s with
  | nil => exact readString.eq_2 rest
  | cons c s ih =>
    rw [List.flatMap_cons, List.append_assoc]
    exact readString_escape c ih

/-! ## Values -/

/-- Values that are kept: integers that are held exactly, and objects with each name once and their
members in the order they are gone through. -/
inductive Plain : Json → Prop where
  | null : Plain .null
  | bool (b : Bool) : Plain (.bool b)
  | number {n : Int} : Binary64.IsExact n.natAbs → Plain (.number (.integer n))
  | string (s : Text) : Plain (.string s)
  | array {elements : List Json} : (∀ v ∈ elements, Plain v) → Plain (.array elements)
  | object {members : List (Text × Json)} : (members.map Prod.fst).Nodup →
      memberOrder members = members → (∀ m ∈ members, Plain m.2) → Plain (.object members)

theorem Plain.singleton {name : Text} {v : Json} (hname : indexOf? name = none) (h : Plain v) :
    Plain (.object [(name, v)]) := by
  refine .object (by simp) (memberOrder_of_names fun m hm => ?_) fun m hm => ?_
  · rw [List.mem_singleton.mp hm]
    exact hname
  · rw [List.mem_singleton.mp hm]
    exact h

/-- Enough fuel reads the value back, and leaves what follows it. -/
def ReadsBack (v : Json) : Prop :=
  ∀ fuel rest, 2 * v.compact.length ≤ fuel → EndsNumber rest →
    readValue fuel (v.compact ++ rest) = some (v, rest)

theorem endsNumber_cons {c : Char} {rest : Text} (hd : c.isDigit = false) (hp : c ≠ '.')
    (he : c ≠ 'e') (hE : c ≠ 'E') : EndsNumber (c :: rest) := by
  intro c' rest' h
  obtain ⟨rfl, -⟩ := List.cons.inj h
  exact ⟨hd, hp, he, hE⟩

theorem endsNumber_comma (rest : Text) : EndsNumber (',' :: rest) :=
  endsNumber_cons (by decide) (by decide) (by decide) (by decide)

theorem endsNumber_bracket (rest : Text) : EndsNumber (']' :: rest) :=
  endsNumber_cons (by decide) (by decide) (by decide) (by decide)

theorem endsNumber_brace (rest : Text) : EndsNumber ('}' :: rest) :=
  endsNumber_cons (by decide) (by decide) (by decide) (by decide)

theorem skipSpace_of_ne {c : Char} (t : Text)
    (h : (c = ' ' || c = '\t' || c = '\n' || c = '\r') = false) : skipSpace (c :: t) = c :: t := by
  rw [skipSpace, List.dropWhile_cons_of_neg (by simpa using h)]

theorem reads_number {n : Int} (h : Binary64.IsExact n.natAbs) :
    ReadsBack (.number (.integer n)) := by
  intro fuel rest hfuel hr
  obtain ⟨c, cs, hcons, hhead⟩ := head_text h
  have hread := readNumber_text h hr
  have hcompact : (Json.number (.integer n)).compact = c :: cs := hcons
  rw [hcompact] at hfuel ⊢
  rw [hcons] at hread
  -- No digit and no dash begins another kind of value.
  have hne (d : Char) (hd : d.isDigit = false) (hdash : d ≠ '-') : c ≠ d := by
    rcases hhead with rfl | hdigit
    · exact hdash.symm
    · exact Text.ne_of_test hdigit hd
  have hskip : skipSpace (c :: (cs ++ rest)) = c :: (cs ++ rest) := by
    apply skipSpace_of_ne
    simp [hne ' ' (by decide) (by decide), hne '\t' (by decide) (by decide),
      hne '\n' (by decide) (by decide), hne '\r' (by decide) (by decide)]
  have hword : readWord (c :: (cs ++ rest)) = none := by
    simp [readWord, Text.stripStart?, (hne 'n' (by decide) (by decide)).symm,
      (hne 't' (by decide) (by decide)).symm, (hne 'f' (by decide) (by decide)).symm]
  cases fuel with
  | zero => simp at hfuel
  | succ fuel =>
    rw [List.cons_append] at hread ⊢
    unfold readValue
    rw [hskip]
    split
    · next heq => exact absurd (List.cons.inj heq).1 (hne '{' (by decide) (by decide))
    · next heq => exact absurd (List.cons.inj heq).1 (hne '[' (by decide) (by decide))
    · next heq => exact absurd (List.cons.inj heq).1 (hne '"' (by decide) (by decide))
    · rw [hword, hread]
      rfl

theorem reads_string (s : Text) : ReadsBack (.string s) := by
  intro fuel rest hfuel _
  have hcompact : (Json.string s).compact ++ rest = '"' :: (s.flatMap escape ++ '"' :: rest) := by
    simp [compact, quote]
  cases fuel with
  | zero => simp [compact, quote] at hfuel
  | succ fuel =>
    rw [hcompact]
    show (readString (s.flatMap escape ++ '"' :: rest)).map _ = _
    rw [readString_escaped]
    rfl

theorem reads_null : ReadsBack .null := by
  intro fuel rest hfuel _
  cases fuel with
  | zero => simp [compact] at hfuel
  | succ fuel => rfl

theorem reads_bool (b : Bool) : ReadsBack (.bool b) := by
  intro fuel rest hfuel _
  cases fuel with
  | zero => cases b <;> simp [compact] at hfuel
  | succ fuel => cases b <;> rfl

/-! ## Arrays -/

theorem join_cons_cons (s t : Text) (rest : List Text) :
    Text.join [','] (s :: t :: rest) = s ++ ',' :: Text.join [','] (t :: rest) := by
  simp [Text.join_cons_cons]

theorem readElements_succ_last {fuel : Nat} {t rest : Text} {v : Json}
    (h : readValue fuel t = some (v, ']' :: rest)) :
    readElements (fuel + 1) t = some ([v], rest) := by
  rw [readElements, h]
  rfl

theorem readElements_succ_more {fuel : Nat} {t more : Text} {v : Json} {r : List Json × Text}
    (h : readValue fuel t = some (v, ',' :: more)) (hmore : readElements fuel more = some r) :
    readElements (fuel + 1) t = some (v :: r.1, r.2) := by
  rw [readElements, h]
  show (readElements fuel more).map _ = _
  rw [hmore]
  rfl

theorem readElements_join {v : Json} {vs : List Json} (h : ∀ u ∈ v :: vs, ReadsBack u) :
    ∀ fuel rest, 2 * (Text.join [','] (compactElements (v :: vs))).length < fuel →
      readElements fuel (Text.join [','] (compactElements (v :: vs)) ++ ']' :: rest) =
        some (v :: vs, rest) := by
  induction vs generalizing v with
  | nil =>
    intro fuel rest hfuel
    simp only [compactElements, Text.join_singleton] at hfuel ⊢
    cases fuel with
    | zero => omega
    | succ fuel =>
      exact readElements_succ_last
        (h v List.mem_cons_self fuel _ (by omega) (endsNumber_bracket rest))
  | cons u vs ih =>
    intro fuel rest hfuel
    simp only [compactElements, join_cons_cons, List.length_append, List.length_cons] at hfuel ⊢
    cases fuel with
    | zero => omega
    | succ fuel =>
      have hmore := ih (fun x hx => h x (List.mem_cons_of_mem v hx)) fuel rest
        (by simp only [compactElements]; omega)
      simp only [compactElements] at hmore
      rw [List.append_assoc, List.cons_append]
      exact readElements_succ_more
        (h v List.mem_cons_self fuel _ (by omega) (endsNumber_comma _)) hmore

theorem head_compact {v : Json} (h : Plain v) :
    ∃ c cs, v.compact = c :: cs ∧ c ≠ ']' ∧
      (c = ' ' || c = '\t' || c = '\n' || c = '\r') = false := by
  cases h with
  | null => exact ⟨'n', _, rfl, by decide⟩
  | bool b => cases b; exacts [⟨'f', _, rfl, by decide⟩, ⟨'t', _, rfl, by decide⟩]
  | string s => exact ⟨'"', _, rfl, by decide⟩
  | array _ => exact ⟨'[', _, rfl, by decide⟩
  | object _ _ _ => exact ⟨'\x7b', _, rfl, by decide⟩
  | number hn =>
    obtain ⟨c, cs, hcons, hhead⟩ := head_text hn
    refine ⟨c, cs, hcons, ?_⟩
    rcases hhead with rfl | hdigit
    · decide
    · have hne (d : Char) (hd : d.isDigit = false) : c ≠ d := Text.ne_of_test hdigit hd
      simp [hne ']' (by decide), hne ' ' (by decide), hne '\t' (by decide), hne '\n' (by decide),
        hne '\r' (by decide)]

theorem readValue_bracket {fuel : Nat} {c : Char} {t : Text} (hc : c ≠ ']')
    (hblank : (c = ' ' || c = '\t' || c = '\n' || c = '\r') = false) :
    readValue (fuel + 1) ('[' :: c :: t) =
      (readElements fuel (c :: t)).map fun r => (.array r.1, r.2) := by
  unfold readValue
  rw [skipSpace_of_ne (c :: t) (by decide)]
  simp only [skipSpace_of_ne t hblank]
  split
  · next heq => exact absurd (List.cons.inj heq).1 hc
  · rfl

theorem reads_array {elements : List Json} (hplain : ∀ v ∈ elements, Plain v)
    (h : ∀ v ∈ elements, ReadsBack v) : ReadsBack (.array elements) := by
  intro fuel rest hfuel _
  cases fuel with
  | zero => simp [compact] at hfuel
  | succ fuel =>
    cases elements with
    | nil => rfl
    | cons v vs =>
      obtain ⟨c, cs, hcons, hc, hblank⟩ := head_compact (hplain v List.mem_cons_self)
      have hjoin : ∃ t, Text.join [','] (compactElements (v :: vs)) = c :: t := by
        cases vs with
        | nil => exact ⟨cs, by rw [compactElements, compactElements, Text.join_singleton, hcons]⟩
        | cons u vs => exact ⟨_, by rw [compactElements, compactElements, join_cons_cons, hcons]; rfl⟩
      obtain ⟨t, hjoin⟩ := hjoin
      have hread := readElements_join h fuel rest (by simp [compact] at hfuel; omega)
      rw [compact, List.append_assoc, List.singleton_append, List.cons_append]
      rw [hjoin, List.cons_append] at hread ⊢
      rw [readValue_bracket hc hblank, hread]
      rfl

/-! ## Objects -/

theorem ofMembers_of_ordered {members : List (Text × Json)} (hnames : (members.map Prod.fst).Nodup)
    (horder : memberOrder members = members) : ofMembers members = .object members := by
  rw [ofMembers, OrderedMap.entries_ofList hnames, horder]

def memberText (m : Text × Json) : Text := quote m.1 ++ ':' :: m.2.compact

theorem compactMembers_eq (members : List (Text × Json)) :
    compactMembers members = members.map memberText := by
  induction members with
  | nil => rfl
  | cons m rest ih => rw [compactMembers, ih]; rfl

theorem memberText_append (m : Text × Json) (rest : Text) :
    memberText m ++ rest = '"' :: (m.1.flatMap escape ++ '"' :: ':' :: (m.2.compact ++ rest)) := by
  simp [memberText, quote]

theorem readMembers_succ_last {fuel : Nat} {m : Text × Json} {rest : Text}
    (h : readValue fuel (m.2.compact ++ '\x7d' :: rest) = some (m.2, '\x7d' :: rest)) :
    readMembers (fuel + 1) (memberText m ++ '\x7d' :: rest) = some ([m], rest) := by
  rw [memberText_append]
  unfold readMembers
  rw [skipSpace_of_ne _ (by decide)]
  simp only [readString_escaped, skipSpace_of_ne (c := ':') _ (by decide), h]
  rfl

theorem readMembers_succ_more {fuel : Nat} {m : Text × Json} {more : Text}
    {r : List (Text × Json) × Text}
    (h : readValue fuel (m.2.compact ++ ',' :: more) = some (m.2, ',' :: more))
    (hmore : readMembers fuel more = some r) :
    readMembers (fuel + 1) (memberText m ++ ',' :: more) = some (m :: r.1, r.2) := by
  rw [memberText_append]
  unfold readMembers
  rw [skipSpace_of_ne _ (by decide)]
  simp only [readString_escaped, skipSpace_of_ne (c := ':') _ (by decide), h]
  show (readMembers fuel more).map _ = _
  rw [hmore]
  rfl

theorem length_memberText (m : Text × Json) : m.2.compact.length + 3 ≤ (memberText m).length := by
  simp [memberText, quote]

theorem readMembers_join {m : Text × Json} {ms : List (Text × Json)}
    (h : ∀ x ∈ m :: ms, ReadsBack x.2) :
    ∀ fuel rest, 2 * (Text.join [','] ((m :: ms).map memberText)).length < fuel →
      readMembers fuel (Text.join [','] ((m :: ms).map memberText) ++ '\x7d' :: rest) =
        some (m :: ms, rest) := by
  induction ms generalizing m with
  | nil =>
    intro fuel rest hfuel
    have hlength := length_memberText m
    simp only [List.map_cons, List.map_nil, Text.join_singleton] at hfuel ⊢
    cases fuel with
    | zero => omega
    | succ fuel =>
      exact readMembers_succ_last
        (h m List.mem_cons_self fuel _ (by omega) (endsNumber_brace rest))
  | cons m' ms ih =>
    intro fuel rest hfuel
    have hlength := length_memberText m
    simp only [List.map_cons, join_cons_cons, List.length_append, List.length_cons] at hfuel ⊢
    cases fuel with
    | zero => omega
    | succ fuel =>
      have hmore := ih (fun x hx => h x (List.mem_cons_of_mem m hx)) fuel rest
        (by simp only [List.map_cons]; omega)
      simp only [List.map_cons] at hmore
      rw [List.append_assoc, List.cons_append]
      exact readMembers_succ_more
        (h m List.mem_cons_self fuel _ (by omega) (endsNumber_comma _)) hmore

theorem readValue_brace (fuel : Nat) (t : Text) :
    readValue (fuel + 1) ('\x7b' :: '"' :: t) =
      (readMembers fuel ('"' :: t)).map fun r => (ofMembers r.1, r.2) := rfl

theorem reads_object {members : List (Text × Json)} (hnames : (members.map Prod.fst).Nodup)
    (horder : memberOrder members = members) (h : ∀ m ∈ members, ReadsBack m.2) :
    ReadsBack (.object members) := by
  intro fuel rest hfuel _
  cases fuel with
  | zero => simp [compact] at hfuel
  | succ fuel =>
    cases members with
    | nil => rfl
    | cons m ms =>
      have hjoin : ∃ t, Text.join [','] ((m :: ms).map memberText) = '"' :: t := by
        cases ms with
        | nil => exact ⟨_, by rw [List.map_cons, List.map_nil, Text.join_singleton]; rfl⟩
        | cons m' ms => exact ⟨_, by rw [List.map_cons, List.map_cons, join_cons_cons]; rfl⟩
      obtain ⟨t, hjoin⟩ := hjoin
      have hread := readMembers_join h fuel rest
        (by simp [compact, compactMembers_eq] at hfuel ⊢; omega)
      rw [compact, compactMembers_eq, List.append_assoc, List.singleton_append, List.cons_append]
      rw [hjoin, List.cons_append] at hread ⊢
      rw [readValue_brace, hread, ← ofMembers_of_ordered hnames horder]
      rfl

/-! ## Whole texts -/

theorem reads_plain {v : Json} (h : Plain v) : ReadsBack v := by
  induction h with
  | null => exact reads_null
  | bool b => exact reads_bool b
  | number hn => exact reads_number hn
  | string s => exact reads_string s
  | array hplain ih => exact reads_array hplain ih
  | object hnames horder _ ih => exact reads_object hnames horder ih

/-- What is written on one line reads back. -/
theorem parse?_compact {v : Json} (h : Plain v) : parse? v.compact = some v := by
  have hread := reads_plain h (2 * v.compact.length + 2) [] (by omega) nofun
  rw [List.append_nil] at hread
  rw [parse?, hread]
  rfl

end PackageHistory.Json
