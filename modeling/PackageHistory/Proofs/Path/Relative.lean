import PackageHistory.Proofs.Path.Resolve

/-!
# Relative texts

The way from a folder to what is in it is the names that lead there; every other way first leads up. A normal
text that is not absolute stays where it starts, or first leads up, or leads straight down.
-/

namespace PackageHistory

namespace Path

variable {p target : Path} {t s name slash : Text} {names segments : List Text}

/-! ## The way between two paths -/

theorem commonLength_append (p : Path) (names : List Text) :
    commonLength p (p ++ names) = p.length := by
  induction p with
  | nil => cases names <;> rfl
  | cons a as ih => rw [List.cons_append, commonLength, if_pos rfl, ih, List.length_cons]

theorem prefix_of_length_le (h : p.length ≤ commonLength p target) : p <+: target := by
  induction p generalizing target with
  | nil => exact List.nil_prefix
  | cons a as ih =>
    cases target with
    | nil => exact absurd h (Nat.not_succ_le_zero _)
    | cons b bs =>
      rw [commonLength] at h
      split at h
      · next heq =>
        rw [heq, List.prefix_cons_inj]
        exact ih (Nat.le_of_succ_le_succ h)
      · exact absurd h (Nat.not_succ_le_zero _)

theorem relative_append (p : Path) (names : List Text) :
    relative p (p ++ names) = Text.join ['/'] names := by
  unfold relative
  dsimp only
  rw [commonLength_append, Nat.sub_self, List.replicate_zero, List.nil_append, List.drop_left]

theorem dots_prefix_relative (h : ¬ p <+: target) : dots <+: relative p target := by
  have hshort : commonLength p target < p.length :=
    Nat.lt_of_not_le fun hle => h (prefix_of_length_le hle)
  obtain ⟨n, hn⟩ : ∃ n, p.length - commonLength p target = n + 1 :=
    Nat.exists_eq_add_one.mpr (Nat.sub_pos_of_lt hshort)
  unfold relative
  dsimp only
  rw [hn, List.replicate_succ, List.cons_append, Text.join_cons]
  exact List.prefix_append _ _

/-! ## The first segment -/

def firstSegment (t : Text) : Text := t.takeWhile (· ≠ '/')

theorem firstSegment_append (hname : '/' ∉ name) (hrest : ∀ c ∈ s.head?, c = '/') :
    firstSegment (name ++ s) = name := by
  have hall : ∀ c ∈ name, decide (c ≠ '/') = true := fun c hc =>
    decide_eq_true fun heq => hname (heq ▸ hc)
  rw [firstSegment, List.takeWhile_append_of_pos hall]
  cases s with
  | nil => exact List.append_nil name
  | cons c rest =>
    obtain rfl := hrest c rfl
    exact List.append_nil name

theorem firstSegment_join (hname : '/' ∉ name) (hslash : slash = [] ∨ slash = ['/'])
    (names : List Text) : firstSegment (Text.join ['/'] (name :: names) ++ slash) = name := by
  rw [Text.join_cons, List.append_assoc]
  refine firstSegment_append hname fun c hc => ?_
  cases names with
  | nil =>
    rcases hslash with rfl | rfl
    · cases hc
    · exact (Option.some.inj hc).symm
  | cons next rest => exact (Option.some.inj hc).symm

theorem dots_prefix_iff (t : Text) : dots <+: t ↔ dots <+: firstSegment t := by
  constructor
  · rintro ⟨rest, rfl⟩
    exact ⟨_, rfl⟩
  · exact fun h => h.trans (List.takeWhile_prefix _)

theorem ne_nil_of_firstSegment (h : IsName (firstSegment t)) : t ≠ [] := by
  rintro rfl
  exact h.filled rfl

theorem isAbsolute_of_firstSegment (h : IsName (firstSegment t)) : isAbsolute t = false := by
  unfold isAbsolute
  split
  · exact absurd rfl h.filled
  · rfl

/-! ## Normal texts -/

/-- A text whose first step leads up. -/
def StartsUp (t : Text) : Prop := firstSegment t = dots

instance (t : Text) : Decidable (StartsUp t) := inferInstanceAs (Decidable (_ = _))

/-- The slash that a text ends in, if it does. -/
def endingSlash (t : Text) : Text := if t.getLast? = some '/' then ['/'] else []

theorem endingSlash_cases (t : Text) : endingSlash t = [] ∨ endingSlash t = ['/'] := by
  unfold endingSlash
  split
  · exact .inr rfl
  · exact .inl rfl

theorem StartsUp.dots_prefix (h : StartsUp t) : dots <+: t :=
  (dots_prefix_iff t).mpr (h ▸ List.prefix_rfl)

theorem StartsUp.isAbsolute (h : StartsUp t) : isAbsolute t = false := by
  obtain ⟨rest, rfl⟩ := h.dots_prefix
  rfl

/-- Two dots any number of times, then names. -/
def IsWay (segments : List Text) : Prop :=
  ∃ n names, segments = List.replicate n dots ++ names ∧ ∀ name ∈ names, IsName name

theorem IsWay.stepText (h : IsWay segments) (hslash : '/' ∉ s) :
    IsWay (stepText false segments s) := by
  obtain ⟨n, names, rfl, hnames⟩ := h
  by_cases hpass : s = [] ∨ s = dot
  · rw [Path.stepText, if_pos hpass]
    exact ⟨n, names, rfl, hnames⟩
  by_cases hdots : s = dots
  · rw [Path.stepText, if_neg hpass, if_pos hdots]
    -- With no name to leave the two dots are kept behind those that are there, else they take the last name.
    obtain rfl | ⟨before, last, rfl⟩ := List.eq_nil_or_concat names
    · have hkept : List.replicate n dots = [] ∨ (List.replicate n dots).getLast? = some dots := by
        cases n with
        | zero => exact .inl rfl
        | succ n => exact .inr (by rw [List.replicate_succ', List.getLast?_concat])
      rw [List.append_nil, if_pos hkept, if_neg Bool.false_ne_true, ← List.replicate_succ']
      exact ⟨n + 1, [], (List.append_nil _).symm, hnames⟩
    · have hlast : IsName last := hnames last (by simp)
      have hleft : ¬ (List.replicate n dots ++ before.concat last = [] ∨
          (List.replicate n dots ++ before.concat last).getLast? = some dots) := by
        rw [List.concat_eq_append, ← List.append_assoc, List.getLast?_concat]
        rintro (hnil | hdots)
        · simp at hnil
        · exact hlast.dots (Option.some.inj hdots)
      rw [if_neg hleft, List.concat_eq_append, ← List.append_assoc, List.dropLast_concat]
      exact ⟨n, before, rfl, fun name hmem => hnames name (by simp [hmem])⟩
  · obtain ⟨hfilled, hdot⟩ := not_or.mp hpass
    rw [Path.stepText, if_neg hpass, if_neg hdots, List.append_assoc]
    refine ⟨n, names ++ [s], rfl, fun name hmem => ?_⟩
    rcases List.mem_append.mp hmem with hmem | hmem
    · exact hnames name hmem
    · rw [List.mem_singleton.mp hmem]
      exact ⟨hslash, hfilled, hdot, hdots⟩

theorem isWay_foldl (hslash : ∀ s ∈ names, '/' ∉ s) (h : IsWay segments) :
    IsWay (names.foldl (stepText false) segments) := by
  induction names generalizing segments with
  | nil => exact h
  | cons s rest ih =>
    exact ih (fun s hs => hslash s (List.mem_cons_of_mem _ hs)) (h.stepText (hslash s List.mem_cons_self))

theorem normal_cases (hnormal : normalize t = t) (hrelative : isAbsolute t = false) :
    t = dot ++ endingSlash t ∨ StartsUp t ∨
      ∃ names, names ≠ [] ∧ (∀ name ∈ names, IsName name) ∧
        t = Text.join ['/'] names ++ endingSlash t := by
  have hne : t ≠ [] := by
    rintro rfl
    cases hnormal
  have hslash := endingSlash_cases t
  obtain ⟨n, names, hway, hnames⟩ : IsWay ((t.splitOn '/').foldl (stepText false) []) :=
    isWay_foldl (fun s hs => Text.not_mem_of_mem_splitOn hs) ⟨0, [], rfl, nofun⟩
  unfold normalize at hnormal
  simp only [hrelative, hway, if_neg hne, if_neg Bool.false_ne_true] at hnormal
  change (if Text.join ['/'] (List.replicate n dots ++ names) = [] then dot ++ endingSlash t
    else Text.join ['/'] (List.replicate n dots ++ names) ++ endingSlash t) = t at hnormal
  split at hnormal
  · exact .inl hnormal.symm
  · next hfilled =>
    cases n with
    | zero =>
      rw [List.replicate_zero, List.nil_append] at hnormal hfilled
      have hsome : names ≠ [] := by
        rintro rfl
        exact hfilled rfl
      exact .inr (.inr ⟨names, hsome, hnames, hnormal.symm⟩)
    | succ n =>
      rw [List.replicate_succ, List.cons_append] at hnormal
      have hdots : '/' ∉ dots := by decide
      have hfirst := firstSegment_join hdots hslash (List.replicate n dots ++ names)
      rw [hnormal] at hfirst
      exact .inr (.inl hfirst)

/-! ## Where names lead -/

theorem resolve_join_names (hnames : ∀ name ∈ names, IsName name) (hne : names ≠ [])
    (hslash : slash = [] ∨ slash = ['/']) (p : Path) :
    resolve p (Text.join ['/'] names ++ slash) = p ++ names := by
  obtain ⟨name, rest, rfl⟩ := List.exists_cons_of_ne_nil hne
  have hkept : ∀ s ∈ name :: rest, IsKept false s := fun s hs => .inl (hnames s hs)
  rw [resolve_of_relative (isAbsolute_join hkept slash),
    foldl_step_splitOn_join (fun s hs => (hnames s hs).slash) hslash, foldl_step_of_names hnames]

end Path

end PackageHistory
