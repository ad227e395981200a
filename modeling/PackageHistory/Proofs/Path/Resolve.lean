import Mathlib.Data.List.TakeWhile
import PackageHistory.Proofs.Path

/-!
# Where a text leads

A text leads along its segments, one after another. So a normalized text leads where the text itself does, a
text that goes on below another one leads on from there, and without its last name a text leads to the
folder that the name is in.
-/

namespace PackageHistory

namespace Path

variable {cwd p : Path} {s t name lead : Text} {names : List Text}

theorem resolve_of_absolute (h : isAbsolute t = true) (cwd : Path) :
    resolve cwd t = (t.splitOn '/').foldl step [] := by
  rw [resolve, if_pos h]

theorem resolve_of_relative (h : isAbsolute t = false) (cwd : Path) :
    resolve cwd t = (t.splitOn '/').foldl step cwd := by
  rw [resolve, if_neg (by rw [h]; exact Bool.false_ne_true)]

theorem isAbsolute_of_not_mem (h : '/' ∉ t) : isAbsolute t = false := by
  unfold isAbsolute
  split
  · exact absurd List.mem_cons_self h
  · rfl

theorem isAbsolute_append (hs : s ≠ []) (t : Text) : isAbsolute (s ++ t) = isAbsolute s := by
  obtain ⟨c, rest, rfl⟩ := List.exists_cons_of_ne_nil hs
  rw [List.cons_append]
  unfold isAbsolute
  split <;> simp_all

theorem resolve_of_isName (h : IsName name) (cwd : Path) : resolve cwd name = cwd ++ [name] := by
  rw [resolve_of_relative (isAbsolute_of_not_mem h.slash), Text.splitOn_of_not_mem h.slash]
  exact step_of_isName h cwd

theorem foldl_step_of_names (h : ∀ name ∈ names, IsName name) (p : Path) :
    names.foldl step p = p ++ names := by
  induction names generalizing p with
  | nil => simp
  | cons name rest ih =>
    rw [List.foldl_cons, step_of_isName (h name List.mem_cons_self),
      ih fun name hmem => h name (List.mem_cons_of_mem _ hmem), List.append_assoc]
    rfl

theorem isName_step (hp : ∀ name ∈ p, IsName name) (hslash : '/' ∉ s) :
    ∀ name ∈ step p s, IsName name := by
  intro name hmem
  unfold step at hmem
  split at hmem
  · exact hp name hmem
  · next hpass =>
    obtain ⟨hfilled, hdot⟩ := not_or.mp hpass
    split at hmem
    · exact hp name ((List.dropLast_subset p) hmem)
    · next hdots =>
      rcases List.mem_append.mp hmem with hmem | hmem
      · exact hp name hmem
      · rw [List.mem_singleton.mp hmem]
        exact ⟨hslash, hfilled, hdot, hdots⟩

theorem isName_of_mem_resolve (hcwd : ∀ name ∈ cwd, IsName name) (t : Text) :
    ∀ name ∈ resolve cwd t, IsName name := by
  have hfold (segments : List Text) (hslash : ∀ s ∈ segments, '/' ∉ s) :
      ∀ p : Path, (∀ name ∈ p, IsName name) → ∀ name ∈ segments.foldl step p, IsName name := by
    induction segments with
    | nil => exact fun p hp => hp
    | cons s rest ih =>
      intro p hp
      exact ih (fun s hs => hslash s (List.mem_cons_of_mem _ hs)) _
        (isName_step hp (hslash s List.mem_cons_self))
  refine hfold _ (fun s hs => Text.not_mem_of_mem_splitOn hs) _ ?_
  split
  · exact fun _ hmem => absurd hmem List.not_mem_nil
  · exact hcwd

/-- A text that goes on below another one leads on from where that leads. -/
theorem resolve_append_sep (hs : s ≠ []) (cwd : Path) (t : Text) :
    resolve cwd (s ++ '/' :: t) = (t.splitOn '/').foldl step (resolve cwd s) := by
  rw [resolve, Text.splitOn_append_sep, List.foldl_append, isAbsolute_append hs]
  rfl

/-! ## Normal texts -/

/-- A segment that a normal text can have: two dots stay only where the text is relative. -/
def IsKept (absolute : Bool) (segment : Text) : Prop :=
  IsName segment ∨ absolute = false ∧ segment = dots

theorem IsKept.slash {absolute : Bool} (h : IsKept absolute s) : '/' ∉ s := by
  rcases h with h | ⟨-, rfl⟩
  · exact h.slash
  · decide

theorem IsKept.filled {absolute : Bool} (h : IsKept absolute s) : s ≠ [] := by
  rcases h with h | ⟨-, rfl⟩
  · exact h.filled
  · nofun

/-- Normal segments lead where the segments lead that they were made of. -/
theorem foldl_step_stepText {absolute : Bool} {segment : Text} (hstart : absolute = true → p = [])
    (hnames : ∀ s ∈ names, IsKept absolute s) (hslash : '/' ∉ segment) :
    (stepText absolute names segment).foldl step p = step (names.foldl step p) segment ∧
      ∀ s ∈ stepText absolute names segment, IsKept absolute s := by
  by_cases hpass : segment = [] ∨ segment = dot
  · rw [stepText, if_pos hpass, step, if_pos hpass]
    exact ⟨rfl, hnames⟩
  by_cases hdots : segment = dots
  · have hup (p : Path) : step p segment = p.dropLast := by rw [step, if_neg hpass, if_pos hdots]
    rw [stepText, if_neg hpass, if_pos hdots, hup]
    -- Two dots go up from a name. With no name to leave they are kept, or are nothing at the root.
    by_cases hend : names = [] ∨ names.getLast? = some dots
    · rw [if_pos hend]
      cases absolute with
      | true =>
        have hnil : names = [] := by
          refine hend.resolve_right fun hlast => ?_
          rcases hnames _ (List.mem_of_getLast? hlast) with h | ⟨h, -⟩
          · exact h.dots rfl
          · cases h
        obtain rfl := hstart rfl
        subst hnil
        exact ⟨rfl, hnames⟩
      | false =>
        rw [if_neg Bool.false_ne_true, ← hdots, List.foldl_append, List.foldl_cons, List.foldl_nil, hup]
        refine ⟨rfl, fun s hmem => ?_⟩
        rcases List.mem_append.mp hmem with hmem | hmem
        · exact hnames s hmem
        · exact .inr ⟨rfl, (List.mem_singleton.mp hmem).trans hdots⟩
    · rw [if_neg hend]
      obtain ⟨hne, hlast⟩ := not_or.mp hend
      obtain ⟨before, last, rfl⟩ := (List.eq_nil_or_concat names).resolve_left hne
      rw [List.concat_eq_append] at hnames hlast ⊢
      have hname : IsName last := by
        rcases hnames last (by simp) with h | ⟨-, rfl⟩
        · exact h
        · exact absurd List.getLast?_concat hlast
      rw [List.dropLast_concat, List.foldl_append, List.foldl_cons, List.foldl_nil,
        step_of_isName hname, List.dropLast_concat]
      exact ⟨rfl, fun s hmem => hnames s (List.mem_append_left _ hmem)⟩
  · obtain ⟨hfilled, hdot⟩ := not_or.mp hpass
    rw [stepText, if_neg hpass, if_neg hdots, List.foldl_append]
    refine ⟨rfl, fun s hmem => ?_⟩
    rcases List.mem_append.mp hmem with hmem | hmem
    · exact hnames s hmem
    · rw [List.mem_singleton.mp hmem]
      exact .inl ⟨hslash, hfilled, hdot, hdots⟩

theorem foldl_step_normal (absolute : Bool) {segments : List Text}
    (hstart : absolute = true → p = []) (hslash : ∀ s ∈ segments, '/' ∉ s) :
    (segments.foldl (stepText absolute) []).foldl step p = segments.foldl step p ∧
      ∀ s ∈ segments.foldl (stepText absolute) [], IsKept absolute s := by
  -- The segments that are left over may be anything, so those already made normal are general.
  have hfold (segments : List Text) (hslash : ∀ s ∈ segments, '/' ∉ s) :
      ∀ names : List Text, (∀ s ∈ names, IsKept absolute s) →
        (segments.foldl (stepText absolute) names).foldl step p =
            segments.foldl step (names.foldl step p) ∧
          ∀ s ∈ segments.foldl (stepText absolute) names, IsKept absolute s := by
    induction segments with
    | nil => exact fun names hnames => ⟨rfl, hnames⟩
    | cons segment rest ih =>
      intro names hnames
      obtain ⟨hstep, hkept⟩ := foldl_step_stepText hstart hnames (hslash segment List.mem_cons_self)
      have hrest := ih (fun s hs => hslash s (List.mem_cons_of_mem _ hs)) _ hkept
      rwa [hstep] at hrest
  exact hfold segments hslash [] fun _ hmem => absurd hmem List.not_mem_nil

theorem foldl_step_splitOn_join {slash : Text} (hnames : ∀ s ∈ names, '/' ∉ s)
    (hslash : slash = [] ∨ slash = ['/']) (p : Path) :
    ((Text.join ['/'] names ++ slash).splitOn '/').foldl step p = names.foldl step p := by
  have hjoin : ((Text.join ['/'] names).splitOn '/').foldl step p = names.foldl step p := by
    cases names with
    | nil => rfl
    | cons name rest => rw [Text.splitOn_join (List.cons_ne_nil name rest) hnames]
  rcases hslash with rfl | rfl
  · rwa [List.append_nil]
  · rw [Text.splitOn_append_sep, List.foldl_append, hjoin]
    rfl

theorem isAbsolute_join {absolute : Bool} (h : ∀ s ∈ name :: names, IsKept absolute s) (s : Text) :
    isAbsolute (Text.join ['/'] (name :: names) ++ s) = false := by
  have hname := h name List.mem_cons_self
  rw [Text.join_cons, List.append_assoc, isAbsolute_append hname.filled, isAbsolute_of_not_mem hname.slash]

/-- A normal text leads where the text leads that it was made of. -/
theorem resolve_normalize (cwd : Path) (t : Text) : resolve cwd (normalize t) = resolve cwd t := by
  have hslash : ∀ s ∈ t.splitOn '/', '/' ∉ s := fun s hs => Text.not_mem_of_mem_splitOn hs
  obtain ⟨slash, hend, hslashes⟩ : ∃ slash, (if t.getLast? = some '/' then ['/'] else []) = slash ∧
      (slash = [] ∨ slash = ['/']) := by
    split <;> simp
  unfold normalize
  dsimp only
  rw [hend]
  cases habsolute : isAbsolute t with
  | true =>
    obtain ⟨hfold, hkept⟩ := foldl_step_normal (p := []) true (fun _ => rfl) hslash
    rw [if_pos rfl, resolve_of_absolute habsolute, ← hfold]
    have hrooted (s : Text) : resolve cwd ('/' :: s) = (s.splitOn '/').foldl step [] := rfl
    rw [List.cons_append, hrooted]
    exact foldl_step_splitOn_join (fun s hs => (hkept s hs).slash) (by split <;> simp [hslashes]) []
  | false =>
    obtain ⟨hfold, hkept⟩ := foldl_step_normal (p := cwd) false nofun hslash
    rw [if_neg Bool.false_ne_true, resolve_of_relative habsolute, ← hfold]
    cases hnames : (t.splitOn '/').foldl (stepText false) [] with
    | nil =>
      have hbody : Text.join ['/'] [] = [] := rfl
      rw [if_pos hbody]
      split
      · rfl
      · rcases hslashes with rfl | rfl <;> rfl
    | cons name names =>
      rw [hnames] at hkept
      have hrelative := isAbsolute_join hkept slash
      have hfilled : Text.join ['/'] (name :: names) ≠ [] := by
        intro hnil
        have hnone := isAbsolute_join hkept ['/']
        rw [hnil] at hnone
        cases hnone
      rw [if_neg hfilled, resolve_of_relative hrelative]
      exact foldl_step_splitOn_join (fun s hs => (hkept s hs).slash) hslashes cwd

theorem resolve_join (cwd : Path) (parts : List Text) :
    resolve cwd (join parts) =
      resolve cwd (Text.join ['/'] (parts.filter fun part => !part.isEmpty)) :=
  resolve_normalize cwd _

/-! ## Without the last name -/

theorem dropWhile_reverse_of_isName (h : IsName name) (before : Text) :
    (((before ++ '/' :: name).reverse.dropWhile (· = '/')).dropWhile (· ≠ '/')) =
      '/' :: before.reverse := by
  have hne : ∀ c ∈ name.reverse, c ≠ '/' := fun c hc heq =>
    h.slash (heq ▸ List.mem_reverse.mp hc)
  obtain ⟨c, rest, hreverse⟩ := List.exists_cons_of_ne_nil (List.reverse_ne_nil_iff.mpr h.filled)
  have hc : c ≠ '/' := hne c (hreverse ▸ List.mem_cons_self)
  have hfirst : (before ++ '/' :: name).reverse.dropWhile (· = '/') =
      name.reverse ++ '/' :: before.reverse := by
    rw [List.reverse_append, List.reverse_cons, hreverse]
    simp [hc]
  rw [hfirst, List.dropWhile_append_of_pos (by simpa using hne), List.dropWhile_cons_of_neg (by simp)]

theorem dropWhile_reverse_of_not_mem (h : '/' ∉ t) :
    (t.reverse.dropWhile (· = '/')).dropWhile (· ≠ '/') = [] := by
  rw [List.dropWhile_eq_nil_iff]
  intro c hc
  have hmem : c ∈ t := List.mem_reverse.mp ((List.dropWhile_suffix _).subset hc)
  have hne : c ≠ '/' := fun heq => h (heq ▸ hmem)
  simpa using hne

theorem parentText_append (hs : s ≠ []) (h : IsName name) :
    parentText (s ++ '/' :: name) = s ∨ s = ['/'] ∧ parentText (s ++ '/' :: name) = ['/', '/'] := by
  obtain ⟨first, rest, rfl⟩ := List.exists_cons_of_ne_nil hs
  rw [List.cons_append, parentText, dropWhile_reverse_of_isName h]
  dsimp only
  split
  · next hslash =>
    rw [Bool.and_eq_true, decide_eq_true_eq, List.isEmpty_iff, List.reverse_eq_nil_iff] at hslash
    obtain ⟨rfl, rfl⟩ := hslash
    exact .inr ⟨rfl, rfl⟩
  · rw [List.reverse_reverse]
    exact .inl rfl

/-- What stands behind the last slash of a text is its last segment. -/
theorem exists_lead (t : Text) : ∃ lead last, t = lead ++ last ∧ IsLead lead ∧ '/' ∉ last := by
  induction t with
  | nil => exact ⟨[], [], rfl, .inl rfl, List.not_mem_nil⟩
  | cons c rest ih =>
    obtain ⟨lead, last, rfl, hlead, hlast⟩ := ih
    rcases hlead with rfl | ⟨s, rfl⟩
    · by_cases hc : c = '/'
      · exact ⟨[c], last, rfl, .inr ⟨[], by rw [hc]; rfl⟩, hlast⟩
      · exact ⟨[], c :: last, rfl, .inl rfl, List.not_mem_cons_of_ne_of_not_mem (Ne.symm hc) hlast⟩
    · exact ⟨c :: (s ++ ['/']), last, rfl, .inr ⟨c :: s, rfl⟩, hlast⟩

/-- The last segment is one more step. -/
theorem resolve_append (hlead : IsLead lead) {last : Text} (hlast : '/' ∉ last) (cwd : Path) :
    resolve cwd (lead ++ last) = step (resolve cwd lead) last := by
  rcases hlead with rfl | ⟨s, rfl⟩
  · rw [List.nil_append, resolve_of_relative (isAbsolute_of_not_mem hlast), Text.splitOn_of_not_mem hlast]
    rfl
  · rw [List.append_assoc, List.singleton_append]
    by_cases hs : s = []
    · subst hs
      rw [List.nil_append, resolve_of_absolute rfl, ← List.nil_append ('/' :: last),
        Text.splitOn_append_sep, Text.splitOn_of_not_mem hlast]
      rfl
    · rw [resolve_append_sep hs, resolve_append_sep hs, Text.splitOn_of_not_mem hlast]
      rfl

/-- Names after the same lead are in one folder, and without the name the text leads to it. -/
theorem resolve_lead (hlead : IsLead lead) (cwd : Path) :
    ∃ folder, ∀ name, IsName name → resolve cwd (lead ++ name) = folder ++ [name] ∧
      resolve cwd (parentText (lead ++ name)) = folder := by
  refine ⟨resolve cwd lead, fun name h => ⟨?_, ?_⟩⟩
  · rw [resolve_append hlead h.slash, step_of_isName h]
  · rcases hlead with rfl | ⟨s, rfl⟩
    · obtain ⟨c, rest, rfl⟩ := List.exists_cons_of_ne_nil h.filled
      obtain ⟨hc, hrest⟩ := not_or.mp fun hmem => h.slash (List.mem_cons.mpr hmem)
      rw [List.nil_append, parentText, dropWhile_reverse_of_not_mem hrest]
      dsimp only
      rw [if_neg (Ne.symm hc)]
      rfl
    · rw [List.append_assoc, List.singleton_append]
      by_cases hs : s = []
      · subst hs
        rw [List.nil_append, parentText, dropWhile_reverse_of_not_mem h.slash]
        rfl
      · have hslash : resolve cwd (s ++ ['/']) = resolve cwd s := by
          rw [resolve_append_sep hs]
          rfl
        rw [hslash]
        rcases parentText_append hs h with hparent | ⟨rfl, hparent⟩ <;> rw [hparent]
        rfl

end Path

end PackageHistory
