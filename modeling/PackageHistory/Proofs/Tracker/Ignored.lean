import PackageHistory.Proofs.Action
import PackageHistory.Proofs.Outcome
import PackageHistory.Proofs.Path.Relative
import PackageHistory.Tracker

/-!
# Which paths are looked up in the rules

The rules are asked for what lies strictly below the repository, by the names that lead there, and for nothing
else. Two dots decide: a path that first leads up is taken to lie outside, and so is one of which the first name
below the repository begins with two dots.
-/

namespace PackageHistory

theorem Ignore.isNotRelative_of_firstSegment {t : Text} (hname : Path.IsName (Path.firstSegment t))
    (hdots : ¬ Path.dots <+: t) : isNotRelative t = false := by
  obtain ⟨c, rest, rfl⟩ := List.exists_cons_of_ne_nil (Path.ne_nil_of_firstSegment hname)
  have hc : c ≠ '/' := by
    rintro rfl
    exact hname.filled rfl
  by_cases hdot : c = '.'
  · subst hdot
    cases rest with
    | nil => exact absurd rfl hname.dot
    | cons d more =>
      have hd : d ≠ '/' := by
        rintro rfl
        exact hname.dot rfl
      have hd' : d ≠ '.' := by
        rintro rfl
        exact hdots ⟨more, rfl⟩
      simp [isNotRelative, hd, hd']
  · simp [isNotRelative, hc, hdot]

namespace Tracker

variable {engine : Tracker → Text → Action (Tracker × Except Failure Bool)} {t t' : Tracker}
  {path : Text} {names : List Text} {rules : Ignore.Rules} {w w' : World}

/-! ## Where a path lies -/

/-- The folder of the repository. -/
def root (t : Tracker) : Path := Path.resolve [] t.target.location

/-- The place that a path names; one that is not absolute starts at the repository. -/
def placeOf (t : Tracker) (path : Text) : Path := Path.resolve t.root path

/-- Strictly below the repository, and by which names. -/
def LiesBelow (t : Tracker) (path : Text) (names : List Text) : Prop :=
  names ≠ [] ∧ t.placeOf path = t.root ++ names

instance (t : Tracker) (path : Text) (names : List Text) : Decidable (t.LiesBelow path names) :=
  inferInstanceAs (Decidable (_ ∧ _))

/-- The text of the names below the repository; a path that is not absolute keeps the slash it ends in. -/
def textBelow (path : Text) (names : List Text) : Text :=
  Text.join ['/'] names ++ if Path.isAbsolute path then [] else Path.endingSlash path

/-- What is looked at of a path: the way to it from the repository, or the path as it is. -/
def wayTo (t : Tracker) (path : Text) : Text :=
  if Path.isAbsolute path then Path.relative t.root (t.placeOf path) else path

theorem wayTo_of_relative (t : Tracker) (h : Path.isAbsolute path = false) : t.wayTo path = path :=
  if_neg (by rw [h]; exact Bool.false_ne_true)

theorem wayTo_of_dot (hdot : path = Path.dot ∨ path = Path.dot ++ ['/']) : t.wayTo path = path :=
  t.wayTo_of_relative (by rcases hdot with rfl | rfl <;> rfl)

theorem LiesBelow.unique {others : List Text} (h : t.LiesBelow path names)
    (hothers : t.LiesBelow path others) : others = names :=
  List.append_cancel_left (hothers.2.symm.trans h.2)

theorem not_liesBelow_of_root (h : t.placeOf path = t.root) (names : List Text) :
    ¬ t.LiesBelow path names := fun ⟨hne, hplace⟩ =>
  hne (List.append_right_eq_self.mp (hplace.symm.trans h))

theorem isName_of_mem_placeOf : ∀ name ∈ t.placeOf path, Path.IsName name :=
  Path.isName_of_mem_resolve (Path.isName_of_mem_resolve (fun _ h => absurd h List.not_mem_nil) _) path

theorem LiesBelow.isName (h : t.LiesBelow path names) : ∀ name ∈ names, Path.IsName name := fun name hmem =>
  isName_of_mem_placeOf name (h.2 ▸ List.mem_append_right _ hmem)

theorem textBelow_cases (path : Text) (names : List Text) : ∃ slash, (slash = [] ∨ slash = ['/']) ∧
    textBelow path names = Text.join ['/'] names ++ slash := by
  refine ⟨_, ?_, rfl⟩
  split
  · exact .inl rfl
  · exact Path.endingSlash_cases path

theorem LiesBelow.firstSegment (h : t.LiesBelow path names) :
    names.head? = some (Path.firstSegment (textBelow path names)) ∧
      Path.IsName (Path.firstSegment (textBelow path names)) := by
  obtain ⟨slash, hslash, htext⟩ := textBelow_cases path names
  obtain ⟨name, rest, rfl⟩ := List.exists_cons_of_ne_nil h.1
  have hname : Path.IsName name := h.isName name List.mem_cons_self
  rw [htext, Path.firstSegment_join hname.slash hslash]
  exact ⟨rfl, hname⟩

/-- A path leads straight to what is below the repository, or is passed over, or is the dot. -/
inductive Leads (t : Tracker) (path : Text) : Prop
  | straight (names : List Text) (hbelow : t.LiesBelow path names) (hup : ¬ Path.StartsUp path)
      (hway : t.wayTo path = textBelow path names)
  | passed (hlies : (∀ names, ¬ t.LiesBelow path names) ∨ Path.StartsUp path)
      (hpassed : t.wayTo path = [] ∨ Path.dots <+: t.wayTo path)
  | dot (hdot : path = Path.dot ∨ path = Path.dot ++ ['/'])

theorem leads_of_absolute (t : Tracker) (h : Path.isAbsolute path = true) : t.Leads path := by
  have hway : t.wayTo path = Path.relative t.root (t.placeOf path) := if_pos h
  by_cases hprefix : t.root <+: t.placeOf path
  · obtain ⟨names, hplace⟩ := hprefix
    rw [← hplace, Path.relative_append] at hway
    by_cases hnames : names = []
    · subst hnames
      rw [List.append_nil] at hplace
      exact .passed (.inl (not_liesBelow_of_root hplace.symm)) (.inl hway)
    · refine .straight names ⟨hnames, hplace.symm⟩ (fun hup => ?_) ?_
      · rw [hup.isAbsolute] at h
        cases h
      · rw [hway, textBelow, if_pos h, List.append_nil]
  · refine .passed (.inl fun names hnames => hprefix ⟨names, hnames.2.symm⟩) (.inr ?_)
    rw [hway]
    exact Path.dots_prefix_relative hprefix

theorem leads_of_relative (t : Tracker) (h : Path.isAbsolute path = false)
    (hnormal : Path.normalize path = path) : t.Leads path := by
  have hway := t.wayTo_of_relative h
  rcases Path.normal_cases hnormal h with hdot | hup | ⟨names, hne, hnames, htext⟩
  · refine .dot ?_
    rw [hdot]
    rcases Path.endingSlash_cases path with hslash | hslash <;> rw [hslash]
    · exact .inl rfl
    · exact .inr rfl
  -- What first leads up may come back to the repository, but nothing looks where it ends.
  · refine .passed (.inr hup) (.inr ?_)
    rw [hway]
    exact hup.dots_prefix
  · have hbelow : t.LiesBelow path names := by
      refine ⟨hne, ?_⟩
      rw [placeOf, htext]
      exact Path.resolve_join_names hnames hne (Path.endingSlash_cases path) t.root
    have hsame : textBelow path names = path := by
      rw [textBelow, h, if_neg Bool.false_ne_true, ← htext]
    refine .straight names hbelow (fun hup => ?_) (hway.trans hsame.symm)
    have hname := hbelow.firstSegment.2
    rw [hsame, hup] at hname
    exact hname.dots rfl

theorem leads (t : Tracker) (hnormal : path = [] ∨ Path.normalize path = path) : t.Leads path := by
  rcases hnormal with rfl | hnormal
  · exact .passed (.inl (not_liesBelow_of_root rfl)) (.inl rfl)
  cases h : Path.isAbsolute path with
  | true => exact t.leads_of_absolute h
  | false => exact t.leads_of_relative h hnormal

/-! ## What is asked -/

theorem rulesOnce_of_load (hnone : t.rules = none) (hload : (loadRules t.target.location w).1 = .ok rules) :
    t.rulesOnce w =
      (.ok ({ t with rules := some (.ok rules) }, .ok rules), (loadRules t.target.location w).2) := by
  unfold rulesOnce
  rw [hnone, ← hload]
  rfl

theorem ask_apply (hrules : t.rulesOnce w = (.ok (t', .ok rules), w')) (relative : Text) :
    t.ask relative w = (.ok (t', if Ignore.isNotRelative relative then .error (.notRelative relative)
      else .ok (rules.ignores relative)), w') := by
  unfold ask
  rw [Action.bind_of_ok hrules]
  dsimp only
  split <;> rfl

section Absolute

variable (habsolute : Path.isAbsolute t.target.location = true)
include habsolute

theorem pathBelow?_eq (cwd : Path) (path : Text) : pathBelow? cwd t.target.location path =
    if t.wayTo path = [] ∨ Path.dots <+: t.wayTo path ∨ Path.isAbsolute (t.wayTo path) = true then none
    else some (t.wayTo path) := by
  have hroot : Path.resolve cwd t.target.location = t.root := by
    rw [root, Path.resolve_of_absolute habsolute, Path.resolve_of_absolute habsolute]
  have hway : (if Path.isAbsolute path then
      Path.relative (Path.resolve cwd t.target.location) (Path.resolve cwd path) else path) = t.wayTo path := by
    rw [wayTo, hroot]
    split
    · next h => rw [placeOf, Path.resolve_of_absolute h, Path.resolve_of_absolute h]
    · rfl
  unfold pathBelow?
  rw [hway]
  simp only [Bool.or_eq_true, List.isEmpty_iff, List.isPrefixOf_iff_prefix, or_assoc]

/-- Nothing but the way to a path counts. -/
theorem isIgnoredBy_eq (path : Text) : isIgnoredBy engine t path =
    if t.wayTo path = [] ∨ Path.dots <+: t.wayTo path ∨ Path.isAbsolute (t.wayTo path) = true then
      pure (t, .ok false)
    else engine t (t.wayTo path) := by
  funext w
  have hresolve : Action.resolve [] w = (.ok (w.disk.resolve []), w) := rfl
  unfold isIgnoredBy
  rw [Action.bind_of_ok hresolve, pathBelow?_eq habsolute]
  split <;> rfl

theorem isIgnoredBy_of_passed (h : t.wayTo path = [] ∨ Path.dots <+: t.wayTo path) :
    isIgnoredBy engine t path = pure (t, .ok false) := by
  rw [isIgnoredBy_eq habsolute, if_pos (or_assoc.mp (.inl h))]

theorem isIgnoredBy_straight (hbelow : t.LiesBelow path names) (hway : t.wayTo path = textBelow path names)
    (hdots : ¬ Path.dots <+: textBelow path names) :
    isIgnoredBy engine t path = engine t (textBelow path names) := by
  have hname := hbelow.firstSegment.2
  rw [isIgnoredBy_eq habsolute, hway, if_neg]
  rintro (h | h | h)
  · exact Path.ne_nil_of_firstSegment hname h
  · exact hdots h
  · rw [Path.isAbsolute_of_firstSegment hname] at h
    cases h

end Absolute

/-! ## Inside and outside -/

/-- The first name below the repository begins with two dots. -/
def IsDotted (names : List Text) : Prop := ∃ name ∈ names.head?, Path.dots <+: name

instance (names : List Text) : Decidable (IsDotted names) :=
  inferInstanceAs (Decidable (∃ name ∈ names.head?, _))

/-- How a path is answered for, whatever an engine of rules tells of the paths below the repository. -/
structure AsksBelow (engine : Tracker → Text → Action (Tracker × Except Failure Bool)) (t : Tracker)
    (path : Text) : Prop where
  /-- What lies strictly below is asked for by its names, and rules that could be read have an answer. -/
  below : ∀ names, t.LiesBelow path names → ¬ Path.StartsUp path → ¬ IsDotted names →
    isIgnoredBy engine t path = engine t (textBelow path names) ∧
      ∀ {t' rules w w'}, t.rulesOnce w = (.ok (t', .ok rules), w') →
        t.isIgnored path w = (.ok (t', .ok (rules.ignores (textBelow path names))), w')
  /-- The repository itself and what lies outside is not asked for. -/
  elsewhere : (∀ names, ¬ t.LiesBelow path names) → path ≠ Path.dot → path ≠ Path.dot ++ ['/'] →
    isIgnoredBy engine t path = pure (t, .ok false)
  /-- A file has the same answer under every absolute path. -/
  alike : ∀ names, t.LiesBelow path names → ¬ Path.StartsUp path → path.getLast? ≠ some '/' →
    ∀ other, Path.isAbsolute other = true → t.placeOf other = t.placeOf path →
      isIgnoredBy engine t other = isIgnoredBy engine t path
  /-- Where two dots come first, what lies below is taken to lie outside. -/
  overlooked : ∀ names, t.LiesBelow path names → Path.StartsUp path ∨ IsDotted names →
    isIgnoredBy engine t path = pure (t, .ok false)
  /-- A dot names the repository and is asked for all the same, but rules have no answer to it. -/
  itself : path = Path.dot ∨ path = Path.dot ++ ['/'] →
    isIgnoredBy engine t path = engine t path ∧
      ∀ {t' rules w w'}, t.rulesOnce w = (.ok (t', .ok rules), w') →
        t.isIgnored path w = (.ok (t', .error (.notRelative path)), w')

section Absolute

variable (habsolute : Path.isAbsolute t.target.location = true)
include habsolute

theorem asksBelow_of_straight (hbelow : t.LiesBelow path names) (hup : ¬ Path.StartsUp path)
    (hway : t.wayTo path = textBelow path names) : AsksBelow engine t path := by
  obtain ⟨hhead, hname⟩ := hbelow.firstSegment
  refine ⟨?below, ?elsewhere, ?alike, ?overlooked, ?itself⟩
  case below =>
    intro others hothers _ hdotted
    obtain rfl := hbelow.unique hothers
    have hdots : ¬ Path.dots <+: textBelow path others := fun h =>
      hdotted ⟨_, hhead, (Path.dots_prefix_iff _).mp h⟩
    have hasked {engine} : isIgnoredBy engine t path = engine t (textBelow path others) :=
      isIgnoredBy_straight habsolute hbelow hway hdots
    refine ⟨hasked, fun hrules => ?_⟩
    rw [isIgnored, hasked, ask_apply hrules, Ignore.isNotRelative_of_firstSegment hname hdots]
    rfl
  case elsewhere => exact fun hnone => absurd hbelow (hnone names)
  case alike =>
    intro _ _ _ hslash other hother hplace
    have hsame : t.wayTo other = t.wayTo path := by
      rw [hway, wayTo, if_pos hother, hplace, hbelow.2, Path.relative_append, textBelow, Path.endingSlash,
        if_neg hslash, ite_self, List.append_nil]
    rw [isIgnoredBy_eq habsolute, isIgnoredBy_eq habsolute, hsame]
  case overlooked =>
    intro others hothers hdots
    obtain rfl := hbelow.unique hothers
    obtain ⟨name, hfirst, hname⟩ := hdots.resolve_left hup
    obtain rfl := Option.some.inj (hhead.symm.trans hfirst)
    exact isIgnoredBy_of_passed habsolute (.inr (hway ▸ (Path.dots_prefix_iff _).mpr hname))
  case itself =>
    rintro (rfl | rfl)
    · exact absurd hbelow (not_liesBelow_of_root rfl names)
    · exact absurd hbelow (not_liesBelow_of_root rfl names)

theorem asksBelow_of_passed (hlies : (∀ names, ¬ t.LiesBelow path names) ∨ Path.StartsUp path)
    (hpassed : t.wayTo path = [] ∨ Path.dots <+: t.wayTo path) : AsksBelow engine t path where
  below names hnames hup := absurd hlies (not_or.mpr ⟨fun hnone => hnone names hnames, hup⟩)
  elsewhere _ _ _ := isIgnoredBy_of_passed habsolute hpassed
  alike names hnames hup := absurd hlies (not_or.mpr ⟨fun hnone => hnone names hnames, hup⟩)
  overlooked _ _ _ := isIgnoredBy_of_passed habsolute hpassed
  itself hdot := by
    rw [wayTo_of_dot hdot] at hpassed
    rcases hdot with rfl | rfl
    · exact absurd hpassed (by decide)
    · exact absurd hpassed (by decide)

theorem asksBelow_of_dot (hdot : path = Path.dot ∨ path = Path.dot ++ ['/']) :
    AsksBelow engine t path := by
  have hroot : t.placeOf path = t.root := by rcases hdot with rfl | rfl <;> rfl
  have hnone := not_liesBelow_of_root hroot
  have hasked {engine} : isIgnoredBy engine t path = engine t path := by
    rw [isIgnoredBy_eq habsolute, wayTo_of_dot hdot, if_neg]
    rcases hdot with rfl | rfl <;> decide
  have hrefused : Ignore.isNotRelative path = true := by rcases hdot with rfl | rfl <;> rfl
  refine ⟨?below, ?elsewhere, ?alike, ?overlooked, ?itself⟩
  case below => exact fun names hnames => absurd hnames (hnone names)
  case elsewhere => exact fun _ hne hne' => absurd hdot (not_or.mpr ⟨hne, hne'⟩)
  case alike => exact fun names hnames => absurd hnames (hnone names)
  case overlooked => exact fun names hnames => absurd hnames (hnone names)
  case itself =>
    refine fun _ => ⟨hasked, fun hrules => ?_⟩
    rw [isIgnored, hasked, ask_apply hrules, hrefused]
    rfl

end Absolute

/-- An engine is asked for what lies strictly below the repository, unless two dots come first in the path or in the
names, and for the dot that names the repository. Nothing else is ignored. -/
theorem asks_below (engine : Tracker → Text → Action (Tracker × Except Failure Bool))
    (habsolute : Path.isAbsolute t.target.location = true)
    (hnormal : path = [] ∨ Path.normalize path = path) : AsksBelow engine t path := by
  cases t.leads hnormal with
  | straight names hbelow hup hway => exact asksBelow_of_straight habsolute hbelow hup hway
  | passed hlies hpassed => exact asksBelow_of_passed habsolute hlies hpassed
  | dot hdot => exact asksBelow_of_dot habsolute hdot

/-! ## Files of an editor -/

/-- A repository that ignores the files of an editor. -/
def swapTracker : Tracker where
  target := ⟨"gentoo".toList, "/srv/../repo/".toList, [], []⟩
  settings := { cacheDir := "/c".toList }

def swapWorld : World where
  git := ⟨fun _ _ => .ok [], fun _ _ => ⟨[], none⟩, true⟩
  disk := (Disk.empty []).put ["repo".toList, ".gitignore".toList] (.file "*.swp\n".toList false)
  stamp := "1".toList

def swapFile : Text := "cat/.notes.swp".toList
def dottedFile : Text := "..notes.swp".toList

theorem rulesOnce_swapWorld : ∃ t' rules w',
    swapTracker.rulesOnce swapWorld = (.ok (t', .ok rules), w') ∧
      rules.ignores swapFile = true ∧ rules.ignores dottedFile = true := by
  have hignores : ((loadRules swapTracker.target.location swapWorld).1.toOption.map fun rules =>
      (rules.ignores swapFile, rules.ignores dottedFile)) = some (true, true) := by decide +kernel
  obtain ⟨rules, hload, hboth⟩ := Option.map_eq_some_iff.mp hignores
  obtain ⟨hswap, hdotted⟩ := Prod.mk.inj hboth
  exact ⟨_, rules, _, rulesOnce_of_load rfl (toOption_eq_some_iff.mp hload), hswap, hdotted⟩

/-- A file in a folder of the repository is ignored under both of its paths, and one is not that is in a folder
beside the repository with a longer name. -/
theorem asks_below_swapFiles :
    let beside := "/repository/notes.swp".toList
    Path.isAbsolute swapTracker.target.location = true ∧
      Path.normalize swapFile = swapFile ∧ Path.normalize beside = beside ∧
      (∃ t' w', swapTracker.isIgnored swapFile swapWorld = (.ok (t', .ok true), w') ∧
        swapTracker.isIgnored ("/repo/".toList ++ swapFile) swapWorld = (.ok (t', .ok true), w')) ∧
      swapTracker.isIgnored beside swapWorld = (.ok (swapTracker, .ok false), swapWorld) := by
  intro beside
  have habsolute : Path.isAbsolute swapTracker.target.location = true := rfl
  have hnormal : Path.normalize swapFile = swapFile := by decide +kernel
  have hbeside : Path.normalize beside = beside := by decide +kernel
  refine ⟨habsolute, hnormal, hbeside, ?below, ?beside⟩
  case below =>
    have hasks := asks_below ask habsolute (.inr hnormal)
    have hlies : swapTracker.LiesBelow swapFile ["cat".toList, ".notes.swp".toList] := by decide +kernel
    have hup : ¬ Path.StartsUp swapFile := by decide +kernel
    have hplain : ¬ IsDotted ["cat".toList, ".notes.swp".toList] := by decide +kernel
    obtain ⟨t', rules, w', hrules, hswap, -⟩ := rulesOnce_swapWorld
    have hanswer := (hasks.below _ hlies hup hplain).2 hrules
    have hsame := hasks.alike _ hlies hup (by decide +kernel) ("/repo/".toList ++ swapFile) rfl
      (by decide +kernel)
    have htext : textBelow swapFile ["cat".toList, ".notes.swp".toList] = swapFile := by decide +kernel
    rw [htext, hswap] at hanswer
    exact ⟨t', w', hanswer, (congrFun hsame swapWorld).trans hanswer⟩
  case beside =>
    have hnone : ∀ names, ¬ swapTracker.LiesBelow beside names := by
      rintro names ⟨-, hplace⟩
      have hprefix : swapTracker.root <+: swapTracker.placeOf beside := ⟨names, hplace.symm⟩
      revert hprefix
      decide +kernel
    have hasks := asks_below ask habsolute (.inr hbeside)
    exact congrFun (hasks.elsewhere hnone (by decide +kernel) (by decide +kernel)) swapWorld

/-- The rules ignore a file of the repository whose name begins with two dots, but under no path is it ignored. A
file that is ignored is not under a path that comes back from above. And the dot, which names the repository, has
no answer. -/
theorem overlooks_dottedFile :
    let back := "../repo/".toList ++ swapFile
    (Path.normalize dottedFile = dottedFile ∧ Path.normalize back = back ∧
      Path.normalize Path.dot = Path.dot) ∧
    (swapTracker.LiesBelow dottedFile [dottedFile] ∧
      swapTracker.placeOf back = swapTracker.placeOf swapFile ∧
      swapTracker.placeOf Path.dot = swapTracker.root) ∧
    (∃ t' rules w', swapTracker.rulesOnce swapWorld = (.ok (t', .ok rules), w') ∧
      rules.ignores swapFile = true ∧ rules.ignores dottedFile = true ∧
      swapTracker.isIgnored Path.dot swapWorld = (.ok (t', .error (.notRelative Path.dot)), w')) ∧
    swapTracker.isIgnored dottedFile swapWorld = (.ok (swapTracker, .ok false), swapWorld) ∧
    swapTracker.isIgnored ("/repo/".toList ++ dottedFile) swapWorld =
      (.ok (swapTracker, .ok false), swapWorld) ∧
    swapTracker.isIgnored back swapWorld = (.ok (swapTracker, .ok false), swapWorld) := by
  intro back
  refine ⟨?normal, ?places, ?rules, rfl, rfl, rfl⟩
  case normal => decide +kernel
  case places => decide +kernel
  case rules =>
    obtain ⟨t', rules, w', hrules, hswap, hdotted⟩ := rulesOnce_swapWorld
    exact ⟨t', rules, w', hrules, hswap, hdotted, ask_apply hrules Path.dot⟩

end Tracker

end PackageHistory
