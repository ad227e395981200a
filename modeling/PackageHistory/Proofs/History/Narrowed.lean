import PackageHistory.Proofs.Atom
import PackageHistory.Proofs.History.Scan

/-!
# Queries with further restrictions

A category or a package that is added to a query leaves out what does not fit. An atom does so too where it is of the
category and the package that are given; where it is not, it takes their place.
-/

namespace PackageHistory

/-! ## Restrictions -/

inductive Restriction where
  | category (c : Text)
  | package (p : Text)
  | atom (a : Atom)

namespace Query

variable {q : Query} {r : Restriction} {x : Cpv}

def LeavesOpen (q : Query) : Restriction → Prop
  | .category _ => q.category = none
  | .package _ => q.package = none
  | .atom _ => q.atom = none

def narrow (q : Query) : Restriction → Query
  | .category c => { q with category := some c }
  | .package p => { q with package := some p }
  | .atom a => { q with atom := some a }

/-- A package version fits all that a query names. -/
structure Fits (q : Query) (x : Cpv) : Prop where
  category : ∀ c, q.category = some c → x.category = c
  package : ∀ p, q.package = some p → x.package = p
  atom : ∀ a, q.atom = some a → a.isMatch x = true

/-- The atom is of the category and the package that are given with it. -/
structure IsConsistent (q : Query) : Prop where
  category : ∀ a c, q.atom = some a → q.category = some c → a.category = c
  package : ∀ a p, q.atom = some a → q.package = some p → a.package = p

theorem accepts_of_atom {a : Atom} (h : q.atom = some a) : q.accepts x = a.isMatch x := by
  rw [accepts, h]

theorem accepts_of_no_atom (h : q.atom = none) : q.accepts x = true ↔
    (∀ c, q.category = some c → x.category = c) ∧ ∀ p, q.package = some p → x.package = p := by
  rw [accepts, h]
  simp [Option.all_eq_true]

theorem isConsistent_of_no_atom (h : q.atom = none) : q.IsConsistent := by
  constructor <;> simp [h]

/-- What is accepted fits all that is named just where the atom does not contradict the rest. -/
theorem fits_iff : q.Fits x ↔ q.accepts x = true ∧ q.IsConsistent := by
  cases ha : q.atom with
  | none =>
    rw [accepts_of_no_atom ha, and_iff_left (isConsistent_of_no_atom ha)]
    exact ⟨fun h => ⟨h.category, h.package⟩, fun h => ⟨h.1, h.2, by simp [ha]⟩⟩
  | some a =>
    rw [accepts_of_atom ha]
    constructor
    · intro h
      have hmatch := h.atom a ha
      obtain ⟨hc, hp, -⟩ := Atom.isMatch_iff.mp hmatch
      refine ⟨hmatch, ?_, ?_⟩
      · intro b c hb hgiven
        rw [ha, Option.some.injEq] at hb
        rw [← hb, hc, h.category c hgiven]
      · intro b p hb hgiven
        rw [ha, Option.some.injEq] at hb
        rw [← hb, hp, h.package p hgiven]
    · rintro ⟨hmatch, hconsistent⟩
      obtain ⟨hc, hp, -⟩ := Atom.isMatch_iff.mp hmatch
      refine ⟨?_, ?_, ?_⟩
      · intro c hgiven
        rw [← hc, hconsistent.category a c ha hgiven]
      · intro p hgiven
        rw [← hp, hconsistent.package a p ha hgiven]
      · intro b hb
        rw [ha, Option.some.injEq] at hb
        rwa [← hb]

/-- What fits a query still fits it without the restriction. -/
theorem Fits.of_narrow (h : (q.narrow r).Fits x) (hopen : q.LeavesOpen r) : q.Fits x := by
  cases r with
  | category c =>
    refine ⟨fun c' hc' => ?_, h.package, h.atom⟩
    rw [LeavesOpen, hc'] at hopen
    cases hopen
  | package p =>
    refine ⟨h.category, fun p' hp' => ?_, h.atom⟩
    rw [LeavesOpen, hp'] at hopen
    cases hopen
  | atom a =>
    refine ⟨h.category, h.package, fun a' ha' => ?_⟩
    rw [LeavesOpen, ha'] at hopen
    cases hopen

/-- A restriction beside an atom changes nothing. -/
theorem accepts_narrow (hopen : q.LeavesOpen r) (hatom : q.atom ≠ none) :
    (q.narrow r).accepts x = q.accepts x := by
  have hsame : (q.narrow r).atom = q.atom := by
    cases r with
    | category c => rfl
    | package p => rfl
    | atom a => exact absurd hopen hatom
  obtain ⟨a, ha⟩ := Option.ne_none_iff_exists'.mp hatom
  rw [accepts_of_atom (hsame.trans ha), accepts_of_atom ha]

/-- What a query without an atom accepts fits it, also with a restriction that is met. -/
theorem fits_narrow (hatom : q.atom = none) (h : q.accepts x = true)
    (hnarrow : (q.narrow r).accepts x = true) : (q.narrow r).Fits x := by
  cases r with
  | category c => exact fits_iff.mpr ⟨hnarrow, isConsistent_of_no_atom hatom⟩
  | package p => exact fits_iff.mpr ⟨hnarrow, isConsistent_of_no_atom hatom⟩
  | atom a =>
    have hfits : q.Fits x := fits_iff.mpr ⟨h, isConsistent_of_no_atom hatom⟩
    refine ⟨hfits.category, hfits.package, fun b hb => ?_⟩
    rwa [accepts_of_atom hb] at hnarrow

end Query

/-! ## Answers to restricted queries -/

namespace History

variable {h : History} {q : Query} {v : View} {id : Text} {r : Restriction} {x : HistoricalPackage}

/-- A query whose packages are accepted by another one of its order answers a part of what that one does. -/
theorem query_sublist {q' : Query} (hsort : q'.sort = q.sort)
    (haccepts : ∀ x ∈ h.query v id q', q.accepts x.cpv = true) :
    (h.query v id q').Sublist (h.query v id q) := by
  have hpart : h.query v id q' = (h.query v id q).filter fun x => q'.accepts x.cpv := by
    calc h.query v id q'
      _ = (h.query v id q').filter fun x => q.accepts x.cpv :=
        (List.filter_eq_self.mpr haccepts).symm
      _ = (h.query v id q).filter fun x => q'.accepts x.cpv := by
        rw [query_eq_filter h v id q', query_eq_filter h v id q, hsort, List.filter_filter,
          List.filter_filter]
        exact List.filter_congr fun x _ => Bool.and_comm _ _
  rw [hpart]
  exact List.filter_sublist

theorem fits_of_narrow_iff :
    (∀ x ∈ h.query v id q, q.Fits x.cpv) ↔ q.IsConsistent ∨ h.query v id q = [] := by
  constructor
  · intro hfits
    cases hfound : h.query v id q with
    | nil => exact .inr rfl
    | cons x rest =>
      have hx : x ∈ h.query v id q := by simp [hfound]
      exact .inl (Query.fits_iff.mp (hfits x hx)).2
  · rintro (hconsistent | hnone) x hx
    · exact Query.fits_iff.mpr ⟨(mem_query_accepts.mp hx).2, hconsistent⟩
    · rw [hnone] at hx
      cases hx

theorem sublist_narrow_iff (hopen : q.LeavesOpen r) :
    (h.query v id (q.narrow r)).Sublist (h.query v id q) ↔
      (q.narrow r).IsConsistent ∨ q.atom ≠ none ∨ h.query v id (q.narrow r) = [] := by
  have hsort : (q.narrow r).sort = q.sort := by cases r <;> rfl
  constructor
  · intro hsublist
    cases hatom : q.atom with
    | some a => exact .inr (.inl nofun)
    | none =>
      cases hfound : h.query v id (q.narrow r) with
      | nil => exact .inr (.inr rfl)
      | cons x rest =>
        have hx : x ∈ h.query v id (q.narrow r) := by simp [hfound]
        have hwide := (mem_query_accepts.mp (hsublist.subset hx)).2
        have hnarrow := (mem_query_accepts.mp hx).2
        exact .inl (Query.fits_iff.mp (Query.fits_narrow hatom hwide hnarrow)).2
  · rintro (hconsistent | hatom | hnone)
    · apply query_sublist hsort
      intro x hx
      have hfits := fits_of_narrow_iff.mpr (.inl hconsistent) x hx
      exact (Query.fits_iff.mp (hfits.of_narrow hopen)).1
    · apply query_sublist hsort
      intro x hx
      rw [← Query.accepts_narrow hopen hatom]
      exact (mem_query_accepts.mp hx).2
    · rw [hnone]
      exact List.nil_sublist _

end History

/-- A further restriction only leaves packages out, and all that are left fit, unless it is an atom beside a category
or a package that it is not of. -/
theorem HistoryRepo.query_narrow (id : Text) (v : View) (h : History) (q : Query) (r : Restriction)
    (hopen : q.LeavesOpen r) :
    ∃ wide narrowed, HistoryRepo.query ⟨id, v.name, h⟩ q = .ok wide ∧
      HistoryRepo.query ⟨id, v.name, h⟩ (q.narrow r) = .ok narrowed ∧
      (narrowed.Sublist wide ↔ (q.narrow r).IsConsistent ∨ q.atom ≠ none ∨ narrowed = []) ∧
      ((∀ x ∈ narrowed, (q.narrow r).Fits x.cpv) ↔ (q.narrow r).IsConsistent ∨ narrowed = []) :=
  ⟨_, _, query_view id v h q, query_view id v h (q.narrow r), History.sublist_narrow_iff hopen,
    History.fits_of_narrow_iff⟩

/-! ## Atoms beside a category -/

namespace History

def onePackage : History where
  commitCount := 1
  records := .ofList [("app-misc".toList, .ofList [("foo".toList, .ofList
    [(.added, [⟨"1".toList, "2024-01-01".toList, 0, .hash "c0".toList, none⟩])])])]

def foo : Atom := ⟨"app-misc".toList, "foo".toList, none⟩

def inCategory (c : String) : Query := { category := some c.toList }

theorem query_narrow_onePackage : (inCategory "app-misc").LeavesOpen (.atom foo) ∧
    ∃ wide narrowed,
      HistoryRepo.query ⟨[], View.changed.name, onePackage⟩ (inCategory "app-misc") = .ok wide ∧
      HistoryRepo.query ⟨[], View.changed.name, onePackage⟩
        ((inCategory "app-misc").narrow (.atom foo)) = .ok narrowed ∧
      narrowed.Sublist wide ∧
      ∀ x ∈ narrowed, ((inCategory "app-misc").narrow (.atom foo)).Fits x.cpv := by
  have hconsistent : ((inCategory "app-misc").narrow (.atom foo)).IsConsistent := by
    constructor
    · intro a c ha hc
      cases ha
      cases hc
      rfl
    · nofun
  obtain ⟨wide, narrowed, hwide, hnarrowed, hsublist, hfits⟩ :=
    HistoryRepo.query_narrow [] .changed onePackage (inCategory "app-misc") (.atom foo) rfl
  exact ⟨rfl, wide, narrowed, hwide, hnarrowed, hsublist.mpr (.inl hconsistent),
    hfits.mpr (.inl hconsistent)⟩

/-- An atom brings in a package that is not of the category. -/
theorem query_narrow_otherCategory : (inCategory "dev-lang").LeavesOpen (.atom foo) ∧
    ∃ wide narrowed,
      HistoryRepo.query ⟨[], View.changed.name, onePackage⟩ (inCategory "dev-lang") = .ok wide ∧
      HistoryRepo.query ⟨[], View.changed.name, onePackage⟩
        ((inCategory "dev-lang").narrow (.atom foo)) = .ok narrowed ∧
      ¬ narrowed.Sublist wide ∧
      ¬ ∀ x ∈ narrowed, ((inCategory "dev-lang").narrow (.atom foo)).Fits x.cpv := by
  let found : HistoricalPackage :=
    ⟨⟨"app-misc".toList, "foo".toList, "1".toList, by decide, by decide +kernel, by decide⟩, .added,
      "2024-01-01".toList, 0, .hash "c0".toList, [], []⟩
  have hwide : onePackage.query .changed [] (inCategory "dev-lang") = [] := query_of_ordered rfl .nil
  have hnarrowed : onePackage.query .changed [] ((inCategory "dev-lang").narrow (.atom foo)) =
      [found] := query_of_ordered (by decide +kernel) (List.pairwise_singleton _ _)
  refine ⟨rfl, [], [found], ?_, ?_, by simp, fun hfits => ?_⟩
  · rw [← hwide]
    exact HistoryRepo.query_view [] .changed onePackage _
  · rw [← hnarrowed]
    exact HistoryRepo.query_view [] .changed onePackage _
  · have hcategory := (hfits found List.mem_cons_self).category "dev-lang".toList rfl
    exact absurd hcategory (by decide)

end History

end PackageHistory
