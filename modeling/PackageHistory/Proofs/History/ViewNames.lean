import PackageHistory.Proofs.History.Several

/-!
# Names that pass for views

The four view names are accepted, and so is every reserved name. A repository with the name of a view answers
whatever it is asked. One with a reserved name shows nothing, and fails at the first package with a status.
-/

namespace PackageHistory

/-! ## Accepted names -/

theorem View.ofName?_eq_some_iff {t : Text} {v : View} : ofName? t = some v ↔ t = v.name := by
  constructor
  · intro h
    have hname := List.find?_some h
    exact (of_decide_eq_true hname).symm
  · rintro rfl
    cases v <;> rfl

namespace Selector

variable {t : Text}

theorem ofName_name (v : View) : ofName v.name = .view v := by
  rw [ofName, View.ofName?_eq_some_iff.mpr rfl]

theorem ofName_of_reserved (h : t ∈ reservedNames) : ofName t = .reserved := by
  have hnames : ∀ t ∈ reservedNames, ofName t = .reserved := by decide
  exact hnames t h

theorem accepts_iff : accepts t = true ↔ (∃ v : View, t = v.name) ∨ t ∈ reservedNames := by
  constructor
  · intro h
    rw [accepts, bne_iff_ne, ofName] at h
    split at h
    next v hv => exact .inl ⟨v, View.ofName?_eq_some_iff.mp hv⟩
    next =>
      split at h
      next hreserved => exact .inr (List.contains_iff_mem.mp hreserved)
      next => exact absurd rfl h
  · rintro (⟨v, rfl⟩ | hreserved)
    · rw [accepts, ofName_name]
      rfl
    · rw [accepts, ofName_of_reserved hreserved]
      rfl

theorem failure?_reserved_eq_some_iff {statuses : OrderedMap Status (List Record)} {e : Failure} :
    reserved.failure? statuses = some e ↔ statuses.isEmpty = false ∧ e = .missing "has".toList := by
  rw [failure?]
  cases statuses.isEmpty <;> simp [eq_comm]

end Selector

/-! ## What a repository answers behind a name -/

/-- A place with a status, whether or not any record is kept under it. -/
def History.HasStatus (h : History) (c p : Text) : Prop :=
  ∃ statuses, h.records.statuses? c p = some statuses ∧ statuses.isEmpty = false

theorem History.exists_hasStatus_iff {h : History} {c : Text} :
    (∃ p, h.HasStatus c p) ↔ ∃ packages, h.records.get? c = some packages ∧
      ∃ statuses ∈ packages.entries.map Prod.snd, statuses.isEmpty = false := by
  constructor
  · rintro ⟨p, statuses, hstatuses, hstatus⟩
    obtain ⟨packages, hc, hp⟩ := Option.bind_eq_some_iff.mp hstatuses
    rw [← OrderedMap.mem_entries_iff] at hp
    exact ⟨packages, hc, statuses, List.mem_map.mpr ⟨_, hp, rfl⟩, hstatus⟩
  · rintro ⟨packages, hc, statuses, hmem, hstatus⟩
    obtain ⟨⟨p, _⟩, hp, rfl⟩ := List.mem_map.mp hmem
    rw [OrderedMap.mem_entries_iff] at hp
    exact ⟨p, _, Option.bind_eq_some_iff.mpr ⟨packages, hc, hp⟩, hstatus⟩

/-- An answer that fails for want of a filter where there is something to be filtered, and is empty elsewhere. -/
def FailsWhere {α : Type} (isThere : Prop) (answer : Except Failure (List α)) : Prop :=
  (isThere → answer = .error (.missing "has".toList)) ∧ (¬ isThere → answer = .ok [])

namespace HistoryRepo

variable {r : HistoryRepo}

/-- Every question is answered, with packages of the given statuses. To go through all packages is the query without
restrictions. -/
structure Answers (r : HistoryRepo) (statuses : List Status) : Prop where
  categories : ∃ names, r.categories = .ok names
  packages : ∀ c, ∃ names, r.packages c = .ok names
  query : ∀ q, ∃ found, r.query q = .ok found ∧ ∀ x ∈ found, x.status ∈ statuses

/-- Questions fail at the first place with a status that they look at. -/
structure FailsAtStatus (r : HistoryRepo) : Prop where
  categories : FailsWhere (∃ c p, r.history.HasStatus c p) r.categories
  packages : ∀ c, FailsWhere (∃ p, r.history.HasStatus c p) (r.packages c)
  query : ∀ q, FailsWhere (∃ c p, History.IsWanted q c p ∧ r.history.HasStatus c p) (r.query q)

theorem answers_of_view (id : Text) (v : View) (h : History) :
    (HistoryRepo.mk id v.name h).Answers v.statuses where
  categories := ⟨_, categories_of_view ⟨v, rfl⟩⟩
  packages c := ⟨_, packages_of_view ⟨v, rfl⟩ c⟩
  query q := by
    refine ⟨_, query_view id v h q, fun x hx => ?_⟩
    obtain ⟨-, c, p, statuses, s, record, -, -, hselect, hforms⟩ := History.mem_query.mp hx
    rw [(HistoricalPackage.of_ofRecord hforms).2.2.2]
    exact (View.mem_select.mp hselect).2

section Reserved

variable (hname : r.viewName ∈ reservedNames)
include hname

theorem answer_of_reserved {α : Type} {lookedAt : List (OrderedMap Status (List Record))}
    {ask : View → List α} {isThere : Prop}
    (hiff : (∃ statuses ∈ lookedAt, statuses.isEmpty = false) ↔ isThere) :
    FailsWhere isThere (r.answer lookedAt ask []) := by
  have hselector : r.selector = .reserved := Selector.ofName_of_reserved hname
  cases hfound : lookedAt.findSome? Selector.reserved.failure? with
  | none =>
    have hanswer : r.answer lookedAt ask [] = .ok [] := by simp only [answer, hselector, hfound]
    refine ⟨fun hthere => ?_, fun _ => hanswer⟩
    obtain ⟨statuses, hmem, hstatus⟩ := hiff.mpr hthere
    have hnone := List.findSome?_eq_none_iff.mp hfound statuses hmem
    rw [Selector.failure?_reserved_eq_some_iff.mpr ⟨hstatus, rfl⟩] at hnone
    cases hnone
  | some e =>
    have hanswer : r.answer lookedAt ask [] = .error e := by simp only [answer, hselector, hfound]
    obtain ⟨statuses, hmem, hfailure⟩ := List.exists_of_findSome?_eq_some hfound
    obtain ⟨hstatus, rfl⟩ := Selector.failure?_reserved_eq_some_iff.mp hfailure
    exact ⟨fun _ => hanswer, fun hnowhere => absurd (hiff.mp ⟨statuses, hmem, hstatus⟩) hnowhere⟩

theorem failsAtStatus_of_reserved : r.FailsAtStatus where
  categories := by
    refine answer_of_reserved hname ?_
    simp only [History.exists_hasStatus_iff, List.mem_flatMap]
    constructor
    · rintro ⟨statuses, ⟨⟨c, packages⟩, hc, hmem⟩, hstatus⟩
      exact ⟨c, packages, OrderedMap.mem_entries_iff.mp hc, statuses, hmem, hstatus⟩
    · rintro ⟨c, packages, hc, statuses, hmem, hstatus⟩
      exact ⟨statuses, ⟨(c, packages), OrderedMap.mem_entries_iff.mpr hc, hmem⟩, hstatus⟩
  packages c := by
    refine answer_of_reserved hname ?_
    rw [History.exists_hasStatus_iff]
    cases r.history.records.get? c <;> simp
  query q := by
    refine answer_of_reserved hname ?_
    constructor
    · rintro ⟨statuses, hmem, hstatus⟩
      obtain ⟨⟨c, p, _⟩, hcandidate, rfl⟩ := List.mem_map.mp hmem
      obtain ⟨hstatuses, hwanted⟩ := History.mem_candidates.mp hcandidate
      exact ⟨c, p, hwanted, _, hstatuses, hstatus⟩
    · rintro ⟨c, p, hwanted, statuses, hstatuses, hstatus⟩
      exact ⟨statuses, List.mem_map.mpr ⟨_, History.mem_candidates.mpr ⟨hstatuses, hwanted⟩, rfl⟩, hstatus⟩

end Reserved

/-- What can be asked behind an accepted name: everything if it is the name of a view, and nothing that leads to a
status if it is not. -/
theorem answers_of_accepted {name : Text} (haccepted : Selector.accepts name = true) (id : Text) (h : History) :
    (∃ v : View, name = v.name ∧ (HistoryRepo.mk id name h).Answers v.statuses) ∨
      ((∀ v : View, name ≠ v.name) ∧ (HistoryRepo.mk id name h).FailsAtStatus) := by
  rcases Selector.accepts_iff.mp haccepted with ⟨v, rfl⟩ | hreserved
  · exact .inl ⟨v, rfl, answers_of_view id v h⟩
  · have hnames : ∀ v : View, name ≠ v.name := by
      rintro v rfl
      have hselector := Selector.ofName_name v
      rw [Selector.ofName_of_reserved hreserved] at hselector
      cases hselector
    exact .inr ⟨hnames, failsAtStatus_of_reserved hreserved⟩

/-! ## One package behind two names -/

open AnyRepo (packageA)

theorem answers_added : Selector.accepts "added".toList = true ∧
    (HistoryRepo.mk "gentoo".toList "added".toList packageA).Answers [.added, .renamed] := by
  have haccepted : Selector.accepts "added".toList = true := by decide
  refine ⟨haccepted, ?_⟩
  rcases answers_of_accepted haccepted "gentoo".toList packageA with ⟨v, hname, hanswers⟩ | ⟨hnames, -⟩
  · cases v with
    | added => exact hanswers
    | _ => cases hname
  · exact absurd rfl (hnames .added)

theorem fails_constructor : Selector.accepts "constructor".toList = true ∧
    (HistoryRepo.mk "gentoo".toList "constructor".toList packageA).categories = .error (.missing "has".toList) ∧
    (HistoryRepo.mk "gentoo".toList "constructor".toList packageA).packages "dev-libs".toList =
      .error (.missing "has".toList) ∧
    (HistoryRepo.mk "gentoo".toList "constructor".toList packageA).query {} = .error (.missing "has".toList) :=
  ⟨by decide, rfl, rfl, rfl⟩

end HistoryRepo

end PackageHistory
