import PackageHistory.Proofs.Merge

/-!
# The latest changes of a range

A merge records each change that no later one repeats, in the order of the log. It makes lists where there
are changes and nowhere else.
-/

namespace PackageHistory

/-! ## Changes that are not repeated -/

namespace Change

/-- The changes of a range, in the order of its log. -/
def ofEntries (isLocal : Bool) (entries : List LogEntry) : List Change :=
  entries.flatMap (ofEntry isLocal)

/-- Whether two changes are of one package version and to one status. -/
def isRepeatedBy (a b : Change) : Bool := a.cpv = b.cpv && a.status = b.status

/-- The changes that no change behind them repeats. -/
def latest : List Change → List Change
  | [] => []
  | x :: rest => if rest.any x.isRepeatedBy then latest rest else x :: latest rest

/-- The changes of a range lie at the places of their commits. -/
theorem exists_entry {isLocal : Bool} {entries : List LogEntry} {commits : List (Commit × List Text)}
    (hentries : entries = LogEntry.enumerate commits) {x : Change} (h : x ∈ ofEntries isLocal entries) :
    ∃ e, entries[x.index]? = some e ∧ x ∈ ofEntry isLocal e ∧ x.commit = e.commit := by
  obtain ⟨e, he, hx⟩ := List.mem_flatMap.mp h
  obtain ⟨hcommit, hindex⟩ := of_mem_ofEntry hx
  refine ⟨e, ?_, hx, hcommit⟩
  subst hentries
  rw [LogEntry.mem_enumerate] at he
  rw [hindex, LogEntry.enumerate, List.getElem?_map, List.getElem?_zipIdx, he]
  simp [LogEntry.content]

theorem isRepeatedBy_iff {c p : Text} {s : Status} {x y : Change} (hx : x.isAt c p s = true) :
    x.isRepeatedBy y = true ↔ y.isAt c p s = true ∧ y.cpv.fullver = x.cpv.fullver := by
  obtain ⟨rfl, rfl, rfl⟩ := isAt_iff.mp hx
  simp only [isRepeatedBy, Bool.and_eq_true, decide_eq_true_eq, isAt_iff]
  constructor
  · rintro ⟨hcpv, hstatus⟩
    rw [hcpv, hstatus]
    exact ⟨⟨rfl, rfl, rfl⟩, rfl⟩
  · rintro ⟨⟨hc, hp, hs⟩, hversion⟩
    exact ⟨(Cpv.eq_of_parts hc hp hversion).symm, hs.symm⟩

theorem lastOfEach_map {c p : Text} {s : Status} {f : Change → Record}
    (hf : ∀ x, (f x).version = x.cpv.fullver) (changes : List Change) :
    lastOfEach ((changes.filter (·.isAt c p s)).map f) =
      ((latest changes).filter (·.isAt c p s)).map f := by
  induction changes with
  | nil => rfl
  | cons x rest ih =>
    unfold latest
    by_cases hx : x.isAt c p s = true
    · have hagain : (f x).version ∈ ((rest.filter (·.isAt c p s)).map f).map Record.version ↔
          rest.any x.isRepeatedBy = true := by
        simp [hf, isRepeatedBy_iff hx, and_assoc]
      rw [List.filter_cons_of_pos hx, List.map_cons, lastOfEach_cons, ih]
      split
      · next h => rw [if_pos (hagain.mp h)]
      · next h => rw [if_neg (mt hagain.mpr h), List.filter_cons_of_pos hx, List.map_cons]
    · rw [List.filter_cons_of_neg hx, ih]
      split
      · rfl
      · rw [List.filter_cons_of_neg hx]

end Change

/-! ## The lists of a merged history -/

namespace History

variable (isLocal : Bool) (h : History) (entries : List LogEntry)

theorem numbered_eq : h.numbered isLocal entries =
    (Change.ofEntries isLocal entries).map fun x => (h.seqOf x.index, x) := by
  rw [numbered, Change.ofEntries, List.map_flatMap]
  congr 1
  funext e
  apply List.map_congr_left
  intro x hx
  rw [(Change.of_mem_ofEntry hx).2]

theorem recordsAt_eq (c p : Text) (s : Status) : h.recordsAt isLocal entries c p s =
    ((Change.ofEntries isLocal entries).filter (·.isAt c p s)).map fun x =>
      recordOf isLocal (h.seqOf x.index) x := by
  rw [recordsAt, numbered_eq, List.filter_map, List.map_map]
  rfl

theorem list_merge_latest (c p : Text) (s : Status) :
    (h.merge isLocal entries).records.list c p s = h.records.list c p s ++
      ((Change.latest (Change.ofEntries isLocal entries)).filter (·.isAt c p s)).map fun x =>
        recordOf isLocal (h.seqOf x.index) x := by
  rw [list_merge, recordsAt_eq, Change.lastOfEach_map fun _ => rfl]

end History

/-! ## The places of a merged history -/

namespace History

variable (isLocal : Bool) (h : History) (entries : List LogEntry)

/-- What holds after a step when it held before or the step brings it holds after a run when it held at the
start or one of the steps brings it. -/
theorem foldl_iff {α β : Type} {step : β → α → β} {P : β → Prop} {Q : α → Prop}
    (hstep : ∀ b x, P (step b x) ↔ P b ∨ Q x) (xs : List α) (b : β) :
    P (xs.foldl step b) ↔ P b ∨ ∃ x ∈ xs, Q x := by
  induction xs generalizing b with
  | nil => simp
  | cons x rest ih =>
    rw [List.foldl_cons, ih, hstep]
    simp only [List.mem_cons, exists_eq_or_imp, or_assoc]

theorem hasCategory_merge (c : Text) :
    ((h.merge isLocal entries).records.get? c).isSome ↔ (h.records.get? c).isSome ∨
      ∃ x ∈ Change.ofEntries isLocal entries, x.cpv.category = c := by
  have hshape (t : Tree Record) : (t.shape.get? c).isSome = (t.get? c).isSome := by simp [Tree.shape]
  rw [← hshape, ← hshape, shape_merge]
  refine foldl_iff (P := fun t : Tree Unit => (t.get? c).isSome) (fun t x => ?_) _ _
  rw [t.isSome_get?_alter, eq_comm (a := c)]

theorem hasPackage_merge (c p : Text) :
    ((h.merge isLocal entries).records.statuses? c p).isSome ↔ (h.records.statuses? c p).isSome ∨
      ∃ x ∈ Change.ofEntries isLocal entries, x.cpv.category = c ∧ x.cpv.package = p := by
  have hshape (t : Tree Record) : (t.shape.statuses? c p).isSome = (t.statuses? c p).isSome := by
    rw [Tree.statuses?_shape, Option.isSome_map]
  rw [← hshape, ← hshape, shape_merge]
  refine foldl_iff (P := fun t : Tree Unit => (t.statuses? c p).isSome) (fun t x => ?_) _ _
  rw [t.isSome_statuses?_alter, Prod.mk.injEq, eq_comm (a := c), eq_comm (a := p)]

theorem hasList_merge (c p : Text) (s : Status) :
    (((h.merge isLocal entries).records.statuses? c p).bind (·.get? s)).isSome ↔
      ((h.records.statuses? c p).bind (·.get? s)).isSome ∨
        ∃ x ∈ Change.ofEntries isLocal entries, x.isAt c p s = true := by
  have hshape (t : Tree Record) : ((t.shape.statuses? c p).bind (·.get? s)).isSome =
      ((t.statuses? c p).bind (·.get? s)).isSome := by
    rw [Tree.statuses?_shape]
    cases t.statuses? c p <;> simp
  rw [← hshape, ← hshape, shape_merge]
  refine foldl_iff (P := fun t : Tree Unit => ((t.statuses? c p).bind (·.get? s)).isSome) (fun t x => ?_) _ _
  rw [t.isSome_list?_alter, eq_comm (a := (c, p, s)), Change.isAt, decide_eq_true_eq]

end History

end PackageHistory
