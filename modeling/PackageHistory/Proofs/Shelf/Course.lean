import Mathlib.Data.List.Nodup
import Mathlib.Data.List.TakeWhile
import PackageHistory.Proofs.Shelf.Guard
import PackageHistory.Shelf.Run

/-!
# Every order of events

Signals, the end of the scan and the answer to the pop may come in any order that makes sense. However
they come, a run stands where the signals that were heard, the end of the scan and the answer put it.
-/

namespace PackageHistory.Shelf

variable {α : Type}

/-! ## Events -/

namespace Event

def signal? : Event α → Option Signal
  | signal s => some s
  | _ => none

def ending? : Event α → Option (Except Failure α)
  | scanEnds outcome => some outcome
  | _ => none

def answer? : Event α → Option (Except Failure Text)
  | popSettles _ answer => some answer
  | _ => none

variable (events : List (Event α))

/-- How the scan ended, once it has. -/
def ended? : Option (Except Failure α) := events.findSome? ending?

/-- What git answered to the pop, once it has. -/
def answered? : Option (Except Failure Text) := events.findSome? answer?

/-- The signals that came while the scan ran. -/
def delivered : List Signal := (events.takeWhile fun e => e.ending?.isNone).filterMap signal?

/-- A signal is heard by every listener that waits for it. -/
def heard (watched : List Signal) (events : List (Event α)) : List Signal :=
  (delivered events).flatMap fun s => List.replicate (watched.count s) s

/-- A release was asked for. -/
def Releases (watched : List Signal) (events : List (Event α)) : Prop :=
  heard watched events ≠ [] ∨ (ended? events).isSome = true

instance (watched : List Signal) (events : List (Event α)) : Decidable (Releases watched events) :=
  inferInstanceAs (Decidable (_ ∨ _))

variable {events}

theorem ended?_append (e : Event α) :
    ended? (events ++ [e]) = (ended? events).or e.ending? := by
  simp [ended?, List.findSome?_append]

theorem answered?_append (e : Event α) :
    answered? (events ++ [e]) = (answered? events).or e.answer? := by
  simp [answered?, List.findSome?_append]

theorem delivered_of_ended (h : (ended? events).isSome = true) (e : Event α) :
    delivered (events ++ [e]) = delivered events := by
  have hstop : ∃ x ∈ events, x.ending?.isNone = false := by
    obtain ⟨o, ho⟩ := Option.isSome_iff_exists.mp h
    obtain ⟨x, hx, hxo⟩ := List.exists_of_findSome?_eq_some ho
    exact ⟨x, hx, by rw [hxo]; rfl⟩
  unfold delivered
  rw [List.takeWhile_append, if_neg]
  intro hlength
  obtain ⟨x, hx, hnone⟩ := hstop
  have hall := List.takeWhile_eq_self_iff.mp
    ((List.takeWhile_prefix _).eq_of_length hlength) x hx
  rw [hnone] at hall
  cases hall

theorem delivered_of_running (h : ended? events = none) (e : Event α) :
    delivered (events ++ [e]) = delivered events ++ e.signal?.toList := by
  have hall : ∀ x ∈ events, x.ending?.isNone = true := fun x hx => by
    rw [List.findSome?_eq_none_iff.mp h x hx]
    rfl
  unfold delivered
  rw [List.takeWhile_append_of_pos hall, List.takeWhile_eq_self_iff.mpr hall,
    List.filterMap_append]
  cases e <;> rfl

variable {watched : List Signal}

theorem heard_signal (h : ended? events = none) (s : Signal) :
    heard watched (events ++ [.signal s]) =
      heard watched events ++ List.replicate (watched.count s) s := by
  unfold heard
  rw [delivered_of_running h]
  simp [signal?]

/-- Nothing but a signal while the scan runs is heard. -/
theorem heard_of_other {e : Event α} (h : (ended? events).isSome = true ∨ e.signal? = none) :
    heard watched (events ++ [e]) = heard watched events := by
  unfold heard
  cases hended : ended? events with
  | some outcome => rw [delivered_of_ended (by rw [hended]; rfl)]
  | none =>
    rw [delivered_of_running hended, h.resolve_left (by rw [hended]; simp)]
    simp

theorem Releases.append (h : Releases watched events) (e : Event α) :
    Releases watched (events ++ [e]) := by
  cases hended : ended? events with
  | some outcome =>
    refine .inr ?_
    rw [ended?_append, hended]
    rfl
  | none =>
    have hheard : heard watched events ≠ [] := h.resolve_right (by rw [hended]; simp)
    refine .inl ?_
    cases e with
    | signal s =>
      rw [heard_signal hended]
      exact fun hnil => hheard (List.append_eq_nil_iff.mp hnil).1
    | _ =>
      rw [heard_of_other (.inr rfl)]
      exact hheard

/-- Where no signal is listed twice, each one that is delivered is heard once. -/
theorem heard_of_nodup (hnodup : watched.Nodup) (hwatched : ∀ s ∈ delivered events, s ∈ watched) :
    heard watched events = delivered events := by
  have honce : ∀ s ∈ delivered events, List.replicate (watched.count s) s = [s] := fun s hs => by
    rw [List.count_eq_one_of_mem hnodup (hwatched s hs), List.replicate_one]
  rw [heard, List.flatMap_congr honce, List.flatMap_singleton']

theorem releases_signal (h : ended? events = none) (s : Signal) :
    Releases watched (events ++ [.signal s]) ↔ Releases watched events ∨ watched.count s ≠ 0 := by
  unfold Releases
  rw [heard_signal h, ended?_append, h, ne_eq, List.append_eq_nil_iff, List.replicate_eq_nil_iff,
    not_and_or]
  simp [ending?]

theorem releases_scanEnds (outcome : Except Failure α) :
    Releases watched (events ++ [.scanEnds outcome]) := by
  refine .inr ?_
  rw [ended?_append, Option.isSome_or]
  exact Bool.or_true _

end Event

/-! ## Courses -/

namespace Run

/-- What can happen next: a signal at any time, the end of the scan while it runs, the answer to a pop
that was not answered yet. -/
def Allows (r : Run α) : Event α → Prop
  | .signal _ => True
  | .scanEnds _ => r.phase = .scanning
  | .popSettles place _ => r.guard.restores[place]? = some .pending

/-- The runs of an acquired guard, with the events so far and the world they have come to. What starts a
restore asks git for the pop; anything else may change the world too, but pops nothing. -/
inductive Course (g : Guard) (watched : List Signal) (w₀ : World) :
    List (Event α) → Run α → World → Prop where
  | start : Course g watched w₀ [] (Run.start g watched) w₀
  | event {events : List (Event α)} {r : Run α} {w : World} (e : Event α) :
      Course g watched w₀ events r w → r.Allows e →
      Course g watched w₀ (events ++ [e]) (r.step e)
        (Guard.popStarted r.guard (r.step e).guard w).2
  | other {events : List (Event α)} {r : Run α} {w w' : World} :
      Course g watched w₀ events r w → g.pops w' = g.pops w → Course g watched w₀ events r w'

/-! ## Where a run stands -/

/-- The run of a guard in a stage, after some signals were heard and perhaps the scan has ended. -/
def standing (g : Guard) (before : Except Failure Unit) (watched : List Signal) (stage : Stage)
    (heard : List Signal) (ended : Option (Except Failure α)) : Run α where
  guard := g.inStage stage
  phase := match ended, stage.restored? before with
    | none, _ => .scanning
    | some outcome, none => .closing outcome (g.placeIn stage)
    | some outcome, some restored => .done (restored >>= fun _ => outcome)
  listeners := if ended.isNone then watched else []
  waiting := if (stage.restored? before).isNone then heard.map fun s => (s, g.placeIn stage) else []
  exits := if (stage.restored? before).isNone then [] else heard.map exitCode

theorem result?_standing (g : Guard) (before : Except Failure Unit) (watched : List Signal)
    (stage : Stage) (heard : List Signal) (ended : Option (Except Failure α)) :
    (standing g before watched stage heard ended).result? =
      ended.bind fun outcome => (stage.restored? before).map fun restored =>
        restored >>= fun _ => outcome := by
  cases ended with
  | none => rfl
  | some outcome => simp only [standing]; cases stage.restored? before <;> rfl

theorem flushExits_of_pending {r : Run α}
    (h : ∀ x ∈ r.waiting, r.guard.outcome? x.2 = none) : r.flushExits = r := by
  have hnone : r.waiting.filter (fun x => (r.guard.outcome? x.2).isSome) = [] := by
    rw [List.filter_eq_nil_iff]
    intro x hx
    simp [h x hx]
  have hall : r.waiting.filter (fun x => !(r.guard.outcome? x.2).isSome) = r.waiting := by
    rw [List.filter_eq_self]
    intro x hx
    simp [h x hx]
  unfold flushExits
  simp only [hnone, hall, List.map_nil, List.append_nil]

theorem flushExits_of_settled {r : Run α}
    (h : ∀ x ∈ r.waiting, (r.guard.outcome? x.2).isSome = true) :
    r.flushExits =
      { r with exits := r.exits ++ r.waiting.map fun x => exitCode x.1, waiting := [] } := by
  have hall : r.waiting.filter (fun x => (r.guard.outcome? x.2).isSome) = r.waiting := by
    rw [List.filter_eq_self]
    exact h
  have hnone : r.waiting.filter (fun x => !(r.guard.outcome? x.2).isSome) = [] := by
    rw [List.filter_eq_nil_iff]
    intro x hx
    simp [h x hx]
  unfold flushExits
  simp only [hall, hnone]

/-- A closing run whose restore has ended is done. -/
theorem finishClosing_of_outcome {r : Run α} {outcome : Except Failure α} {place : Option Nat}
    {restored : Except Failure Unit} (hphase : r.phase = .closing outcome place)
    (houtcome : r.guard.outcome? place = some restored) :
    r.finishClosing = { r with phase := .done (restored >>= fun _ => outcome) } := by
  unfold finishClosing
  rw [hphase]
  dsimp only
  rw [houtcome]
  cases restored <;> rfl

theorem finishClosing_of_pending {r : Run α} {outcome : Except Failure α} {place : Option Nat}
    (hphase : r.phase = .closing outcome place) (houtcome : r.guard.outcome? place = none) :
    r.finishClosing = r := by
  unfold finishClosing
  rw [hphase]
  dsimp only
  rw [houtcome]

theorem step_scanEnds_of_scanning {r : Run α} (h : r.phase = .scanning)
    (outcome : Except Failure α) :
    r.step (.scanEnds outcome) =
      finishClosing
        { r with
          guard := r.guard.release.1
          listeners := []
          phase := .closing outcome r.guard.release.2 } := by
  simp only [step, h]

section Steps

variable {g : Guard} {before : Except Failure Unit} (hrest : g.AtRest before)
  {watched heard : List Signal} {stage : Stage}

include hrest

omit hrest in
theorem ended_of_scanning {ended : Option (Except Failure α)}
    (h : (standing g before watched stage heard ended).phase = .scanning) : ended = none := by
  cases ended with
  | none => rfl
  | some outcome =>
    simp only [standing] at h
    cases hrestored : stage.restored? before <;> simp [hrestored] at h

/-- Every listener that hears a signal releases the guard and waits for the same restore. -/
theorem foldl_hear {r : Run α} (hguard : r.guard = g.inStage stage) (s : Signal) (n : Nat) :
    (List.range (n + 1)).foldl (fun r _ => r.hear s) r =
      { r with
        guard := g.inStage stage.released
        waiting := r.waiting ++ List.replicate (n + 1) (s, g.placeIn stage.released) } := by
  induction n with
  | zero =>
    show r.hear s = _
    rw [hear, hguard, Guard.release_inStage hrest]
    rfl
  | succ n ih =>
    -- The first listener has released the guard, the next one joins its restore.
    rw [List.range_succ, List.foldl_append, ih, List.foldl_cons, List.foldl_nil, hear]
    dsimp only
    rw [Guard.release_inStage hrest, Stage.released_released,
      List.replicate_succ' (n := n + 1), ← List.append_assoc]

/-- Those who wait for the restore of a stage that no release changes exit once it has ended. -/
theorem flushExits_inStage {r : Run α} (signals : List Signal)
    (hreleased : stage.released = stage) (hguard : r.guard = g.inStage stage)
    (hwaiting : r.waiting = signals.map fun s => (s, g.placeIn stage)) :
    r.flushExits =
      if (stage.restored? before).isNone then r
      else { r with exits := r.exits ++ signals.map exitCode, waiting := [] } := by
  have houtcome : r.guard.outcome? (g.placeIn stage) = stage.restored? before := by
    rw [hguard, ← hreleased]
    exact Guard.outcome?_inStage hrest stage
  split
  case isTrue hpending =>
    refine flushExits_of_pending fun x hx => ?_
    obtain ⟨s, -, rfl⟩ := List.mem_map.mp (hwaiting ▸ hx)
    exact houtcome.trans (Option.isNone_iff_eq_none.mp hpending)
  case isFalse hsettled =>
    rw [flushExits_of_settled, hwaiting, List.map_map]
    · rfl
    · intro x hx
      obtain ⟨s, -, rfl⟩ := List.mem_map.mp (hwaiting ▸ hx)
      rw [houtcome]
      exact Option.isSome_iff_ne_none.mpr fun hnone => hsettled (by rw [hnone]; rfl)

omit hrest in
theorem waiting_standing (hheard : stage = .shelved → heard = [])
    (ended : Option (Except Failure α)) :
    (standing g before watched stage heard ended).waiting =
      (if (stage.restored? before).isNone then heard else []).map
        fun s => (s, g.placeIn stage.released) := by
  cases stage with
  | shelved =>
    rw [hheard rfl]
    rfl
  | _ => rfl

theorem flushExits_standing (hheard : stage = .shelved → heard = [])
    (ended : Option (Except Failure α)) :
    (standing g before watched stage heard ended).flushExits =
      standing g before watched stage heard ended := by
  refine flushExits_of_pending fun x hx => ?_
  rw [waiting_standing hheard] at hx
  obtain ⟨s, hs, rfl⟩ := List.mem_map.mp hx
  split at hs
  case isTrue hpending =>
    have hreleased : stage.released = stage := Stage.released_eq fun h => by
      rw [hheard h] at hs
      cases hs
    have houtcome := Guard.outcome?_inStage hrest stage
    rw [Stage.restored?_released, Option.isNone_iff_eq_none.mp hpending] at houtcome
    rw [hreleased] at houtcome ⊢
    exact houtcome
  case isFalse => cases hs

theorem step_signal (hheard : stage = .shelved → heard = []) (s : Signal) :
    (standing g before watched stage heard (none : Option (Except Failure α))).step (.signal s) =
      standing g before watched (if watched.count s = 0 then stage else stage.released)
        (heard ++ List.replicate (watched.count s) s) none := by
  have hlisteners : (standing g before watched stage heard
      (none : Option (Except Failure α))).listeners = watched := rfl
  simp only [step, hlisteners]
  cases watched.count s with
  | zero =>
    rw [if_pos rfl, List.replicate_zero, List.append_nil]
    exact flushExits_standing hrest hheard none
  | succ n =>
    rw [if_neg (Nat.succ_ne_zero n), foldl_hear hrest rfl, waiting_standing hheard,
      flushExits_inStage hrest
        ((if (stage.restored? before).isNone then heard else []) ++ List.replicate (n + 1) s)
        (Stage.released_released stage) rfl
        (by rw [List.map_append, List.map_replicate])]
    rw [Stage.restored?_released]
    cases hrestored : (stage.restored? before).isNone <;> simp [standing, hrestored]

/-- After the scan nobody listens. -/
theorem step_signal_of_ended (hheard : stage = .shelved → heard = []) (s : Signal)
    (outcome : Except Failure α) :
    (standing g before watched stage heard (some outcome)).step (.signal s) =
      standing g before watched stage heard (some outcome) :=
  flushExits_standing hrest hheard (some outcome)

theorem step_scanEnds (hheard : stage = .shelved → heard = []) (outcome : Except Failure α) :
    (standing g before watched stage heard none).step (.scanEnds outcome) =
      standing g before watched stage.released heard (some outcome) := by
  have hguard : (standing g before watched stage heard (none : Option (Except Failure α))).guard =
      g.inStage stage := rfl
  have houtcome := Guard.outcome?_inStage hrest stage
  rw [step_scanEnds_of_scanning rfl, hguard, Guard.release_inStage hrest, waiting_standing hheard]
  cases hrestored : stage.released.restored? before with
  | none =>
    rw [hrestored] at houtcome
    rw [finishClosing_of_pending rfl houtcome]
    rw [Stage.restored?_released] at hrestored
    simp [standing, hrestored]
  | some restored =>
    rw [hrestored] at houtcome
    rw [finishClosing_of_outcome rfl houtcome]
    rw [Stage.restored?_released] at hrestored
    simp [standing, hrestored]

theorem step_popSettles (ended : Option (Except Failure α)) (answer : Except Failure Text) :
    (standing g before watched .popping heard ended).step
        (.popSettles g.restores.length answer) =
      standing g before watched (.popped (Guard.popOutcome g.label answer)) heard ended := by
  have hreleased : (Stage.popped (Guard.popOutcome g.label answer)).released =
      .popped (Guard.popOutcome g.label answer) := rfl
  show (flushExits { standing g before watched .popping heard ended with
    guard := (g.inStage .popping).settle g.restores.length answer }).finishClosing = _
  rw [Guard.settle_inStage, flushExits_inStage hrest heard hreleased rfl rfl,
    if_neg (by simp [Stage.restored?])]
  cases ended with
  | none => rfl
  | some outcome =>
    rw [finishClosing_of_outcome rfl
      (Guard.outcome?_inStage hrest (.popped (Guard.popOutcome g.label answer)))]
    rfl

end Steps

/-! ## Where a course leads -/

/-- The stage that the events lead to. The first signal that is heard asks for the pop, or the end of the
scan if none was. -/
def stageAfter (g : Guard) (pushed : Bool) (watched : List Signal) (events : List (Event α)) : Stage :=
  if pushed then
    match Event.answered? events with
    | some answer => .popped (Guard.popOutcome g.label answer)
    | none => if Event.Releases watched events then .popping else .shelved
  else .unshelved

section Courses

variable {g : Guard} {pushed : Bool} {watched : List Signal} {events : List (Event α)}

theorem restored?_stageAfter (before : Except Failure Unit) :
    (stageAfter g pushed watched events).restored? before =
      if pushed then (Event.answered? events).map (Guard.popOutcome g.label) else some before := by
  unfold stageAfter
  split
  case isTrue =>
    cases hanswered : Event.answered? events with
    | some answer => rfl
    | none => by_cases hreleases : Event.Releases watched events <;> simp [hreleases, Stage.restored?]
  case isFalse => rfl

theorem popCount_stageAfter
    (h : (Event.answered? events).isSome = true → Event.Releases watched events) :
    (stageAfter g pushed watched events).popCount =
      if pushed = true ∧ Event.Releases watched events then 1 else 0 := by
  unfold stageAfter
  cases pushed with
  | false => rfl
  | true =>
    cases hanswered : Event.answered? events with
    | some answer =>
      have hreleases : Event.Releases watched events := h (by rw [hanswered]; rfl)
      simp [hreleases, Stage.popCount]
    | none => by_cases hreleases : Event.Releases watched events <;> simp [hreleases, Stage.popCount]

theorem heard_of_stageAfter (h : stageAfter g pushed watched events = .shelved) :
    Event.heard watched events = [] := by
  unfold stageAfter Event.Releases at h
  grind

theorem of_popping (h : stageAfter g pushed watched events = .popping) :
    pushed = true ∧ Event.answered? events = none ∧ Event.Releases watched events := by
  unfold stageAfter at h
  grind

theorem stageAfter_signal (h : Event.ended? events = none) (s : Signal) :
    stageAfter g pushed watched (events ++ [.signal s]) =
      if watched.count s = 0 then stageAfter g pushed watched events
      else (stageAfter g pushed watched events).released := by
  unfold stageAfter
  simp only [Event.answered?_append, Event.answer?, Option.or_none, Event.releases_signal h]
  cases pushed with
  | false => simp [Stage.released]
  | true =>
    cases Event.answered? events with
    | some answer => simp [Stage.released]
    | none =>
      by_cases hreleases : Event.Releases watched events <;> cases watched.count s <;>
        simp [hreleases, Stage.released]

theorem stageAfter_scanEnds (outcome : Except Failure α) :
    stageAfter g pushed watched (events ++ [.scanEnds outcome]) =
      (stageAfter g pushed watched events).released := by
  unfold stageAfter
  simp only [Event.answered?_append, Event.answer?, Option.or_none, Event.releases_scanEnds]
  cases pushed with
  | false => rfl
  | true =>
    cases Event.answered? events with
    | some answer => rfl
    | none => by_cases hreleases : Event.Releases watched events <;> simp [hreleases, Stage.released]

theorem stageAfter_popSettles (h : stageAfter g pushed watched events = .popping) (place : Nat)
    (answer : Except Failure Text) :
    stageAfter g pushed watched (events ++ [.popSettles place answer]) =
      .popped (Guard.popOutcome g.label answer) := by
  obtain ⟨hpushed, hanswered, -⟩ := of_popping h
  unfold stageAfter
  rw [Event.answered?_append, hanswered, hpushed]
  rfl

theorem stageAfter_of_ended (h : (Event.ended? events).isSome = true) (s : Signal) :
    stageAfter g pushed watched (events ++ [.signal s]) = stageAfter g pushed watched events := by
  have hreleases : Event.Releases watched events := .inr h
  unfold stageAfter
  simp only [Event.answered?_append, Event.answer?, Option.or_none, hreleases, hreleases.append]

/-! ## Every course -/

variable {before : Except Failure Unit} (hrest : g.AtRest before)

include hrest

/-- One event takes a run from where the events so far have led it to where it leads with them. -/
theorem step_standing {e : Event α}
    (hallows : (standing g before watched (stageAfter g pushed watched events)
      (Event.heard watched events) (Event.ended? events)).Allows e) :
    (standing g before watched (stageAfter g pushed watched events)
        (Event.heard watched events) (Event.ended? events)).step e =
      standing g before watched (stageAfter g pushed watched (events ++ [e]))
        (Event.heard watched (events ++ [e])) (Event.ended? (events ++ [e])) := by
  have hheard : stageAfter g pushed watched events = .shelved → Event.heard watched events = [] :=
    heard_of_stageAfter
  cases e with
  | signal s =>
    rw [Event.ended?_append]
    cases hended : Event.ended? events with
    | none =>
      rw [step_signal hrest hheard, Event.heard_signal hended, stageAfter_signal hended]
      rfl
    | some outcome =>
      have hsome : (Event.ended? events).isSome = true := by rw [hended]; rfl
      rw [step_signal_of_ended hrest hheard, Event.heard_of_other (.inl hsome), stageAfter_of_ended hsome]
      rfl
  | scanEnds outcome =>
    have hended : Event.ended? events = none := ended_of_scanning hallows
    rw [hended, step_scanEnds hrest hheard, Event.heard_of_other (.inr rfl), stageAfter_scanEnds,
      Event.ended?_append, hended]
    rfl
  | popSettles place answer =>
    obtain ⟨hstage, hplace⟩ := Guard.pending_inStage hrest hallows
    rw [Event.heard_of_other (.inr rfl), stageAfter_popSettles hstage, hstage, hplace,
      step_popSettles hrest, Event.ended?_append]
    cases Event.ended? events <;> rfl

/-- An event releases the guard, settles the pop or leaves the stage as it is. -/
theorem stageAfter_cases {e : Event α}
    (hallows : (standing g before watched (stageAfter g pushed watched events)
      (Event.heard watched events) (Event.ended? events)).Allows e) :
    stageAfter g pushed watched (events ++ [e]) = stageAfter g pushed watched events ∨
      stageAfter g pushed watched (events ++ [e]) = (stageAfter g pushed watched events).released ∨
      stageAfter g pushed watched events = .popping ∧ ∃ answer, e.answer? = some answer ∧
        stageAfter g pushed watched (events ++ [e]) = .popped (Guard.popOutcome g.label answer) := by
  cases e with
  | signal s =>
    cases hended : Event.ended? events with
    | none =>
      rw [stageAfter_signal hended]
      split
      case isTrue => exact .inl rfl
      case isFalse => exact .inr (.inl rfl)
    | some outcome => exact .inl (stageAfter_of_ended (by rw [hended]; rfl) s)
  | scanEnds outcome => exact .inr (.inl (stageAfter_scanEnds outcome))
  | popSettles place answer =>
    have hstage := (Guard.pending_inStage hrest hallows).1
    exact .inr (.inr ⟨hstage, answer, rfl, stageAfter_popSettles hstage place answer⟩)

theorem leads_stageAfter {e : Event α}
    (hallows : (standing g before watched (stageAfter g pushed watched events)
      (Event.heard watched events) (Event.ended? events)).Allows e) :
    (stageAfter g pushed watched events).Leads (stageAfter g pushed watched (events ++ [e])) := by
  rcases stageAfter_cases hrest hallows with hsame | hreleased | ⟨hpopping, answer, -, hpopped⟩
  · exact .inl (by rw [hsame])
  · rw [hreleased]
    exact Stage.leads_released _
  · rw [hpopping, hpopped]
    exact .inl rfl

/-- In whatever order things happen, the run stands where the events have led it, and a pop was asked for
once if that is past the first release. -/
theorem Course.stands {w₀ w : World} {r : Run α}
    (h : Course (g.inStage (.acquired pushed)) watched w₀ events r w) :
    r = standing g before watched (stageAfter g pushed watched events)
        (Event.heard watched events) (Event.ended? events) ∧
      g.pops w = g.pops w₀ + (stageAfter g pushed watched events).popCount := by
  induction h with
  | start => cases pushed <;> exact ⟨rfl, rfl⟩
  | @event events r w e _ hallows ih =>
    obtain ⟨rfl, hpops⟩ := ih
    have hstep := step_standing hrest hallows
    have hstarted := Guard.pops_popStarted (g := g) (leads_stageAfter hrest hallows) w
    refine ⟨hstep, ?_⟩
    rw [hstep]
    simp only [standing]
    omega
  | other _ hpops ih =>
    rw [Guard.pops_inStage, Guard.pops_inStage] at hpops
    exact ⟨ih.1, hpops.trans ih.2⟩

theorem Course.allows_popSettles {w₀ w : World} {r : Run α}
    (h : Course (g.inStage (.acquired pushed)) watched w₀ events r w)
    (hstage : stageAfter g pushed watched events = .popping) (answer : Except Failure Text) :
    r.Allows (.popSettles g.restores.length answer) := by
  rw [(h.stands hrest).1, hstage]
  simp [Allows, standing, Guard.inStage]

end Courses

end Run

end PackageHistory.Shelf
