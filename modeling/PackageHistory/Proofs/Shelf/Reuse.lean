import PackageHistory.Proofs.Shelf.Restoring

/-!
# Guards that are used again

Runs may follow each other on one guard. Each of them asks git for what a run on a new guard would ask for,
and ends as that would, unless it has shelved nothing and the last restore before it failed.
-/

namespace PackageHistory.Shelf

variable {α : Type}

namespace Guard

/-- Both guards ask git for the same. -/
structure Like (g₀ g : Guard) : Prop where
  location : g.location = g₀.location
  label : g.label = g₀.label

variable {g₀ g : Guard} {stage : Stage}

theorem Like.popCall (h : g₀.Like g) : g.popCall = g₀.popCall := by
  rw [Guard.popCall, Guard.popCall, h.location]

theorem Like.listCall (h : g₀.Like g) : g.listCall = g₀.listCall := by
  rw [Guard.listCall, Guard.listCall, h.location]

theorem Like.pushCall (h : g₀.Like g) : g.pushCall = g₀.pushCall := by
  rw [Guard.pushCall, Guard.pushCall, h.location, h.label]

theorem Like.pushAnswer (h : g₀.Like g) (w : World) : g.pushAnswer w = g₀.pushAnswer w := by
  rw [Guard.pushAnswer, Guard.pushAnswer, h.listCall, h.pushCall]

theorem Like.pushes (h : g₀.Like g) (w : World) : g.Pushes w ↔ g₀.Pushes w := by
  simp only [Pushes, HasChanges, h.listCall, h.pushAnswer]

theorem afterListing_eq_push_iff (g : Guard) (w : World) :
    afterListing (w.git.run w.calls g.listCall) = .push ↔ g.HasChanges w := by
  unfold HasChanges
  cases w.git.run w.calls g.listCall with
  | ok output => cases hblank : output.trim.isEmpty <;> simp_all [afterListing]
  | error e => cases e <;> simp [afterListing]

theorem not_pushes_of_nothing {w : World} (h : w.git.run w.calls g.listCall = .ok []) :
    ¬ g.Pushes w := by
  rintro ⟨⟨output, hlist, hfilled⟩, -⟩
  cases h.symm.trans hlist
  cases hfilled

/-- Whether an acquire has stashed, or how it failed, and the world after it are the same for all guards
that ask for the same. -/
theorem acquire_uniform (g₀ : Guard) (w : World) :
    ∃ (acquired : Except Failure Bool) (w₁ : World), (acquired = .ok true ↔ g₀.Pushes w) ∧
      ∀ g, g₀.Like g →
        g.acquire w = (acquired.map fun pushed => g.inStage (.acquired pushed), w₁) := by
  have hchanges := afterListing_eq_push_iff g₀ w
  cases hlisted : afterListing (w.git.run w.calls g₀.listCall) with
  | finished outcome =>
    rw [hlisted] at hchanges
    refine ⟨outcome.map fun _ => false, w.asked g₀.listCall, ⟨fun h => ?_, fun h => ?_⟩,
      fun g hlike => ?_⟩
    · cases outcome <;> cases h
    · exact absurd (hchanges.mpr h.1) nofun
    · rw [acquire_apply, hlike.listCall, hlisted]
      cases outcome <;> rfl
  | push =>
    refine ⟨(g₀.afterPush (g₀.pushAnswer w)).2.map fun _ => true,
      (w.asked g₀.listCall).asked g₀.pushCall, ?_, fun g hlike => ?_⟩
    · rw [Pushes, and_iff_right (hchanges.mp hlisted)]
      cases g₀.pushAnswer w with
      | ok output => simp [afterPush, Except.map]
      | error e => cases e <;> simp [afterPush, Except.map]
    · rw [acquire_apply, hlike.listCall, hlike.pushCall, hlike.pushAnswer, hlisted]
      cases g₀.pushAnswer w with
      | ok output => rfl
      | error e => cases e <;> rfl

/-! ## Pops under way -/

/-- What git has answered while a stage was reached is the answer to the pop that is still to settle. -/
def Settling (stage : Stage) (answers : List (Except Failure Text)) : Prop :=
  stage ≠ .popping ∧ answers = [] ∨ stage = .popping ∧ ∃ answer, answers = [answer]

/-- Answers to the pop of a guard, with the place of its restore. -/
def placed (g : Guard) (answers : List (Except Failure Text)) : List (Nat × Except Failure Text) :=
  answers.map fun answer => (g.restores.length, answer)

theorem popStarted_released_uniform (g₀ : Guard) (w : World) {answers : List (Except Failure Text)}
    (h : Settling stage answers) :
    ∃ started w', Settling stage.released (answers ++ started) ∧
      ∀ g, g₀.Like g → popStarted (g.inStage stage) (g.inStage stage.released) w =
        (.ok (g.placed started), w') := by
  cases stage with
  | shelved =>
    obtain ⟨-, rfl⟩ := h.resolve_right (by simp)
    refine ⟨[w.git.run w.calls g₀.popCall], w.asked g₀.popCall, .inr ⟨rfl, _, rfl⟩, fun g hlike => ?_⟩
    rw [← hlike.popCall]
    exact popStarted_shelved g w
  | _ =>
    exact ⟨[], w, by simpa [Stage.released] using h, fun g _ => popStarted_inStage rfl w⟩

theorem AtRest.popped {before : Except Failure Unit} (h : g.AtRest before)
    (outcome : Except Failure Unit) : (g.inStage (.popped outcome)).AtRest outcome where
  unshelved := h.unshelved
  settled := by simp [inStage, h.settled]
  ended := by simp [inStage, outcome?]

theorem AtRest.shelved_acquired {before : Except Failure Unit} (h : g.AtRest before)
    (pushed : Bool) : (g.inStage (.acquired pushed)).shelved = pushed := by
  cases pushed with
  | false => exact h.unshelved
  | true => rfl

theorem popStarted_like (hlike : g₀.Like g) {stage stage' : Stage} (h : stage.Leads stage')
    (w : World) : (popStarted (g₀.inStage stage) (g₀.inStage stage') w).2 =
      (popStarted (g.inStage stage) (g.inStage stage') w).2 := by
  rcases h with hsame | ⟨rfl, rfl⟩
  · rw [popStarted_inStage hsame, popStarted_inStage hsame]
  · rw [popStarted_shelved, popStarted_shelved, hlike.popCall]

end Guard

/-! ## Events on another guard -/

namespace Event

/-- The same event on a guard whose restore is at another place. -/
def atPlace (place : Nat) : Event α → Event α
  | popSettles _ answer => popSettles place answer
  | e => e

variable (place : Nat) (events : List (Event α))

theorem signal?_atPlace (e : Event α) : (e.atPlace place).signal? = e.signal? := by cases e <;> rfl

theorem ending?_atPlace (e : Event α) : (e.atPlace place).ending? = e.ending? := by cases e <;> rfl

theorem answer?_atPlace (e : Event α) : (e.atPlace place).answer? = e.answer? := by cases e <;> rfl

@[simp] theorem ended?_map_atPlace : ended? (events.map (atPlace place)) = ended? events := by
  rw [ended?, ended?, List.findSome?_map]
  exact congrArg (events.findSome? ·) (funext (ending?_atPlace place))

@[simp] theorem answered?_map_atPlace : answered? (events.map (atPlace place)) = answered? events := by
  rw [answered?, answered?, List.findSome?_map]
  exact congrArg (events.findSome? ·) (funext (answer?_atPlace place))

@[simp] theorem heard_map_atPlace (watched : List Signal) :
    heard watched (events.map (atPlace place)) = heard watched events := by
  have hdelivered : delivered (events.map (atPlace place)) = delivered events := by
    rw [delivered, delivered, List.takeWhile_map, List.filterMap_map]
    simp only [Function.comp_def, ending?_atPlace, signal?_atPlace]
  rw [heard, heard, hdelivered]

theorem releases_map_atPlace (watched : List Signal) :
    Releases watched (events.map (atPlace place)) ↔ Releases watched events := by
  rw [Releases, Releases, heard_map_atPlace, ended?_map_atPlace]

end Event

namespace Run

variable {g₀ g : Guard} {before : Except Failure Unit} {pushed : Bool} {watched : List Signal}
  {events : List (Event α)}

theorem stageAfter_like (h : g₀.Like g) :
    stageAfter g pushed watched events = stageAfter g₀ pushed watched events := by
  rw [stageAfter, stageAfter, h.label]

/-! ## Playing events -/

theorem playEvent_uniform (g₀ : Guard) (pushed : Bool) (watched : List Signal) {e : Event α}
    (w : World) {answers : List (Except Failure Text)} (hended : Event.ended? events = none)
    (hanswer : e.answer? = none)
    (h : Guard.Settling (stageAfter g₀ pushed watched events) answers) :
    ∃ answers' w', Guard.Settling (stageAfter g₀ pushed watched (events ++ [e])) answers' ∧
      ∀ g before, g₀.Like g → g.AtRest before →
        playEvent (standing g before watched (stageAfter g₀ pushed watched events)
            (Event.heard watched events) (Event.ended? events), g.placed answers) e w =
          (.ok (standing g before watched (stageAfter g₀ pushed watched (events ++ [e]))
            (Event.heard watched (events ++ [e])) (Event.ended? (events ++ [e])),
              g.placed answers'), w') := by
  have hallows (g : Guard) (before : Except Failure Unit) :
      (standing g before watched (stageAfter g₀ pushed watched events)
        (Event.heard watched events) (Event.ended? events)).Allows e := by
    cases e with
    | signal s => trivial
    | scanEnds outcome => rw [hended]; rfl
    | popSettles place answer => cases hanswer
  -- Whether the event releases the guard is the same for all of them.
  obtain ⟨started, w', hsettling, hstarted⟩ : ∃ started w',
      Guard.Settling (stageAfter g₀ pushed watched (events ++ [e])) (answers ++ started) ∧
        ∀ g, g₀.Like g → Guard.popStarted (g.inStage (stageAfter g₀ pushed watched events))
          (g.inStage (stageAfter g₀ pushed watched (events ++ [e]))) w =
            (.ok (g.placed started), w') := by
    have hstage : stageAfter g₀ pushed watched (events ++ [e]) = stageAfter g₀ pushed watched events ∨
        stageAfter g₀ pushed watched (events ++ [e]) =
          (stageAfter g₀ pushed watched events).released := by
      cases e with
      | signal s =>
        rw [stageAfter_signal hended]
        split
        · exact .inl rfl
        · exact .inr rfl
      | scanEnds outcome => exact .inr (stageAfter_scanEnds outcome)
      | popSettles place answer => cases hanswer
    rcases hstage with hsame | hreleased
    · rw [hsame]
      exact ⟨[], w, by simpa using h, fun g _ => Guard.popStarted_inStage rfl w⟩
    · rw [hreleased]
      exact Guard.popStarted_released_uniform g₀ w h
  refine ⟨answers ++ started, w', hsettling, fun g before hlike hrest => ?_⟩
  have hstep := step_standing hrest (stageAfter_like hlike ▸ hallows g before)
  rw [stageAfter_like hlike, stageAfter_like hlike] at hstep
  unfold playEvent
  dsimp only
  rw [hstep]
  refine (Action.bind_of_ok (hstarted g hlike) _).trans ?_
  rw [Guard.placed, Guard.placed, Guard.placed, List.map_append]
  rfl

theorem playSignals_uniform (g₀ : Guard) (pushed : Bool) (watched signals : List Signal) (w : World)
    {answers : List (Except Failure Text)} (hended : Event.ended? events = none)
    (h : Guard.Settling (stageAfter g₀ pushed watched events) answers) :
    ∃ answers' w', Guard.Settling
        (stageAfter g₀ pushed watched (events ++ signals.map .signal)) answers' ∧
      ∀ g before, g₀.Like g → g.AtRest before →
        (signals.map Event.signal).foldlM playEvent
            (standing g before watched (stageAfter g₀ pushed watched events)
              (Event.heard watched events) (Event.ended? events), g.placed answers) w =
          (.ok (standing g before watched (stageAfter g₀ pushed watched (events ++ signals.map .signal))
            (Event.heard watched (events ++ signals.map .signal))
            (Event.ended? (events ++ signals.map .signal)), g.placed answers'), w') := by
  induction signals generalizing events answers w with
  | nil => exact ⟨answers, w, by simpa using h, fun g before _ _ => by simp⟩
  | cons s signals ih =>
    obtain ⟨answers₁, w₁, hsettling₁, hplay⟩ :=
      playEvent_uniform g₀ pushed watched (e := .signal s) w hended rfl h
    have hended₁ : Event.ended? (events ++ [.signal s]) = none := by
      rw [Event.ended?_append, hended]
      rfl
    obtain ⟨answers', w', hsettling', hplays⟩ := ih w₁ hended₁ hsettling₁
    simp only [List.append_assoc, List.singleton_append] at hsettling' hplays
    refine ⟨answers', w', hsettling', fun g before hlike hrest => ?_⟩
    rw [List.map_cons, List.foldlM_cons, Action.bind_of_ok (hplay g before hlike hrest)]
    exact hplays g before hlike hrest

theorem playScan_uniform (g₀ : Guard) (pushed : Bool) (watched signals : List Signal)
    (outcome : Except Failure α) (w : World) :
    let events : List (Event α) := signals.map .signal ++ [.scanEnds outcome]
    ∃ answers w', Guard.Settling (stageAfter g₀ pushed watched events) answers ∧
      ∀ g before, g₀.Like g → g.AtRest before →
        events.foldlM playEvent (start (g.inStage (.acquired pushed)) watched, []) w =
          (.ok (standing g before watched (stageAfter g₀ pushed watched events)
            (Event.heard watched events) (some outcome), g.placed answers), w') := by
  intro events
  have hstart : Guard.Settling (stageAfter g₀ pushed watched ([] : List (Event α))) [] :=
    .inl ⟨by cases pushed <;> simp [stageAfter, Event.answered?, Event.Releases, Event.heard,
      Event.delivered, Event.ended?], rfl⟩
  obtain ⟨answers₁, w₁, hsettling₁, hsignals⟩ :=
    playSignals_uniform g₀ pushed watched signals w rfl hstart
  rw [List.nil_append] at hsettling₁
  simp only [List.nil_append] at hsignals
  obtain ⟨answers₂, w₂, hsettling₂, hends⟩ :=
    playEvent_uniform g₀ pushed watched (e := .scanEnds outcome) w₁ (Event.ended?_signals signals) rfl
      hsettling₁
  have hended : Event.ended? events = some outcome := by
    rw [Event.ended?_append, Event.ended?_signals]
    rfl
  refine ⟨answers₂, w₂, hsettling₂, fun g before hlike hrest => ?_⟩
  have hstands : start (g.inStage (.acquired pushed)) watched =
      standing g before watched (stageAfter g₀ pushed watched ([] : List (Event α)))
        (Event.heard watched ([] : List (Event α))) (Event.ended? ([] : List (Event α))) := by
    cases pushed <;> rfl
  have hplayed := hsignals g before hlike hrest
  have hends := hends g before hlike hrest
  rw [hended] at hends
  rw [hstands, List.foldlM_append]
  refine (Action.bind_of_ok hplayed _).trans ?_
  rw [List.foldlM_cons]
  exact (Action.bind_of_ok hends _).trans rfl

def endStage (label : Text) (answer : Option (Except Failure Text)) : Stage :=
  match answer with
  | some answer => .popped (Guard.popOutcome label answer)
  | none => .unshelved

/-- A scan is played to its end alike by all guards that ask for the same. -/
theorem play_uniform (g₀ : Guard) (pushed : Bool) (watched signals : List Signal)
    (outcome : Except Failure α) (w : World) :
    let events : List (Event α) := signals.map .signal ++ [.scanEnds outcome]
    ∃ (answer : Option (Except Failure Text)) (w' : World), answer.isSome = pushed ∧
      ∀ g before, g₀.Like g → g.AtRest before →
        (start (g.inStage (.acquired pushed)) watched).play events w =
          (.ok (standing g before watched (endStage g₀.label answer) (Event.heard watched events)
            (some outcome)), w') := by
  intro events
  obtain ⟨answers, w', hsettling, hplayed⟩ := playScan_uniform g₀ pushed watched signals outcome w
  have hreleases : Event.Releases watched events := Event.releases_scanEnds outcome
  have hunanswered : Event.answered? events = none := by
    rw [Event.answered?_append, Event.answered?_signals]
    rfl
  cases pushed with
  | false =>
    obtain ⟨-, rfl⟩ := hsettling.resolve_right fun h => nomatch h.1
    refine ⟨none, w', rfl, fun g before hlike hrest => ?_⟩
    rw [play_eq, Action.bind_of_ok (hplayed g before hlike hrest)]
    rfl
  | true =>
    -- The end of the scan releases the guard, so there is one pop, and it is still to settle.
    have hstage : stageAfter g₀ true watched events = .popping := by
      simp [stageAfter, hunanswered, hreleases]
    obtain ⟨-, answer, rfl⟩ := hsettling.resolve_left fun h => h.1 hstage
    refine ⟨some answer, w', rfl, fun g before hlike hrest => ?_⟩
    have hplay := hplayed g before hlike hrest
    rw [hstage] at hplay
    rw [play_eq, Action.bind_of_ok hplay]
    have hsettles : (standing g before watched .popping (Event.heard watched events)
        (some outcome)).step (.popSettles g.restores.length answer) =
          standing g before watched (endStage g₀.label (some answer)) (Event.heard watched events)
            (some outcome) := by
      rw [endStage, ← hlike.label]
      exact step_popSettles hrest _ answer
    exact congrArg (fun r => (Except.ok r, w')) hsettles

/-! ## Courses on another guard -/

theorem stageAfter_map_atPlace (hlike : g₀.Like g) (place : Nat) :
    stageAfter g₀ pushed watched (events.map (Event.atPlace place)) =
      stageAfter g pushed watched events := by
  unfold stageAfter
  simp only [Event.answered?_map_atPlace, Event.releases_map_atPlace, hlike.label]

/-- Where a course has led a run on one guard, the same events have led it on another one that asks for the
same. -/
theorem Course.stands_atPlace {before₀ : Except Failure Unit} {w₀ w : World} {r₀ : Run α}
    {place : Nat} (hrest₀ : g₀.AtRest before₀) (hlike : g₀.Like g)
    (h : Course (g₀.inStage (.acquired pushed)) watched w₀ (events.map (Event.atPlace place)) r₀ w) :
    r₀ = standing g₀ before₀ watched (stageAfter g pushed watched events)
      (Event.heard watched events) (Event.ended? events) := by
  have hstands := (h.stands hrest₀).1
  rwa [stageAfter_map_atPlace hlike, Event.heard_map_atPlace, Event.ended?_map_atPlace] at hstands

/-- What can happen to a run on one guard can happen to a run on another one that asks for the same, with
the same world after it. -/
theorem Course.onto {before₀ : Except Failure Unit} {w₀ w : World} {r : Run α}
    (hrest : g.AtRest before) (hrest₀ : g₀.AtRest before₀) (hlike : g₀.Like g)
    (h : Course (g.inStage (.acquired pushed)) watched w₀ events r w) :
    ∃ r₀, Course (g₀.inStage (.acquired pushed)) watched w₀
      (events.map (Event.atPlace g₀.restores.length)) r₀ w := by
  induction h with
  | start => exact ⟨_, .start⟩
  | @event events r w e hcourse hallows ih =>
    obtain ⟨r₀, hcourse₀⟩ := ih
    obtain rfl := (hcourse.stands hrest).1
    obtain rfl := hcourse₀.stands_atPlace hrest₀ hlike
    -- Both runs stand where the events have led them, so what the one allows the other allows.
    have hallows₀ : (standing g₀ before₀ watched (stageAfter g pushed watched events)
        (Event.heard watched events) (Event.ended? events)).Allows
          (e.atPlace g₀.restores.length) := by
      cases e with
      | signal s => trivial
      | scanEnds outcome =>
        rw [ended_of_scanning hallows]
        rfl
      | popSettles place answer =>
        have hstage := (Guard.pending_inStage hrest hallows).1
        exact hcourse₀.allows_popSettles hrest₀ ((stageAfter_map_atPlace hlike _).trans hstage) answer
    have hnext₀ := hcourse₀.event _ hallows₀
    rw [← List.map_singleton, ← List.map_append] at hnext₀
    have hguard := congrArg Run.guard (step_standing hrest hallows)
    have hguard₀ := congrArg Run.guard (hnext₀.stands_atPlace hrest₀ hlike)
    have hworld := Guard.popStarted_like hlike (leads_stageAfter hrest hallows) w
    rw [hguard₀] at hnext₀
    rw [hguard]
    exact ⟨_, hworld ▸ hnext₀⟩
  | other _ hpops ih =>
    obtain ⟨r₀, hcourse₀⟩ := ih
    refine ⟨r₀, .other hcourse₀ ?_⟩
    rw [Guard.pops_inStage, Guard.pops_inStage] at hpops ⊢
    rwa [Guard.pops, Guard.pops, ← hlike.popCall]

/-! ## One run after another -/

/-- What a guard becomes through runs one after another, with how the last pop that they started ended. A
run that cannot acquire the guard leaves it as it is. -/
inductive Reused (g₀ : Guard) : Guard → Except Failure Unit → Prop where
  | new : Reused g₀ g₀ (.ok ())
  | run {α : Type} {g g' : Guard} {last : Except Failure Unit} {watched : List Signal}
      {events : List (Event α)} {r : Run α} {w w₁ w' : World} :
      Reused g₀ g last → g.acquire w = (.ok g', w₁) → Course g' watched w₁ events r w' →
        r.result?.isSome = true →
          Reused g₀ r.guard (((Event.answered? events).map (Guard.popOutcome g.label)).getD last)

theorem Course.answered?_of_unshelved {w₀ w : World} {r : Run α} (hrest : g.AtRest before)
    (h : Course (g.inStage (.acquired false)) watched w₀ events r w) :
    Event.answered? events = none := by
  induction h with
  | start => rfl
  | event e hcourse hallows ih =>
    rw [Event.answered?_append, ih]
    cases e with
    | popSettles place answer =>
      -- Nothing was shelved, so no pop is under way.
      rw [(hcourse.stands hrest).1] at hallows
      exact nomatch (of_popping (Guard.pending_inStage hrest hallows).1).1
    | _ => rfl
  | other _ _ ih => exact ih

theorem Course.atRest {w₀ w : World} {r : Run α} (hrest : g.AtRest before)
    (h : Course (g.inStage (.acquired pushed)) watched w₀ events r w)
    (hdone : r.result?.isSome = true) :
    r.guard.AtRest (((Event.answered? events).map (Guard.popOutcome g.label)).getD before) ∧
      g.Like r.guard := by
  obtain rfl := (h.stands hrest).1
  rw [result?_standing] at hdone
  cases pushed with
  | false =>
    rw [h.answered?_of_unshelved hrest]
    exact ⟨hrest, rfl, rfl⟩
  | true =>
    rw [restored?_stageAfter] at hdone
    cases hanswered : Event.answered? events with
    | none => cases Event.ended? events <;> simp [hanswered] at hdone
    | some answer =>
      have hstage : stageAfter g true watched events = .popped (Guard.popOutcome g.label answer) := by
        unfold stageAfter
        rw [hanswered]
        rfl
      have hguard : (standing g before watched (stageAfter g true watched events)
          (Event.heard watched events) (Event.ended? events)).guard =
            g.inStage (.popped (Guard.popOutcome g.label answer)) := by rw [hstage]; rfl
      rw [hguard]
      exact ⟨hrest.popped _, rfl, rfl⟩

theorem Reused.atRest {location label : Text} {last : Except Failure Unit}
    (h : Reused { location, label } g last) :
    g.AtRest last ∧ Guard.Like { location, label } g := by
  induction h with
  | new => exact ⟨Guard.atRest_unused location label, rfl, rfl⟩
  | @run α g g' last watched events r w w₁ w' _ hacquire hcourse hdone ih =>
    obtain ⟨hrest, hlike⟩ := ih
    obtain ⟨acquired, w₁', -, huniform⟩ := Guard.acquire_uniform { location, label } w
    rw [huniform g hlike] at hacquire
    cases acquired with
    | error e => cases hacquire
    | ok pushed =>
      cases hacquire
      obtain ⟨hrest', hlike'⟩ := hcourse.atRest hrest hdone
      exact ⟨hrest', hlike'.location.trans hlike.location, hlike'.label.trans hlike.label⟩

/-- What a caller sees of two runs is the same, but that the second one, with nothing shelved, does not end
well where an earlier restore has not. -/
structure EndsLike (last : Except Failure Unit) (pushed : Bool) (r₀ r : Run α) : Prop where
  exits : r.exits = r₀.exits
  listeners : r.listeners = r₀.listeners
  shelved : r.guard.shelved = r₀.guard.shelved
  result : r.result? =
    if pushed then r₀.result? else r₀.result?.map fun result => last >>= fun _ => result

theorem endsLike_standing {last : Except Failure Unit} {stage : Stage} {heard : List Signal}
    {ended : Option (Except Failure α)} (hrest₀ : g₀.AtRest (.ok ())) (hrest : g.AtRest last)
    (hstage : stage = .unshelved ↔ pushed = false) :
    EndsLike last pushed (standing g₀ (.ok ()) watched stage heard ended)
      (standing g last watched stage heard ended) := by
  constructor
  case exits => cases stage <;> rfl
  case listeners => rfl
  case shelved =>
    have hunshelved := hrest.unshelved
    have hunshelved₀ := hrest₀.unshelved
    cases stage <;> simp [standing, Guard.inStage, Guard.shelve, hunshelved, hunshelved₀]
  case result =>
    rw [result?_standing, result?_standing]
    cases pushed with
    | false =>
      obtain rfl := hstage.mpr rfl
      cases ended <;> rfl
    | true =>
      cases stage with
      | unshelved => cases hstage.mp rfl
      | _ => rfl

theorem stageAfter_eq_unshelved_iff :
    stageAfter g pushed watched events = .unshelved ↔ pushed = false := by
  unfold stageAfter
  grind

theorem withGuard_of_acquired {last : Except Failure Unit} {w w₁ : World} (hrest : g.AtRest last)
    (hacquire : g.acquire w = (.ok (g.inStage (.acquired pushed)), w₁)) (watched : List Signal)
    (scan : Bool → Action (Scanned α)) :
    withGuard g watched (fun r => scan r.guard.shelved) w =
      (scan pushed >>= fun scanned => (start (g.inStage (.acquired pushed)) watched).play
        (scanned.signals.map .signal ++ [.scanEnds scanned.outcome])) w₁ := by
  unfold withGuard
  rw [Action.bind_of_ok hacquire]
  show (scan (g.inStage (.acquired pushed)).shelved >>= _) w₁ = _
  rw [hrest.shelved_acquired]

/-- Runs on a new guard and on one used before, that are acquired alike and scan alike, end alike. -/
theorem withGuard_endsLike {last : Except Failure Unit} {w w₁ : World} (hlike : g₀.Like g)
    (hrest₀ : g₀.AtRest (.ok ())) (hrest : g.AtRest last)
    (hacquire₀ : g₀.acquire w = (.ok (g₀.inStage (.acquired pushed)), w₁))
    (hacquire : g.acquire w = (.ok (g.inStage (.acquired pushed)), w₁)) (watched : List Signal)
    (scan : Bool → Action (Scanned α)) :
    let onGuard (g : Guard) := withGuard g watched (fun r => scan r.guard.shelved) w
    (onGuard g).2 = (onGuard g₀).2 ∧
      ((∃ e, (onGuard g₀).1 = .error e ∧ (onGuard g).1 = .error e) ∨
        ∃ r₀ r, (onGuard g₀).1 = .ok r₀ ∧ (onGuard g).1 = .ok r ∧ EndsLike last pushed r₀ r) := by
  dsimp only
  rw [withGuard_of_acquired hrest hacquire, withGuard_of_acquired hrest₀ hacquire₀]
  cases hscan : scan pushed w₁ with
  | mk out w₂ =>
    cases out with
    | error e =>
      rw [Action.bind_of_error hscan, Action.bind_of_error hscan]
      exact ⟨rfl, .inl ⟨e, rfl, rfl⟩⟩
    | ok scanned =>
      obtain ⟨answer, w', hanswer, hplay⟩ :=
        play_uniform g₀ pushed watched scanned.signals scanned.outcome w₂
      rw [Action.bind_of_ok hscan, Action.bind_of_ok hscan, hplay g last hlike hrest,
        hplay g₀ (.ok ()) ⟨rfl, rfl⟩ hrest₀]
      refine ⟨rfl, .inr ⟨_, _, rfl, rfl, endsLike_standing hrest₀ hrest ?_⟩⟩
      subst hanswer
      cases answer <;> simp [endStage]

/-- What can happen to a run on a new guard can happen to one on a guard used before, and they end alike. -/
theorem Course.onUsed {last : Except Failure Unit} {w₀ w : World} {r₀ : Run α}
    (hlike : g₀.Like g) (hrest₀ : g₀.AtRest (.ok ())) (hrest : g.AtRest last)
    (h : Course (g₀.inStage (.acquired pushed)) watched w₀ events r₀ w) :
    ∃ r, Course (g.inStage (.acquired pushed)) watched w₀
      (events.map (Event.atPlace g.restores.length)) r w ∧ EndsLike last pushed r₀ r := by
  have hlike' : g.Like g₀ := ⟨hlike.location.symm, hlike.label.symm⟩
  obtain ⟨r, hcourse⟩ := h.onto hrest₀ hrest hlike'
  obtain rfl := (h.stands hrest₀).1
  obtain rfl := hcourse.stands_atPlace hrest hlike'
  exact ⟨_, hcourse, endsLike_standing hrest₀ hrest stageAfter_eq_unshelved_iff⟩

/-- What can happen to a run on a guard used before can happen to one on a new guard, and they end alike. -/
theorem Course.onNew {last : Except Failure Unit} {w₀ w : World} {r : Run α}
    (hlike : g₀.Like g) (hrest₀ : g₀.AtRest (.ok ())) (hrest : g.AtRest last)
    (h : Course (g.inStage (.acquired pushed)) watched w₀ events r w) :
    ∃ r₀, Course (g₀.inStage (.acquired pushed)) watched w₀
      (events.map (Event.atPlace g₀.restores.length)) r₀ w ∧ EndsLike last pushed r₀ r := by
  obtain ⟨r₀, hcourse⟩ := h.onto hrest hrest₀ hlike
  obtain rfl := (h.stands hrest).1
  obtain rfl := hcourse.stands_atPlace hrest₀ hlike
  exact ⟨_, hcourse, endsLike_standing hrest₀ hrest stageAfter_eq_unshelved_iff⟩

/-- A run on a guard that was used before asks git for the same as one on a new guard and leaves the same
world; it ends with the same outcome too, unless it has shelved nothing and the restore before it failed:
then it ends with that failure. So it is for a scan with its signals, and for every order of events. -/
theorem withGuard_reused {location label : Text} {last : Except Failure Unit}
    (hreused : Reused { location, label } g last) (watched : List Signal) (w : World) :
    let new : Guard := { location, label }
    ∃ pushed, (pushed = true ↔ new.Pushes w) ∧
      (∀ scan : Bool → Action (Scanned α),
        let onGuard (g : Guard) := withGuard g watched (fun r => scan r.guard.shelved) w
        (onGuard g).2 = (onGuard new).2 ∧
          ((∃ e, (onGuard new).1 = .error e ∧ (onGuard g).1 = .error e) ∨
            ∃ r₀ r, (onGuard new).1 = .ok r₀ ∧ (onGuard g).1 = .ok r ∧
              EndsLike last pushed r₀ r)) ∧
      ∀ new' w₁, new.acquire w = (.ok new', w₁) → ∃ g', g.acquire w = (.ok g', w₁) ∧
        (∀ (events : List (Event α)) (r₀ : Run α) (w' : World),
          Course new' watched w₁ events r₀ w' →
            ∃ r, Course g' watched w₁ (events.map (Event.atPlace g.restores.length)) r w' ∧
              EndsLike last pushed r₀ r) ∧
        ∀ (events : List (Event α)) (r : Run α) (w' : World),
          Course g' watched w₁ events r w' →
            ∃ r₀, Course new' watched w₁ (events.map (Event.atPlace 0)) r₀ w' ∧
              EndsLike last pushed r₀ r := by
  intro new
  obtain ⟨hrest, hlike⟩ := hreused.atRest
  have hrest₀ : new.AtRest (.ok ()) := Guard.atRest_unused location label
  obtain ⟨acquired, w₁, hpushes, hacquire⟩ := Guard.acquire_uniform new w
  have hacquire₀ := hacquire new ⟨rfl, rfl⟩
  have hacquire := hacquire g hlike
  cases acquired with
  | error e =>
    refine ⟨false, by simpa using hpushes, fun scan => ?_, fun new' w₁' h => ?_⟩
    · dsimp only
      unfold withGuard
      rw [Action.bind_of_error hacquire, Action.bind_of_error hacquire₀]
      exact ⟨rfl, .inl ⟨e, rfl, rfl⟩⟩
    · rw [hacquire₀] at h
      cases h
  | ok pushed =>
    refine ⟨pushed, by simpa using hpushes, fun scan => ?_, fun new' w₁' h => ?_⟩
    · exact withGuard_endsLike hlike hrest₀ hrest hacquire₀ hacquire watched scan
    · rw [hacquire₀] at h
      cases h
      exact ⟨_, hacquire, fun _ _ _ hcourse => hcourse.onUsed hlike hrest₀ hrest,
        fun _ _ _ hcourse => hcourse.onNew hlike hrest₀ hrest⟩

/-! ## A restore that fails -/

def conflict : GitFailure := ⟨popArgs, some 1, "CONFLICT".toList⟩

/-- Git lists a changed file the first time it is asked and none later, stashes without a word, and cannot
pop. -/
def conflictWorld : World where
  git :=
    { run := fun calls call =>
        if call.args = listArgs then .ok (if calls.isEmpty then "foo.txt\n".toList else [])
        else if call.args = popArgs then .error (.gitCommand conflict)
        else .ok []
      stream := fun _ _ => ⟨[], none⟩
      available := true }
  disk := Disk.empty []
  stamp := "1".toList

def quietScan (_ : Bool) : Action (Scanned Unit) := return { outcome := .ok () }

/-- On a guard whose last restore failed a run with nothing to shelve ends with that failure. On a new guard
it ends well. -/
theorem blamed_for_earlier_restore :
    ∃ (r r₁ r₂ : Run Unit) (w w' : World),
      withGuard repoGuard [] (fun r => quietScan r.guard.shelved) conflictWorld = (.ok r, w) ∧
        ¬ repoGuard.Pushes w ∧
        withGuard r.guard [] (fun r => quietScan r.guard.shelved) w = (.ok r₁, w') ∧
        withGuard repoGuard [] (fun r => quietScan r.guard.shelved) w = (.ok r₂, w') ∧
        r₁.result? = some (.error (Guard.popFailure repoGuard.label conflict)) ∧
        r₂.result? = some (.ok ()) := by
  exact ⟨_, _, _, _, _, rfl, Guard.not_pushes_of_nothing rfl, rfl, rfl, rfl, rfl⟩

theorem withGuard_reused_conflictWorld :
    ∃ (g : Guard) (w : World) (r₀ r : Run Unit),
      Reused repoGuard g (.error (Guard.popFailure repoGuard.label conflict)) ∧
        (withGuard repoGuard [] (fun r => quietScan r.guard.shelved) w).1 = .ok r₀ ∧
        (withGuard g [] (fun r => quietScan r.guard.shelved) w).1 = .ok r ∧
        (withGuard g [] (fun r => quietScan r.guard.shelved) w).2 =
          (withGuard repoGuard [] (fun r => quietScan r.guard.shelved) w).2 ∧
        r₀.result? = some (.ok ()) ∧
        r.result? = some (.error (Guard.popFailure repoGuard.label conflict)) := by
  obtain ⟨w₁, hacquire⟩ : ∃ w₁, repoGuard.acquire conflictWorld = (.ok repoGuard.shelve, w₁) :=
    ⟨_, rfl⟩
  have hended : Course repoGuard.shelve [] w₁ [.scanEnds (.ok ())] _ _ :=
    Course.start.event (α := Unit) (.scanEnds (.ok ())) rfl
  have hcourse := hended.event (.popSettles 0 (.error (.gitCommand conflict))) rfl
  have hreused := Reused.new.run hacquire hcourse rfl
  obtain ⟨pushed, hpushed, hplays, -⟩ :=
    withGuard_reused (α := Unit) hreused [] (conflictWorld.asked repoGuard.listCall)
  obtain ⟨hworld, herror | ⟨r₀, r, hnew, hagain, hlike⟩⟩ := hplays quietScan
  · obtain ⟨e, herror, -⟩ := herror
    cases herror
  · obtain rfl : pushed = false := by
      rw [← Bool.not_eq_true, hpushed]
      exact Guard.not_pushes_of_nothing rfl
    have hresult₀ : r₀.result? = some (.ok ()) := by
      cases hnew
      rfl
    refine ⟨_, _, r₀, r, hreused, hnew, hagain, hworld, hresult₀, ?_⟩
    rw [hlike.result, hresult₀]
    rfl

end Run

end PackageHistory.Shelf
