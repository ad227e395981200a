import PackageHistory.Proofs.Shelf.Course

/-!
# Shelved changes come back

However git answers, and whenever signals come, changes that were shelved are restored once, and whoever
waits for the restore waits until it has ended.
-/

namespace PackageHistory.Shelf

variable {α : Type}

/-! ## What a run has done -/

namespace Event

theorem findSome?_signals {β : Type} {f : Event α → Option β} (h : ∀ s, f (.signal s) = none)
    (signals : List Signal) : (signals.map Event.signal).findSome? f = none := by
  rw [List.findSome?_eq_none_iff]
  intro x hx
  obtain ⟨s, -, rfl⟩ := List.mem_map.mp hx
  exact h s

theorem ended?_signals (signals : List Signal) :
    ended? (signals.map (signal (α := α))) = none :=
  findSome?_signals (fun _ => rfl) signals

theorem answered?_signals (signals : List Signal) :
    answered? (signals.map (signal (α := α))) = none :=
  findSome?_signals (fun _ => rfl) signals

theorem delivered_signals (signals : List Signal) :
    delivered (signals.map (signal (α := α))) = signals := by
  have hall : ∀ x ∈ signals.map (signal (α := α)), x.ending?.isNone = true := by
    intro x hx
    obtain ⟨s, -, rfl⟩ := List.mem_map.mp hx
    rfl
  rw [delivered, List.takeWhile_eq_self_iff.mpr hall, List.filterMap_map]
  exact List.filterMap_some

end Event

namespace Run

variable {g : Guard} {before : Except Failure Unit} {pushed : Bool} {watched : List Signal}
  {events : List (Event α)} {r : Run α} {w₀ w : World}

/-- What a run has done when some events have happened, where releases with nothing shelved join a
restore that ended as `before` says. -/
structure Keeps (g : Guard) (before : Except Failure Unit) (pushed : Bool) (watched : List Signal)
    (w₀ : World) (events : List (Event α)) (r : Run α) (w : World) : Prop where
  /-- The first release asks for the pop, if there is something to pop. -/
  pops : g.pops w = g.pops w₀ + if pushed = true ∧ Event.Releases watched events then 1 else 0
  /-- The listeners are there until the scan ends. -/
  listeners : r.listeners = if (Event.ended? events).isSome then [] else watched
  /-- Those that heard a signal exit when the pop is answered, whatever the answer. -/
  exits : r.exits =
    if pushed = true ∧ Event.answered? events = none then []
    else (Event.heard watched events).map exitCode
  /-- A run ends when the scan and the pop have, with the scan's outcome unless the restore failed. -/
  result : r.result? = (Event.ended? events).bind fun outcome =>
    if pushed then
      (Event.answered? events).map fun answer => Guard.popOutcome g.label answer >>= fun _ => outcome
    else some (before >>= fun _ => outcome)

theorem Course.releases_of_answered (hrest : g.AtRest before)
    (h : Course (g.inStage (.acquired pushed)) watched w₀ events r w)
    (hanswered : (Event.answered? events).isSome = true) : Event.Releases watched events := by
  induction h with
  | start => cases hanswered
  | @event events r w e hcourse hallows ih =>
    cases hbefore : Event.answered? events with
    | some answer => exact (ih (by rw [hbefore]; rfl)).append e
    | none =>
      rw [Event.answered?_append, hbefore] at hanswered
      cases e with
      | signal s => cases hanswered
      | scanEnds outcome => cases hanswered
      | popSettles place answer =>
        refine Event.Releases.append ?_ _
        rw [(hcourse.stands hrest).1] at hallows
        exact (of_popping (Guard.pending_inStage hrest hallows).1).2.2
  | other _ _ ih => exact ih hanswered

theorem Course.keeps (hrest : g.AtRest before)
    (h : Course (g.inStage (.acquired pushed)) watched w₀ events r w) :
    Keeps g before pushed watched w₀ events r w := by
  have hanswered := h.releases_of_answered hrest
  obtain ⟨rfl, hpops⟩ := h.stands hrest
  constructor
  case pops => rw [hpops, popCount_stageAfter hanswered]
  case listeners => cases hended : Event.ended? events <;> rfl
  case exits =>
    simp only [standing, restored?_stageAfter]
    cases pushed <;> cases Event.answered? events <;> simp
  case result =>
    rw [result?_standing, restored?_stageAfter]
    cases pushed <;> cases Event.answered? events <;> cases Event.ended? events <;> rfl

/-! ## Playing events against git -/

/-- One event of `play`, with the answers that git has given to the pops so far. -/
def playEvent (x : Run α × List (Nat × Except Failure Text)) (e : Event α) :
    Action (Run α × List (Nat × Except Failure Text)) := do
  let next := x.1.step e
  let started ← Guard.popStarted x.1.guard next.guard
  return (next, x.2 ++ started)

theorem play_eq (r : Run α) (events : List (Event α)) :
    r.play events = do
      let (r, answers) ← events.foldlM playEvent (r, [])
      return answers.foldl (fun r (place, answer) => r.step (.popSettles place answer)) r := rfl

/-- What git has answered while events are played is the answer to the pop that is still to settle. -/
def Unsettled (g : Guard) (git : Git) (stage : Stage) (answers : List (Nat × Except Failure Text)) :
    Prop :=
  stage ≠ .popping ∧ answers = [] ∨
    stage = .popping ∧ ∃ calls, answers = [(g.restores.length, git.run calls g.popCall)]

theorem popStarted_released {stage : Stage} {answers : List (Nat × Except Failure Text)}
    (h : Unsettled g w.git stage answers) :
    ∃ started w', Guard.popStarted (g.inStage stage) (g.inStage stage.released) w =
        (.ok started, w') ∧ w'.git = w.git ∧
          Unsettled g w.git stage.released (answers ++ started) := by
  cases stage with
  | shelved =>
    obtain ⟨-, rfl⟩ := h.resolve_right (by simp)
    exact ⟨_, _, Guard.popStarted_shelved g w, rfl, .inr ⟨rfl, _, rfl⟩⟩
  | _ => exact ⟨_, _, Guard.popStarted_inStage rfl w, rfl, by simpa [Stage.released] using h⟩

theorem playEvent_course (hrest : g.AtRest before)
    {answers : List (Nat × Except Failure Text)} {e : Event α}
    (hcourse : Course (g.inStage (.acquired pushed)) watched w₀ events r w)
    (hunsettled : Unsettled g w.git (stageAfter g pushed watched events) answers)
    (hallows : r.Allows e) (hanswer : e.answer? = none) :
    ∃ r' answers' w', playEvent (r, answers) e w = (.ok (r', answers'), w') ∧ w'.git = w.git ∧
      Course (g.inStage (.acquired pushed)) watched w₀ (events ++ [e]) r' w' ∧
      Unsettled g w.git (stageAfter g pushed watched (events ++ [e])) answers' := by
  have hnext := hcourse.event e hallows
  obtain ⟨rfl, -⟩ := hcourse.stands hrest
  have hguard := congrArg Run.guard (step_standing hrest hallows)
  have hstarted : ∃ started w', Guard.popStarted (g.inStage (stageAfter g pushed watched events))
      (g.inStage (stageAfter g pushed watched (events ++ [e]))) w = (.ok started, w') ∧
        w'.git = w.git ∧
          Unsettled g w.git (stageAfter g pushed watched (events ++ [e])) (answers ++ started) := by
    rcases stageAfter_cases hrest hallows with hsame | hreleased | ⟨-, answer, hsome, -⟩
    · rw [hsame]
      exact ⟨[], w, Guard.popStarted_inStage rfl w, rfl, by simpa using hunsettled⟩
    · rw [hreleased]
      exact popStarted_released hunsettled
    · rw [hanswer] at hsome
      cases hsome
  obtain ⟨started, w', hrun, hgit, hunsettled'⟩ := hstarted
  rw [hguard] at hnext
  change Course _ _ _ _ _ (Guard.popStarted (g.inStage _) (g.inStage _) w).2 at hnext
  rw [hrun] at hnext
  refine ⟨_, answers ++ started, w', ?_, hgit, hnext, hunsettled'⟩
  unfold playEvent
  dsimp only
  rw [hguard]
  exact Action.bind_of_ok hrun _

theorem playSignals_course (hrest : g.AtRest before) (signals : List Signal)
    {answers : List (Nat × Except Failure Text)}
    (hcourse : Course (g.inStage (.acquired pushed)) watched w₀ events r w)
    (hunsettled : Unsettled g w.git (stageAfter g pushed watched events) answers) :
    ∃ r' answers' w',
      (signals.map Event.signal).foldlM playEvent (r, answers) w = (.ok (r', answers'), w') ∧
        w'.git = w.git ∧
        Course (g.inStage (.acquired pushed)) watched w₀ (events ++ signals.map .signal) r' w' ∧
        Unsettled g w.git (stageAfter g pushed watched (events ++ signals.map .signal)) answers' := by
  induction signals generalizing events r answers w with
  | nil => exact ⟨r, answers, w, rfl, rfl, by simpa using hcourse, by simpa using hunsettled⟩
  | cons s signals ih =>
    obtain ⟨r₁, answers₁, w₁, hplay, hgit₁, hcourse₁, hunsettled₁⟩ :=
      playEvent_course hrest hcourse hunsettled (e := .signal s) trivial rfl
    rw [← hgit₁] at hunsettled₁
    obtain ⟨r', answers', w', hplays, hgit', hcourse', hunsettled'⟩ := ih hcourse₁ hunsettled₁
    rw [List.append_assoc] at hcourse'
    rw [List.append_assoc, hgit₁] at hunsettled'
    refine ⟨r', answers', w', ?_, hgit'.trans hgit₁, hcourse', hunsettled'⟩
    rw [List.map_cons, List.foldlM_cons, Action.bind_of_ok hplay]
    exact hplays

/-- Once the scan has ended, the answers that git has given settle the pop. -/
theorem settle_course (hrest : g.AtRest before) {git : Git}
    {answers : List (Nat × Except Failure Text)}
    (hcourse : Course (g.inStage (.acquired pushed)) watched w₀ events r w)
    (hunsettled : Unsettled g git (stageAfter g pushed watched events) answers)
    (hended : (Event.ended? events).isSome = true) (hunanswered : Event.answered? events = none) :
    ∃ later, Course (g.inStage (.acquired pushed)) watched w₀ (events ++ later)
        (answers.foldl (fun r (place, answer) => r.step (.popSettles place answer)) r) w ∧
      Event.delivered (events ++ later) = Event.delivered events ∧
      Event.ended? (events ++ later) = Event.ended? events ∧
      (pushed = true →
        ∃ calls, Event.answered? (events ++ later) = some (git.run calls g.popCall)) := by
  rcases hunsettled with ⟨hstage, rfl⟩ | ⟨hstage, calls, rfl⟩
  · refine ⟨[], by simpa using hcourse, by simp, by simp, fun hpushed => absurd ?_ hstage⟩
    have hreleases : Event.Releases watched events := .inr hended
    simp [stageAfter, hpushed, hunanswered, hreleases]
  · have hallows := hcourse.allows_popSettles hrest hstage (git.run calls g.popCall)
    obtain ⟨rfl, -⟩ := hcourse.stands hrest
    have hstep := congrArg Run.guard (step_standing hrest hallows)
    have hnext := hcourse.event _ hallows
    rw [hstep, stageAfter_popSettles hstage] at hnext
    refine ⟨[.popSettles g.restores.length (git.run calls g.popCall)], ?_,
      Event.delivered_of_ended hended _, ?_, ?_⟩
    · have hworld : (Guard.popStarted (g.inStage (stageAfter g pushed watched events))
          (g.inStage (.popped (Guard.popOutcome g.label (git.run calls g.popCall)))) w).2 = w := by
        have hcount : (Stage.popped (Guard.popOutcome g.label (git.run calls g.popCall))).popCount =
            Stage.popping.popCount := rfl
        rw [hstage, Guard.popStarted_inStage hcount]
      exact hworld ▸ hnext
    · rw [Event.ended?_append]
      exact Option.or_none
    · intro _
      exact ⟨calls, by rw [Event.answered?_append, hunanswered]; rfl⟩

/-- Signals and the end of a scan, played against git, are a course in which every pop is answered. -/
theorem play_course (hrest : g.AtRest before) (signals : List Signal) (outcome : Except Failure α)
    (hcourse : Course (g.inStage (.acquired pushed)) watched w₀ ([] : List (Event α))
      (start (g.inStage (.acquired pushed)) watched) w) :
    ∃ events r w', (start (g.inStage (.acquired pushed)) watched).play
          (signals.map .signal ++ [.scanEnds outcome]) w = (.ok r, w') ∧
        Course (g.inStage (.acquired pushed)) watched w₀ events r w' ∧
        Event.delivered events = signals ∧ Event.ended? events = some outcome ∧
        (pushed = true →
          ∃ calls, Event.answered? events = some (w.git.run calls g.popCall)) := by
  have hstart : Unsettled g w.git (stageAfter g pushed watched ([] : List (Event α))) [] :=
    .inl ⟨by cases pushed <;> simp [stageAfter, Event.answered?, Event.Releases, Event.heard,
      Event.delivered, Event.ended?], rfl⟩
  -- First the signals, then the end of the scan, and last what git has answered meanwhile.
  obtain ⟨r₁, answers₁, w₁, hsignals, hgit, hcourse₁, hunsettled₁⟩ :=
    playSignals_course hrest signals hcourse hstart
  rw [List.nil_append] at hcourse₁
  rw [List.nil_append, ← hgit] at hunsettled₁
  have hscanning : r₁.Allows (.scanEnds outcome) := by
    rw [(hcourse₁.stands hrest).1, Event.ended?_signals]
    rfl
  obtain ⟨r₂, answers₂, w₂, hends, -, hcourse₂, hunsettled₂⟩ :=
    playEvent_course hrest hcourse₁ hunsettled₁ hscanning rfl
  rw [hgit] at hunsettled₂
  obtain ⟨later, hcourse₃, hdelivered, hended, hanswered⟩ :=
    settle_course hrest hcourse₂ hunsettled₂
      (by rw [Event.ended?_append, Event.ended?_signals]; rfl)
      (by rw [Event.answered?_append, Event.answered?_signals]; rfl)
  have hplayed : (signals.map Event.signal ++ [Event.scanEnds outcome]).foldlM playEvent
      (start (g.inStage (.acquired pushed)) watched, []) w = (.ok (r₂, answers₂), w₂) := by
    rw [List.foldlM_append, Action.bind_of_ok hsignals, List.foldlM_cons, Action.bind_of_ok hends]
    rfl
  refine ⟨_, _, w₂, ?_, hcourse₃, ?_, ?_, hanswered⟩
  · rw [play_eq, Action.bind_of_ok hplayed]
    rfl
  · rw [hdelivered, Event.delivered_of_running (Event.ended?_signals signals),
      Event.delivered_signals]
    exact List.append_nil signals
  · rw [hended, Event.ended?_append, Event.ended?_signals]
    rfl

/-! ## The whole of a guarded scan -/

/-- A guarded scan on an unused guard. Where git cannot list the changes or stash them the scan does not
run. Otherwise, in whatever order signals, the end of the scan and the answer to the pop come, the run has
done what `Keeps` says; and a scan that pops nothing itself runs through such an order of events, to the
end. Where no signal is listed twice those that are heard are those that were delivered. -/
theorem withGuard_restores_once (location label : Text) (watched : List Signal) (w : World) :
    let g : Guard := { location, label }
    (g.ListFails w ∨ g.PushFails w →
      ∃ e w', g.acquire w = (.error e, w') ∧ g.pops w' = g.pops w ∧
        ∀ scan : Run α → Action (Scanned α), withGuard g watched scan w = (.error e, w')) ∧
    (¬ (g.ListFails w ∨ g.PushFails w) →
      ∃ (pushed : Bool) (g' : Guard) (w₁ : World), (pushed = true ↔ g.Pushes w) ∧
        g.acquire w = (.ok g', w₁) ∧
        (∀ (events : List (Event α)) (r : Run α) (w' : World),
          Course g' watched w₁ events r w' →
            Keeps g (.ok ()) pushed watched w events r w') ∧
        ∀ (scan : Run α → Action (Scanned α)) (scanned : Scanned α) (w₂ : World),
          scan (start g' watched) w₁ = (.ok scanned, w₂) → g.pops w₂ = g.pops w₁ →
            ∃ (events : List (Event α)) (r : Run α) (w' : World),
              withGuard g watched scan w = (.ok r, w') ∧ Course g' watched w₁ events r w' ∧
              Event.delivered events = scanned.signals ∧
              Event.ended? events = some scanned.outcome ∧
              (pushed = true →
                ∃ calls, Event.answered? events = some (w₂.git.run calls g.popCall))) ∧
    (watched.Nodup → ∀ events : List (Event α), (∀ s ∈ Event.delivered events, s ∈ watched) →
      Event.heard watched events = Event.delivered events) := by
  intro g
  have hrest : g.AtRest (.ok ()) := Guard.atRest_unused location label
  refine ⟨fun hfails => ?_, fun hworks => ?_, fun hnodup _ => Event.heard_of_nodup hnodup⟩
  · rcases g.acquire_cases w with ⟨-, e, w', hacquire, hpops⟩ | ⟨hnot, -⟩ | ⟨hpushes, -⟩
    · refine ⟨e, w', hacquire, hpops, fun scan => ?_⟩
      unfold withGuard
      rw [Action.bind_of_error hacquire]
    · exact absurd hfails hnot
    · exact absurd hfails hpushes.not_fails
  · obtain ⟨pushed, w₁, hpushed, hacquire, hpops⟩ := Guard.acquire_inStage hworks
    refine ⟨pushed, _, w₁, hpushed, hacquire, fun events r w' hcourse => ?_,
      fun scan scanned w₂ hscan hpops₂ => ?_⟩
    · have hkeeps := hcourse.keeps hrest
      exact { hkeeps with pops := hpops ▸ hkeeps.pops }
    · have hstart : Course (g.inStage (.acquired pushed)) watched w₁ ([] : List (Event α))
          (start (g.inStage (.acquired pushed)) watched) w₂ :=
        .other .start (by rw [Guard.pops_inStage, Guard.pops_inStage, hpops₂])
      obtain ⟨events, r, w', hplay, hcourse, hdelivered, hended, hanswered⟩ :=
        play_course hrest scanned.signals scanned.outcome hstart
      refine ⟨events, r, w', ?_, hcourse, hdelivered, hended, hanswered⟩
      unfold withGuard
      rw [Action.bind_of_ok hacquire, Action.bind_of_ok hscan]
      exact hplay

/-! ## A tree with changes -/

def interrupt : Signal := "SIGINT".toList

/-- Git lists a changed file, and stashes and pops without a word. -/
def dirtyWorld : World where
  git :=
    { run := fun _ call => if call.args = listArgs then .ok "foo.txt\n".toList else .ok []
      stream := fun _ _ => ⟨[], none⟩
      available := true }
  disk := Disk.empty []
  stamp := "1".toList

/-- Git cannot be asked. -/
def gitlessWorld : World :=
  { dirtyWorld with git := { dirtyWorld.git with run := fun _ _ => .error (.other "no git".toList) } }

def repoGuard : Guard := { location := "/repo".toList, label := "L".toList }

theorem pushes_dirtyWorld : repoGuard.Pushes dirtyWorld := by
  refine ⟨⟨"foo.txt\n".toList, rfl, ?_⟩, [], rfl⟩
  decide +kernel

/-- A scan during which one signal comes. -/
def interruptedScan (_ : Run Unit) : Action (Scanned Unit) :=
  return { signals := [interrupt], outcome := .ok () }

/-- A signal that is listed twice is heard by two listeners, and each of them exits. -/
theorem exits_listedTwice :
    ∃ r w', withGuard repoGuard [interrupt, interrupt] interruptedScan dirtyWorld = (.ok r, w') ∧
      r.exits = [130, 130] ∧ r.result? = some (.ok ()) :=
  ⟨_, _, rfl, rfl, rfl⟩

theorem withGuard_dirtyWorld :
    (∃ e w', withGuard repoGuard [interrupt] interruptedScan gitlessWorld = (.error e, w')) ∧
    ∃ (r : Run Unit) (w' : World),
      withGuard repoGuard [interrupt] interruptedScan dirtyWorld = (.ok r, w') ∧
        repoGuard.pops w' = 1 ∧ r.listeners = [] ∧ r.exits = [130] ∧ r.result? = some (.ok ()) := by
  constructor
  · have hfails : repoGuard.ListFails gitlessWorld := ⟨.other "no git".toList, rfl, nofun⟩
    obtain ⟨e, w', -, -, hrun⟩ :=
      (withGuard_restores_once (α := Unit) "/repo".toList "L".toList [interrupt] gitlessWorld).1
        (.inl hfails)
    exact ⟨e, w', hrun interruptedScan⟩
  · have hpushes := pushes_dirtyWorld
    obtain ⟨-, hworks, honce⟩ :=
      withGuard_restores_once (α := Unit) "/repo".toList "L".toList [interrupt] dirtyWorld
    obtain ⟨pushed, g', w₁, hpushed, hacquire, hkeeps, hplays⟩ := hworks hpushes.not_fails
    obtain rfl : pushed = true := hpushed.mpr hpushes
    obtain ⟨events, r, w', hrun, hcourse, hdelivered, hended, hanswered⟩ :=
      hplays interruptedScan { signals := [interrupt], outcome := .ok () } w₁ rfl rfl
    obtain ⟨calls, hpopped⟩ := hanswered rfl
    have hgit : w₁.git = dirtyWorld.git := congrArg (fun x => x.2.git) hacquire.symm
    rw [hgit] at hpopped
    have hkept := hkeeps events r w' hcourse
    have hpops : repoGuard.pops w' = _ := hkept.pops
    have hheard : Event.heard [interrupt] events = [interrupt] := by
      rw [honce (List.nodup_singleton _) events fun s hs => by simpa [hdelivered] using hs,
        hdelivered]
    refine ⟨r, w', hrun, ?_, ?_, ?_, ?_⟩
    · rw [hpops, if_pos ⟨rfl, .inr (by rw [hended]; rfl)⟩]
      rfl
    · rw [hkept.listeners, hended]
      rfl
    · rw [hkept.exits, hheard, if_neg (by simp [hpopped])]
      rfl
    · rw [hkept.result, hended, hpopped]
      rfl

end Run

end PackageHistory.Shelf
