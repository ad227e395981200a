import PackageHistory.Proofs.Action
import PackageHistory.Shelf.Guard

/-!
# Guards and what they ask of git

An acquired guard has shelved the changes or found none. From then on it goes through stages: it is
the first release that starts the pop, and the answer to the pop that ends it.
-/

namespace PackageHistory.Shelf

namespace Guard

variable (g : Guard) (w : World)

/-! ## Commands -/

def listCall : GitCall := ⟨.run, listArgs, g.location⟩
def pushCall : GitCall := ⟨.run, pushArgs g.label, g.location⟩
def popCall : GitCall := ⟨.run, popArgs, g.location⟩

theorem popCall_ne_listCall : g.popCall ≠ g.listCall := by
  simp [popCall, listCall, popArgs, listArgs]

theorem popCall_ne_pushCall : g.popCall ≠ g.pushCall := by
  simp [popCall, pushCall, popArgs, pushArgs]

/-- How many pops were asked for. -/
def pops : Nat := w.calls.count g.popCall

variable {g w} in
theorem pops_asked_of_ne {call : GitCall} (h : g.popCall ≠ call) :
    g.pops (w.asked call) = g.pops w :=
  List.count_cons_of_ne h.symm

theorem pops_asked_popCall : g.pops (w.asked g.popCall) = g.pops w + 1 :=
  List.count_cons_self

/-! ## Acquiring -/

/-- Git cannot list the changes, and not because the command failed. -/
def ListFails : Prop := ∃ e, w.git.run w.calls g.listCall = .error e ∧ ∀ c, e ≠ .gitCommand c

def HasChanges : Prop :=
  ∃ output, w.git.run w.calls g.listCall = .ok output ∧ output.trim.isEmpty = false

def pushAnswer : Except Failure Text := w.git.run (g.listCall :: w.calls) g.pushCall

/-- The changes are stashed. -/
def Pushes : Prop := g.HasChanges w ∧ ∃ output, g.pushAnswer w = .ok output

/-- Git is asked to stash the changes and fails. -/
def PushFails : Prop := g.HasChanges w ∧ ∃ e, g.pushAnswer w = .error e

/-- The guard whose changes are stashed. -/
def shelve : Guard := { g with shelved := true, joined := none }

variable {g w}

theorem Pushes.not_fails (h : g.Pushes w) : ¬ (g.ListFails w ∨ g.PushFails w) := by
  obtain ⟨⟨output, hlist, -⟩, pushed, hpush⟩ := h
  rintro (⟨e, he, -⟩ | ⟨-, e, he⟩)
  · rw [hlist] at he
    cases he
  · rw [hpush] at he
    cases he

theorem acquire_of_error {e : Failure} (h : w.git.run w.calls g.listCall = .error e) :
    (∀ c, e ≠ .gitCommand c) ∧ g.acquire w = (.error e, w.asked g.listCall) ∨
      (∃ c, e = .gitCommand c) ∧ g.acquire w = (.ok g, w.asked g.listCall) := by
  have hlist : (Action.runGit listArgs g.location).attempt w =
      (.ok (.error e), w.asked g.listCall) := by
    rw [Action.attempt_apply, Action.runGit_apply, ← h]
    rfl
  unfold acquire
  rw [Action.bind_of_ok hlist]
  cases e with
  | gitCommand c => exact .inr ⟨⟨c, rfl⟩, rfl⟩
  | _ => exact .inl ⟨nofun, rfl⟩

theorem acquire_of_blank {output : Text} (h : w.git.run w.calls g.listCall = .ok output)
    (hblank : output.trim.isEmpty = true) : g.acquire w = (.ok g, w.asked g.listCall) := by
  have hlist : (Action.runGit listArgs g.location).attempt w =
      (.ok (.ok output), w.asked g.listCall) := by
    rw [Action.attempt_apply, Action.runGit_apply, ← h]
    rfl
  unfold acquire
  rw [Action.bind_of_ok hlist, afterListing, if_pos hblank]
  rfl

theorem acquire_of_changes (h : g.HasChanges w) :
    (∃ output, g.pushAnswer w = .ok output) ∧
        g.acquire w = (.ok g.shelve, (w.asked g.listCall).asked g.pushCall) ∨
      (∃ e, g.pushAnswer w = .error e) ∧
        ∃ e, g.acquire w = (.error e, (w.asked g.listCall).asked g.pushCall) := by
  obtain ⟨output, hlist, hfilled⟩ := h
  have hlisted : (Action.runGit listArgs g.location).attempt w =
      (.ok (.ok output), w.asked g.listCall) := by
    rw [Action.attempt_apply, Action.runGit_apply, ← hlist]
    rfl
  have hpushed : (Action.runGit (pushArgs g.label) g.location).attempt (w.asked g.listCall) =
      (.ok (g.pushAnswer w), (w.asked g.listCall).asked g.pushCall) := rfl
  unfold acquire
  rw [Action.bind_of_ok hlisted, afterListing, if_neg (by simp [hfilled])]
  dsimp only
  rw [Action.bind_of_ok hpushed]
  cases g.pushAnswer w with
  | ok output => exact .inl ⟨⟨output, rfl⟩, rfl⟩
  | error e => cases e <;> exact .inr ⟨⟨_, rfl⟩, _, rfl⟩

/-- What git answers to the listing and to the push settles an acquire. -/
theorem acquire_apply (g : Guard) (w : World) :
    g.acquire w =
      match afterListing (w.git.run w.calls g.listCall) with
      | .finished outcome => (outcome.map fun _ => g, w.asked g.listCall)
      | .push =>
        ((g.afterPush (g.pushAnswer w)).2.map fun _ => (g.afterPush (g.pushAnswer w)).1,
          (w.asked g.listCall).asked g.pushCall) := by
  have hlist : (Action.runGit listArgs g.location).attempt w =
      (.ok (w.git.run w.calls g.listCall), w.asked g.listCall) := rfl
  have hpush : (Action.runGit (pushArgs g.label) g.location).attempt (w.asked g.listCall) =
      (.ok (g.pushAnswer w), (w.asked g.listCall).asked g.pushCall) := rfl
  unfold acquire
  rw [Action.bind_of_ok hlist]
  cases afterListing (w.git.run w.calls g.listCall) with
  | finished outcome => cases outcome <;> rfl
  | push =>
    dsimp only
    rw [Action.bind_of_ok hpush]
    cases g.pushAnswer w with
    | ok output => rfl
    | error e => cases e <;> rfl

/-- An acquire fails, finds nothing to shelve or shelves, and pops nothing. -/
theorem acquire_cases (g : Guard) (w : World) :
    ((g.ListFails w ∨ g.PushFails w) ∧ ∃ e w', g.acquire w = (.error e, w') ∧ g.pops w' = g.pops w) ∨
      (¬ (g.ListFails w ∨ g.PushFails w) ∧ ¬ g.Pushes w ∧
        ∃ w', g.acquire w = (.ok g, w') ∧ g.pops w' = g.pops w) ∨
      (g.Pushes w ∧ ∃ w', g.acquire w = (.ok g.shelve, w') ∧ g.pops w' = g.pops w) := by
  have hlisted : g.pops (w.asked g.listCall) = g.pops w := pops_asked_of_ne g.popCall_ne_listCall
  have hpushed : g.pops ((w.asked g.listCall).asked g.pushCall) = g.pops w :=
    (pops_asked_of_ne g.popCall_ne_pushCall).trans hlisted
  cases hlist : w.git.run w.calls g.listCall with
  | error e =>
    have hnone : ¬ g.HasChanges w := by
      rintro ⟨output, h, -⟩
      rw [hlist] at h
      cases h
    rcases acquire_of_error hlist with ⟨he, hacquire⟩ | ⟨⟨c, rfl⟩, hacquire⟩
    · exact .inl ⟨.inl ⟨e, hlist, he⟩, e, _, hacquire, hlisted⟩
    · refine .inr (.inl ⟨?_, fun h => hnone h.1, _, hacquire, hlisted⟩)
      rintro (⟨e, h, hne⟩ | h)
      · rw [hlist] at h
        cases h
        exact hne c rfl
      · exact hnone h.1
  | ok output =>
    have hlists : ¬ g.ListFails w := by
      rintro ⟨e, h, -⟩
      rw [hlist] at h
      cases h
    cases hblank : output.trim.isEmpty with
    | true =>
      have hnone : ¬ g.HasChanges w := by
        rintro ⟨output', h, hfilled⟩
        rw [hlist] at h
        cases h
        rw [hblank] at hfilled
        cases hfilled
      exact .inr (.inl ⟨not_or.mpr ⟨hlists, fun h => hnone h.1⟩, fun h => hnone h.1, _,
        acquire_of_blank hlist hblank, hlisted⟩)
    | false =>
      have hchanges : g.HasChanges w := ⟨output, hlist, hblank⟩
      rcases acquire_of_changes hchanges with ⟨hpush, hacquire⟩ | ⟨hpush, e, hacquire⟩
      · exact .inr (.inr ⟨⟨hchanges, hpush⟩, _, hacquire, hpushed⟩)
      · exact .inl ⟨.inr ⟨hchanges, hpush⟩, e, _, hacquire, hpushed⟩

/-! ## Popping -/

variable {before after : Guard}

theorem popStarted_of_same (h : after.restores.length = before.restores.length) :
    popStarted before after w = (.ok [], w) := by
  unfold popStarted
  rw [h, List.drop_of_length_le (by simp)]
  rfl

theorem popStarted_of_one (h : after.restores.length = before.restores.length + 1) :
    popStarted before after w =
      (.ok [(before.restores.length, w.git.run w.calls after.popCall)],
        w.asked after.popCall) := by
  have hplaces : (List.range after.restores.length).drop before.restores.length =
      [before.restores.length] := by
    rw [h, List.range_succ, List.drop_append_of_le_length (by simp),
      List.drop_of_length_le (by simp), List.nil_append]
  unfold popStarted
  rw [hplaces]
  rfl

end Guard

/-! ## Stages -/

/-- What has become of the changes since a guard was acquired. -/
inductive Stage where
  /-- There were none to shelve. -/
  | unshelved
  | shelved
  /-- The pop has been asked for and not answered. -/
  | popping
  | popped (outcome : Except Failure Unit)

namespace Stage

/-- The stage of a guard that has just been acquired. -/
def acquired (pushed : Bool) : Stage := if pushed then shelved else unshelved

/-- The stage after a release. -/
def released : Stage → Stage
  | shelved => popping
  | stage => stage

/-- How the restore that a release joins has ended. With nothing shelved it is the one that was started
`before`. -/
def restored? (before : Except Failure Unit) : Stage → Option (Except Failure Unit)
  | unshelved => some before
  | shelved => none
  | popping => none
  | popped outcome => some outcome

def popCount : Stage → Nat
  | unshelved => 0
  | shelved => 0
  | popping => 1
  | popped _ => 1

/-- One stage leads to another, and a pop is asked for only where there was something shelved. -/
def Leads (stage stage' : Stage) : Prop :=
  stage'.popCount = stage.popCount ∨ stage = shelved ∧ stage' = popping

theorem leads_released (stage : Stage) : stage.Leads stage.released := by
  cases stage <;> simp [Leads, released, popCount]

@[simp] theorem released_released (stage : Stage) : stage.released.released = stage.released := by
  cases stage <;> rfl

@[simp] theorem restored?_released (before : Except Failure Unit) (stage : Stage) :
    stage.released.restored? before = stage.restored? before := by
  cases stage <;> rfl

theorem released_eq {stage : Stage} (h : stage ≠ .shelved) : stage.released = stage := by
  cases stage with
  | shelved => exact absurd rfl h
  | _ => rfl

end Stage

namespace Guard

variable {g : Guard} {before : Except Failure Unit}

/-- The guard in a stage, from the one that was to be acquired. -/
def inStage (g : Guard) : Stage → Guard
  | .unshelved => g
  | .shelved => g.shelve
  | .popping => { g with restores := g.restores ++ [.pending], joined := some g.restores.length }
  | .popped outcome =>
    { g with restores := g.restores ++ [.settled outcome], joined := some g.restores.length }

/-- The place of the restore that a release joins. -/
def placeIn (g : Guard) : Stage → Option Nat
  | .unshelved => g.joined
  | .shelved => none
  | .popping => some g.restores.length
  | .popped _ => some g.restores.length

/-- Nothing is shelved, every restore has ended, and `before` is how the one ended that releases
join. -/
structure AtRest (g : Guard) (before : Except Failure Unit) : Prop where
  unshelved : g.shelved = false
  settled : .pending ∉ g.restores
  ended : g.outcome? g.joined = some before

theorem release_inStage (h : g.AtRest before) (stage : Stage) :
    (g.inStage stage).release = (g.inStage stage.released, g.placeIn stage.released) := by
  have hunshelved := h.unshelved
  cases stage <;> simp [release, inStage, placeIn, shelve, Stage.released, hunshelved]

theorem outcome?_inStage (h : g.AtRest before) (stage : Stage) :
    (g.inStage stage.released).outcome? (g.placeIn stage.released) =
      stage.released.restored? before := by
  have hended := h.ended
  cases stage <;> simp [outcome?, inStage, placeIn, Stage.released, Stage.restored?]
  exact hended

theorem settle_inStage (g : Guard) (answer : Except Failure Text) :
    (g.inStage .popping).settle g.restores.length answer =
      g.inStage (.popped (popOutcome g.label answer)) := by
  simp [settle, inStage]

/-- The one pop that can be answered. -/
theorem pending_inStage {stage : Stage} {place : Nat} (h : g.AtRest before)
    (hpending : (g.inStage stage).restores[place]? = some .pending) :
    stage = .popping ∧ place = g.restores.length := by
  have hold : g.restores[place]? ≠ some .pending := fun hmem =>
    h.settled (List.mem_of_getElem? hmem)
  cases stage with
  | unshelved => exact absurd hpending hold
  | shelved => exact absurd hpending hold
  | popping =>
    refine ⟨rfl, ?_⟩
    rcases Nat.lt_trichotomy place g.restores.length with hlt | heq | hgt
    · rw [inStage, List.getElem?_append_left hlt] at hpending
      exact absurd hpending hold
    · exact heq
    · rw [inStage, List.getElem?_eq_none (by simp; omega)] at hpending
      cases hpending
  | popped outcome =>
    have hmem := List.mem_of_getElem? hpending
    simp [inStage, h.settled] at hmem

theorem length_restores_inStage (g : Guard) (stage : Stage) :
    (g.inStage stage).restores.length = g.restores.length + stage.popCount := by
  cases stage <;> simp [inStage, shelve, Stage.popCount]

@[simp] theorem popCall_inStage (g : Guard) (stage : Stage) :
    (g.inStage stage).popCall = g.popCall := by
  cases stage <;> rfl

@[simp] theorem pops_inStage (g : Guard) (stage : Stage) (w : World) :
    (g.inStage stage).pops w = g.pops w := by
  rw [pops, popCall_inStage, pops]

/-- A release asks for a pop when there is something shelved. -/
theorem popStarted_shelved (g : Guard) (w : World) :
    popStarted (g.inStage .shelved) (g.inStage .popping) w =
      (.ok [(g.restores.length, w.git.run w.calls g.popCall)], w.asked g.popCall) := by
  have hlength : (g.inStage .popping).restores.length = (g.inStage .shelved).restores.length + 1 :=
    length_restores_inStage g .popping
  exact popStarted_of_one hlength

theorem popStarted_inStage {stage stage' : Stage} (h : stage'.popCount = stage.popCount)
    (w : World) : popStarted (g.inStage stage) (g.inStage stage') w = (.ok [], w) :=
  popStarted_of_same (by rw [length_restores_inStage, length_restores_inStage, h])

theorem pops_popStarted {stage stage' : Stage} (h : stage.Leads stage') (w : World) :
    g.pops (popStarted (g.inStage stage) (g.inStage stage') w).2 + stage.popCount =
      g.pops w + stage'.popCount := by
  rcases h with hsame | ⟨rfl, rfl⟩
  · rw [popStarted_inStage hsame, hsame]
  · rw [popStarted_shelved, pops_asked_popCall]
    rfl

/-- A guard that has not been used is at rest. -/
theorem atRest_unused (location label : Text) : ({ location, label } : Guard).AtRest (.ok ()) :=
  ⟨rfl, List.not_mem_nil, rfl⟩

/-- Where an acquire succeeds, the run starts from the guard in the stage that git's answers give. -/
theorem acquire_inStage {g : Guard} {w : World} (h : ¬ (g.ListFails w ∨ g.PushFails w)) :
    ∃ pushed w₁, (pushed = true ↔ g.Pushes w) ∧
      g.acquire w = (.ok (g.inStage (.acquired pushed)), w₁) ∧ g.pops w₁ = g.pops w := by
  rcases g.acquire_cases w with ⟨hfails, -⟩ | ⟨-, hnone, w₁, hacquire, hpops⟩ |
    ⟨hpushes, w₁, hacquire, hpops⟩
  · exact absurd hfails h
  · exact ⟨false, w₁, by simp [hnone], hacquire, hpops⟩
  · exact ⟨true, w₁, by simp [hpushes], hacquire, hpops⟩

end Guard

end PackageHistory.Shelf
