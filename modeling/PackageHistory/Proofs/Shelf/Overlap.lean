import PackageHistory.Proofs.Shelf.Guard

/-!
# Calls that overlap

Several callers may acquire and release one guard, each going on whenever git has answered it. However
their turns fall, a pop is started only for a push of this guard that has succeeded.
-/

namespace PackageHistory.Shelf

/-! ## Turns -/

/-- Where a call of `acquire` stands. -/
inductive Acquiring where
  | listing
  | pushing
  /-- Git has answered the push, and the call has not gone on yet. -/
  | answered (answer : Except Failure Text)
  | finished (outcome : Except Failure Unit)

/-- Git has stashed for the call, and the guard does not know yet. -/
def Acquiring.hasPushed : Acquiring → Bool
  | answered answer => answer.isOk
  | _ => false

/-- What happens next; calls of `acquire` go by the order in which they were made. -/
inductive Turn where
  | acquire
  /-- A call goes on with what git has listed. -/
  | listed (call : Nat) (answer : Except Failure Text)
  /-- Git answers the push of a call. -/
  | pushed (call : Nat) (answer : Except Failure Text)
  /-- A call goes on after its push was answered. -/
  | resumed (call : Nat)
  | release
  | popped (place : Nat) (answer : Except Failure Text)

/-- A guard in the hands of several callers. -/
structure Sharing where
  guard : Guard
  world : World
  acquires : List Acquiring := []
  /-- What git has answered to pushes, latest first. -/
  pushAnswers : List (Except Failure Text) := []

namespace Sharing

def pushes (s : Sharing) : Nat := s.pushAnswers.countP (·.isOk)

/-- How many pushes have succeeded that the guard does not know of yet. -/
def unseen (s : Sharing) : Nat := s.acquires.countP (·.hasPushed)

/-- A turn that is not this call's to take changes nothing. -/
def step (s : Sharing) : Turn → Sharing
  | .acquire =>
    { s with world := s.world.asked s.guard.listCall, acquires := s.acquires ++ [.listing] }
  | .listed call answer =>
    match s.acquires[call]?, Guard.afterListing answer with
    | some .listing, .push =>
      { s with world := s.world.asked s.guard.pushCall, acquires := s.acquires.set call .pushing }
    | some .listing, .finished outcome =>
      { s with acquires := s.acquires.set call (.finished outcome) }
    | _, _ => s
  | .pushed call answer =>
    match s.acquires[call]? with
    | some .pushing =>
      { s with
        pushAnswers := answer :: s.pushAnswers
        acquires := s.acquires.set call (.answered answer) }
    | _ => s
  | .resumed call =>
    match s.acquires[call]? with
    | some (.answered answer) =>
      let (guard, outcome) := s.guard.afterPush answer
      { s with guard, acquires := s.acquires.set call (.finished outcome) }
    | _ => s
  | .release =>
    let guard := s.guard.release.1
    { s with guard, world := (Guard.popStarted s.guard guard s.world).2 }
  | .popped place answer =>
    match s.guard.restores[place]? with
    | some .pending => { s with guard := s.guard.settle place answer }
    | _ => s

def run (s : Sharing) (turns : List Turn) : Sharing := turns.foldl step s

/-! ## Pushes and pops -/

/-- Every pop that was started, the stash the guard holds and those it does not know of yet have each a
push of their own. -/
structure Balanced (g : Guard) (w : World) (s : Sharing) : Prop where
  location : s.guard.location = g.location
  pushed : g.pops s.world + s.guard.shelved.toNat + s.unseen ≤ g.pops w + s.pushes

variable {g : Guard} {w : World} {s : Sharing}

theorem popCall_eq (h : s.guard.location = g.location) : s.guard.popCall = g.popCall := by
  rw [Guard.popCall, Guard.popCall, h]

theorem pops_asked_listCall (h : s.guard.location = g.location) :
    g.pops (s.world.asked s.guard.listCall) = g.pops s.world :=
  Guard.pops_asked_of_ne (popCall_eq h ▸ s.guard.popCall_ne_listCall)

theorem pops_asked_pushCall (h : s.guard.location = g.location) :
    g.pops (s.world.asked s.guard.pushCall) = g.pops s.world :=
  Guard.pops_asked_of_ne (popCall_eq h ▸ s.guard.popCall_ne_pushCall)

/-- A call that goes from one place to another is counted at the new one. -/
theorem countP_set {call : Nat} {before : Acquiring} (h : s.acquires[call]? = some before)
    (after : Acquiring) :
    (s.acquires.set call after).countP (·.hasPushed) + before.hasPushed.toNat =
      s.unseen + after.hasPushed.toNat := by
  obtain ⟨hlt, hbefore⟩ := List.getElem?_eq_some_iff.mp h
  have hle : before.hasPushed.toNat ≤ s.unseen := by
    cases hpushed : before.hasPushed with
    | false => exact Nat.zero_le _
    | true => exact List.countP_pos_iff.mpr ⟨before, List.mem_of_getElem? h, hpushed⟩
  rw [List.countP_set hlt, hbefore]
  show s.unseen - _ + _ + _ = _
  cases hb : before.hasPushed <;> cases ha : after.hasPushed <;> simp [hb] at hle ⊢ <;> omega

theorem Balanced.listed (h : Balanced g w s) (call : Nat) (answer : Except Failure Text) :
    Balanced g w (s.step (.listed call answer)) := by
  have hpushed := h.pushed
  simp only [Sharing.step]
  split
  case h_1 hcall _ =>
    have hcount := countP_set hcall .pushing
    refine ⟨h.location, ?_⟩
    show _ + _ + (s.acquires.set call .pushing).countP (·.hasPushed) ≤ g.pops w + s.pushes
    rw [pops_asked_pushCall h.location, Nat.add_right_cancel hcount]
    exact hpushed
  case h_2 outcome hcall _ =>
    have hcount := countP_set hcall (.finished outcome)
    refine ⟨h.location, ?_⟩
    show _ + _ + (s.acquires.set call (.finished outcome)).countP (·.hasPushed) ≤ g.pops w + s.pushes
    rw [Nat.add_right_cancel hcount]
    exact hpushed
  case h_3 => exact h

theorem Balanced.answered (h : Balanced g w s) (call : Nat) (answer : Except Failure Text) :
    Balanced g w (s.step (.pushed call answer)) := by
  have hpushed := h.pushed
  simp only [Sharing.step]
  split
  case h_1 hcall =>
    have hcount := countP_set hcall (.answered answer)
    refine ⟨h.location, ?_⟩
    show _ + _ + (s.acquires.set call (.answered answer)).countP (·.hasPushed) ≤
      g.pops w + (answer :: s.pushAnswers).countP (·.isOk)
    -- The push is counted on both sides: as one that succeeded, and as one the guard has not seen.
    rw [Nat.add_right_cancel (m := 0) hcount, List.countP_cons]
    show _ + _ + (s.unseen + answer.isOk.toNat) ≤ g.pops w + (s.pushes + _)
    cases answer.isOk with
    | false => exact hpushed
    | true => exact Nat.succ_le_succ hpushed
  case h_2 => exact h

theorem Balanced.resumed (h : Balanced g w s) (call : Nat) :
    Balanced g w (s.step (.resumed call)) := by
  have hpushed := h.pushed
  simp only [Sharing.step]
  split
  case h_1 answer hcall =>
    have hcount : (s.acquires.set call (.finished (s.guard.afterPush answer).2)).countP (·.hasPushed) +
        answer.isOk.toNat = s.unseen :=
      countP_set hcall _
    -- Only an inequality: a guard that holds a stash already does not count the second one.
    have hlearns : (s.guard.afterPush answer).1.shelved.toNat ≤
        s.guard.shelved.toNat + answer.isOk.toNat := by
      cases answer with
      | ok output => exact Nat.le_add_left _ _
      | error e => cases e <;> exact Nat.le_add_right _ _
    have hlocation : (s.guard.afterPush answer).1.location = s.guard.location := by
      cases answer with
      | ok output => rfl
      | error e => cases e <;> rfl
    refine ⟨hlocation.trans h.location, ?_⟩
    show g.pops s.world + (s.guard.afterPush answer).1.shelved.toNat +
      (s.acquires.set call (.finished (s.guard.afterPush answer).2)).countP (·.hasPushed) ≤
        g.pops w + s.pushes
    omega
  case h_2 => exact h

theorem Balanced.released (h : Balanced g w s) : Balanced g w (s.step .release) := by
  have hpushed := h.pushed
  show Balanced g w { s with
    guard := s.guard.release.1, world := (Guard.popStarted s.guard s.guard.release.1 s.world).2 }
  cases hshelved : s.guard.shelved with
  | false =>
    have hrelease : s.guard.release.1 = s.guard := by simp [Guard.release, hshelved]
    rw [hrelease, Guard.popStarted_of_same rfl]
    exact h
  | true =>
    -- The stash that the guard held is now the pop that was started, so the sum stays.
    have hlength : s.guard.release.1.restores.length = s.guard.restores.length + 1 := by
      simp [Guard.release, hshelved]
    have hlocation : s.guard.release.1.location = g.location := by
      simp [Guard.release, hshelved, h.location]
    have hunshelved : s.guard.release.1.shelved = false := by simp [Guard.release, hshelved]
    have hcall : s.guard.release.1.popCall = g.popCall := by rw [Guard.popCall, hlocation, Guard.popCall]
    refine ⟨hlocation, ?_⟩
    rw [Guard.popStarted_of_one hlength, hcall, Guard.pops_asked_popCall]
    show _ + s.guard.release.1.shelved.toNat + s.unseen ≤ g.pops w + s.pushes
    rw [hshelved] at hpushed
    rw [hunshelved]
    exact hpushed

theorem Balanced.step (h : Balanced g w s) (turn : Turn) : Balanced g w (s.step turn) := by
  have hpushed := h.pushed
  cases turn with
  | acquire =>
    refine ⟨h.location, ?_⟩
    show g.pops (s.world.asked s.guard.listCall) + s.guard.shelved.toNat +
      (s.acquires ++ [Acquiring.listing]).countP Acquiring.hasPushed ≤ g.pops w + s.pushes
    rw [pops_asked_listCall h.location, List.countP_append]
    exact hpushed
  | listed call answer => exact h.listed call answer
  | pushed call answer => exact h.answered call answer
  | resumed call => exact h.resumed call
  | release => exact h.released
  | popped place answer =>
    simp only [Sharing.step]
    split
    · exact ⟨h.location, hpushed⟩
    · exact h

theorem Balanced.run (h : Balanced g w s) (turns : List Turn) : Balanced g w (s.run turns) := by
  induction turns generalizing s with
  | nil => exact h
  | cons turn rest ih => exact ih (h.step turn)

def start (g : Guard) (w : World) : Sharing := { guard := g, world := w }

/-- In every order of calls and answers, a new guard has started no more pops than it has pushed, and one
less while it holds a stash. -/
theorem pops_le_pushes (location label : Text) (w : World) (turns : List Turn) :
    let g : Guard := { location, label }
    let s := (start g w).run turns
    g.pops s.world ≤ g.pops w + s.pushes ∧
      (s.guard.shelved = true → g.pops s.world + 1 ≤ g.pops w + s.pushes) := by
  intro g s
  have hstart : Balanced g w (start g w) := ⟨rfl, Nat.le_refl _⟩
  have hpushed : g.pops s.world + s.guard.shelved.toNat + s.unseen ≤ g.pops w + s.pushes :=
    (hstart.run turns).pushed
  refine ⟨by omega, fun hshelved => ?_⟩
  have hholds : s.guard.shelved.toNat = 1 := by rw [hshelved]; rfl
  omega

/-- Releases that come before the guard knows of its stash leave it there. -/
example (g : Guard) (w : World) :
    let s := (start { g with shelved := false } w).run
      [.acquire, .listed 0 (.ok ['a']), .release, .pushed 0 (.ok []), .release, .resumed 0]
    s.pushes = 1 ∧ s.guard.shelved = true ∧ s.guard.restores = g.restores :=
  ⟨rfl, rfl, rfl⟩

/-! ## Calls that do not overlap -/

/-- The turns of one call, with what git answers to it. -/
def soloTurns (g : Guard) (w : World) : List Turn :=
  [.acquire, .listed 0 (w.git.run w.calls g.listCall), .pushed 0 (g.pushAnswer w), .resumed 0]

/-- An acquire that no other call comes in between of is these turns. -/
theorem acquire_eq_run (g : Guard) (w : World) :
    let s := (start g w).run (soloTurns g w)
    ∃ outcome, s.acquires = [.finished outcome] ∧
      g.acquire w = (outcome.map fun _ => s.guard, s.world) := by
  rw [Guard.acquire_apply]
  simp only [run, soloTurns, List.foldl_cons, List.foldl_nil, start, step]
  cases Guard.afterListing (w.git.run w.calls g.listCall) with
  | finished outcome => exact ⟨outcome, rfl, rfl⟩
  | push => exact ⟨_, rfl, rfl⟩

end Sharing

end PackageHistory.Shelf
