import PackageHistory.Proofs.Shelf.Restoring

/-!
# Interrupts while changes are shelved

The listeners of a run are there from the start of its scan to the end of it. Whoever is heard in between waits
for the pop. While the pop that follows the scan is under way nobody listens.
-/

namespace PackageHistory.Shelf.Run

variable {α : Type} {g g' : Guard} {before : Except Failure Unit} {watched : List Signal}
  {events : List (Event α)} {r : Run α} {w w₁ w' : World}

/-- A run whose changes are shelved, which begins with the scan, and whose pop has not been answered. Nobody has
exited. From the start of the scan until it ends every watched signal has its listeners: one that comes does not
exit at once, but does when git has answered, whatever the answer. From the end of the scan on there are no
listeners, and a signal is not heard by the run at all. -/
theorem interrupts_while_shelved (hrest : g.AtRest before) (hpushes : g.Pushes w)
    (hacquire : g.acquire w = (.ok g', w₁)) (hcourse : Course g' watched w₁ events r w')
    (hunanswered : Event.answered? events = none) :
    r.exits = [] ∧
      (Event.ended? events = none → r.listeners = watched ∧
        ∀ s ∈ watched, (r.step (.signal s)).exits = [] ∧
          ∀ answer, exitCode s ∈
            ((r.step (.signal s)).step (.popSettles g.restores.length answer)).exits) ∧
      ((Event.ended? events).isSome = true → r.listeners = [] ∧ ∀ s, r.step (.signal s) = r) := by
  obtain ⟨pushed, w₁', hpushed, hacquired, -⟩ := Guard.acquire_inStage hpushes.not_fails
  obtain rfl : pushed = true := hpushed.mpr hpushes
  obtain ⟨rfl, rfl⟩ : g' = g.inStage (.acquired true) ∧ w₁ = w₁' := by
    rw [hacquired] at hacquire
    cases hacquire
    exact ⟨rfl, rfl⟩
  have hkeeps := hcourse.keeps hrest
  refine ⟨?_, fun hscanning => ⟨?_, fun s hs => ?_⟩, fun hended => ⟨?_, fun s => ?_⟩⟩
  · rw [hkeeps.exits, if_pos ⟨rfl, hunanswered⟩]
  · rw [hkeeps.listeners, hscanning]
    rfl
  · have hsignal := hcourse.event (.signal s) trivial
    have hcount : watched.count s ≠ 0 := Nat.pos_iff_ne_zero.mp (List.count_pos_iff.mpr hs)
    have hnone : Event.answered? (events ++ [.signal s]) = none := by
      rw [Event.answered?_append, hunanswered]
      rfl
    -- The signal is heard, so it has released the guard if none before it had.
    have hstage : stageAfter g true watched (events ++ [.signal s]) = .popping := by
      have hreleases : Event.Releases watched (events ++ [.signal s]) :=
        (Event.releases_signal hscanning s).mpr (.inr hcount)
      simp [stageAfter, hnone, hreleases]
    refine ⟨by rw [(hsignal.keeps hrest).exits, if_pos ⟨rfl, hnone⟩], fun answer => ?_⟩
    have hsettled := hsignal.event _ (hsignal.allows_popSettles hrest hstage answer)
    rw [(hsettled.keeps hrest).exits, Event.answered?_append, hnone,
      Event.heard_of_other (.inr rfl), Event.heard_signal hscanning, if_neg (by simp [Event.answer?])]
    exact List.mem_map_of_mem (List.mem_append_right _ (List.mem_replicate.mpr ⟨hcount, rfl⟩))
  · rw [hkeeps.listeners, if_pos hended]
  · obtain ⟨outcome, houtcome⟩ := Option.isSome_iff_exists.mp hended
    rw [(hcourse.stands hrest).1, houtcome]
    exact step_signal_of_ended hrest heard_of_stageAfter s outcome

/-- The scan has ended, git has not answered the pop, and an interrupt goes unheard. -/
theorem unheard_while_popping :
    repoGuard.Pushes dirtyWorld ∧
      ∃ (w₁ w' : World) (r : Run Unit), repoGuard.acquire dirtyWorld = (.ok repoGuard.shelve, w₁) ∧
        Course repoGuard.shelve [interrupt] w₁ [.scanEnds (.ok ())] r w' ∧
        repoGuard.pops w' = 1 ∧ r.guard.restores[0]? = some .pending ∧ r.result? = none ∧
        interrupt ∉ r.listeners ∧ (r.step (.signal interrupt)).waiting = [] := by
  refine ⟨pushes_dirtyWorld, _, _, _, rfl, Course.start.event (.scanEnds (.ok ())) rfl, ?_⟩
  exact ⟨rfl, rfl, rfl, List.not_mem_nil, rfl⟩

theorem interrupts_dirtyWorld :
    ∃ (w₁ w' : World) (r : Run Unit), repoGuard.Pushes dirtyWorld ∧
      repoGuard.acquire dirtyWorld = (.ok repoGuard.shelve, w₁) ∧
      Course repoGuard.shelve [interrupt] w₁ [.signal interrupt] r w' ∧
      r.exits = [] ∧ r.listeners = [interrupt] ∧
      130 ∈ ((r.step (.signal interrupt)).step (.popSettles 0 (.ok []))).exits ∧
      (r.step (.scanEnds (.ok ()))).listeners = [] := by
  have hrest : repoGuard.AtRest (.ok ()) := Guard.atRest_unused _ _
  obtain ⟨w₁, hacquire⟩ : ∃ w₁, repoGuard.acquire dirtyWorld = (.ok repoGuard.shelve, w₁) :=
    ⟨_, rfl⟩
  have hcourse : Course repoGuard.shelve [interrupt] w₁ [.signal interrupt] _ _ :=
    Course.start.event (α := Unit) (.signal interrupt) trivial
  have hended := hcourse.event (.scanEnds (.ok ())) rfl
  obtain ⟨hexits, hlistens, -⟩ :=
    interrupts_while_shelved hrest pushes_dirtyWorld hacquire hcourse rfl
  obtain ⟨hlisteners, hheard⟩ := hlistens rfl
  obtain ⟨-, -, hdeaf⟩ := interrupts_while_shelved hrest pushes_dirtyWorld hacquire hended rfl
  exact ⟨w₁, _, _, pushes_dirtyWorld, hacquire, hcourse, hexits, hlisteners,
    (hheard interrupt List.mem_cons_self).2 (.ok []), (hdeaf rfl).1⟩

end PackageHistory.Shelf.Run
