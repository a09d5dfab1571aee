import FormalGrammars.Proofs.Search.Decision

/-!
# A guarded search keeps to the free one

A search may be stopped while it expands a form.  Then it has added only the
first of the forms that the free search adds in this step, so its history is
the beginning of the free one.  Until then both searches have the same history,
queue and status after the same number of steps.
-/

namespace FormalGrammars

/-! ## The search -/

namespace Search

variable {search free first : Search} {count : Nat}

theorem growsTo_expand (checkpoint : Checkpoint) (parent : Nat) (form : Form)
    (steps : List Step) (search : Search) :
    search.history.GrowsTo
      (search.expand checkpoint parent form steps).history := by
  refine expand_keeps (motive := fun later : Search =>
    search.history.GrowsTo later.history) ?_ ?_ (.refl _)
  · intro later guard hlater _
    exact hlater
  · intro later step next guard _ hlater _ _
    have hadded := hlater.trans (.addChild later.history parent next step)
    exact ⟨hadded, hadded⟩

theorem growsTo_step (checkpoint : Checkpoint) (search : Search) :
    search.history.GrowsTo (search.step checkpoint).history := by
  have hstepped := stepped checkpoint search
  generalize search.step checkpoint = last at hstepped
  cases hstepped with
  | ended => exact .refl _
  | cancelled => exact .refl _
  | exhausted => exact .refl _
  | @expanded _ _ number queue hqueue =>
      exact growsTo_expand checkpoint _ _ _ { search with queue := queue }

/-- Nobody has cancelled the search, and nothing has stopped it. -/
structure Unhindered (search : Search) : Prop where
  not_cancelled : search.guard.cancelled = false
  not_stopped : search.status ≠ .abandoned

theorem Unhindered.expand (hsearch : search.Unhindered) (parent : Nat)
    (form : Form) (steps : List Step) :
    (search.expand .always parent form steps).Unhindered := by
  refine expand_keeps (motive := Unhindered) ?_ ?_ hsearch
  · intro later guard hlater hadvance
    have hleave := (Guard.advance_always hlater.not_cancelled).1
    rw [hadvance] at hleave
    cases hleave
  · intro later step next guard _ hlater _ hadvance
    have hguard := (Guard.advance_always hlater.not_cancelled).2
    rw [hadvance] at hguard
    exact ⟨⟨hguard, hlater.not_stopped⟩, hguard, by simp [Search.found]⟩

theorem Unhindered.step (hsearch : search.Unhindered) :
    (search.step .always).Unhindered := by
  have hstepped := stepped .always search
  generalize search.step .always = last at hstepped
  cases hstepped with
  | ended => exact hsearch
  | cancelled _ hcancelled =>
      rw [hsearch.not_cancelled] at hcancelled
      cases hcancelled
  | exhausted => exact ⟨hsearch.not_cancelled, by simp⟩
  | @expanded _ _ number queue hqueue =>
      have htaken : Unhindered { search with queue := queue } :=
        ⟨hsearch.not_cancelled, hsearch.not_stopped⟩
      exact htaken.expand _ _ _

/-- The same search but for the guard and for what was handed out, where the
guard of the second one was not cancelled. -/
structure Alike (search free : Search) : Prop where
  not_cancelled : free.guard.cancelled = false
  plan_eq : search.plan = free.plan
  history_eq : search.history = free.history
  queue_eq : search.queue = free.queue
  status_eq : search.status = free.status

structure Stopped (search free : Search) : Prop where
  status_eq : search.status = .abandoned
  history : search.history.GrowsTo free.history

def InStep (search free : Search) : Prop :=
  search.Alike free ∨ search.Stopped free

theorem InStep.growsTo (hstep : search.InStep free) :
    search.history.GrowsTo free.history := by
  rcases hstep with halike | hstopped
  · rw [halike.history_eq]
    exact .refl _
  · exact hstopped.history

theorem InStep.alike (hstep : search.InStep free)
    (hgoing : search.status ≠ .abandoned) : search.Alike free := by
  rcases hstep with halike | hstopped
  · exact halike
  · exact absurd hstopped.status_eq hgoing

theorem Alike.withGuard (halike : search.Alike free) (guard : Guard) :
    Alike { search with guard := guard } free :=
  ⟨halike.not_cancelled, halike.plan_eq, halike.history_eq, halike.queue_eq,
    halike.status_eq⟩

theorem Alike.hasSeen_eq (halike : search.Alike free) (form : Form) :
    search.hasSeen form = free.hasSeen form := by
  rw [hasSeen, halike.history_eq, hasSeen]

theorem Alike.expand (halike : search.Alike free) (checkpoint : Checkpoint)
    (parent : Nat) (form : Form) (steps : List Step) :
    (search.expand checkpoint parent form steps).InStep
      (free.expand .always parent form steps) := by
  induction steps generalizing search free with
  | nil => exact .inl halike
  | cons step steps ih =>
      unfold Search.expand
      cases Form.rewrite? form step with
      | none => exact ih halike
      | some next =>
          simp only [halike.plan_eq, halike.hasSeen_eq]
          split
          next => exact ih halike
          next =>
            obtain ⟨hleave, hguard⟩ := Guard.advance_always halike.not_cancelled
            have hadded := History.GrowsTo.addChild free.history parent next step
            have hhistory := halike.history_eq
            by_cases htarget : next = free.plan.target
            · -- the target ends both searches, unless the guard is first
              simp only [hleave, if_pos htarget, if_true, hhistory]
              cases (search.guard.advance checkpoint).1 with
              | false => exact .inr ⟨rfl, hadded⟩
              | true =>
                  exact .inl ⟨hguard, rfl, rfl, halike.queue_eq, rfl⟩
            · simp only [hleave, if_neg htarget, if_true, hhistory]
              cases (search.guard.advance checkpoint).1 with
              | false =>
                  have hlater := growsTo_expand .always parent form steps
                    (free.grow (free.guard.advance .always).2 parent next step)
                  exact .inr ⟨rfl, hadded.trans hlater⟩
              | true =>
                  refine ih ⟨hguard, rfl, rfl, ?_, halike.status_eq⟩
                  simp only [halike.queue_eq]

/-! ## Steps in lockstep -/

theorem Alike.take (halike : search.Alike free) (queue : List Nat) :
    Alike { search with queue := queue } { free with queue := queue } :=
  ⟨halike.not_cancelled, halike.plan_eq, halike.history_eq, rfl,
    halike.status_eq⟩

/-- What was stopped stays so, and the free search keeps its history. -/
theorem Stopped.stepInTwo (hstopped : search.Stopped free)
    (change : Guard → Guard) (checkpoint : Checkpoint) (count : Nat) :
    (search.stepInTwo change checkpoint count).Stopped (free.step .always) := by
  have hfinal : search.status.isFinal = true := by
    rw [hstopped.status_eq]
    rfl
  rw [Search.stepInTwo, if_pos hfinal]
  exact ⟨hstopped.status_eq, hstopped.history.trans (growsTo_step _ _)⟩

theorem InStep.withGuard (hstep : search.InStep free) (guard : Guard) :
    InStep { search with guard := guard } free := by
  rcases hstep with halike | hstopped
  · exact .inl (halike.withGuard guard)
  · exact .inr ⟨hstopped.status_eq, hstopped.history⟩

theorem InStep.withEmitted (hstep : search.InStep free) (emitted : Nat) :
    InStep { search with emitted := emitted } free := by
  rcases hstep with halike | hstopped
  · exact .inl ⟨halike.not_cancelled, halike.plan_eq, halike.history_eq,
      halike.queue_eq, halike.status_eq⟩
  · exact .inr ⟨hstopped.status_eq, hstopped.history⟩

/-- The second half of an expansion, after a change of the guard. -/
theorem InStep.expand (hstep : search.InStep free) (change : Guard → Guard)
    (checkpoint : Checkpoint) (parent : Nat) (form : Form)
    (steps : List Step) :
    InStep
      (if search.status.isFinal then search
        else { search with guard := change search.guard }.expand checkpoint
          parent form steps)
      (if free.status.isFinal then free
        else free.expand .always parent form steps) := by
  rcases hstep with halike | hstopped
  · by_cases hfinal : free.status.isFinal = true
    · have hended := halike.status_eq ▸ hfinal
      rw [if_pos hfinal, if_pos hended]
      exact .inl halike
    · have hgoing := halike.status_eq ▸ hfinal
      rw [if_neg hfinal, if_neg hgoing]
      exact (halike.withGuard (change search.guard)).expand checkpoint parent
        form steps
  · have hended : search.status.isFinal = true := by
      rw [hstopped.status_eq]
      rfl
    rw [if_pos hended]
    split
    next => exact .inr hstopped
    next =>
      exact .inr ⟨hstopped.status_eq,
        hstopped.history.trans (growsTo_expand _ _ _ _ _)⟩

theorem Alike.stepInTwo (halike : search.Alike free) (change : Guard → Guard)
    (checkpoint : Checkpoint) (count : Nat) :
    (search.stepInTwo change checkpoint count).InStep (free.step .always) := by
  by_cases hfinal : free.status.isFinal = true
  · rw [step_of_isFinal hfinal, Search.stepInTwo,
      if_pos (halike.status_eq ▸ hfinal)]
    exact .inl halike
  by_cases hcancelled : search.guard.cancelled = true
  · rw [Search.stepInTwo, if_neg (halike.status_eq ▸ hfinal),
      if_pos hcancelled]
    exact .inr ⟨rfl, halike.history_eq ▸ growsTo_step .always free⟩
  have hfree : ¬ free.guard.cancelled = true := by
    rw [halike.not_cancelled]
    exact Bool.false_ne_true
  rw [step_eq_stepInTwo .always count, Search.stepInTwo, Search.stepInTwo,
    if_neg (halike.status_eq ▸ hfinal), if_neg hcancelled, if_neg hfinal,
    if_neg hfree, halike.queue_eq]
  cases free.queue with
  | nil =>
      exact .inl ⟨halike.not_cancelled, halike.plan_eq, halike.history_eq,
        rfl, rfl⟩
  | cons number queue =>
      have hform : search.history.form number = free.history.form number := by
        rw [halike.history_eq]
      have hoptions : search.plan.options = free.plan.options := by
        rw [halike.plan_eq]
      simp only [hform, hoptions]
      exact ((halike.take queue).expand checkpoint number _ _).expand change
        checkpoint number _ _

theorem InStep.stepInTwo (hstep : search.InStep free) (change : Guard → Guard)
    (checkpoint : Checkpoint) (count : Nat) :
    (search.stepInTwo change checkpoint count).InStep (free.step .always) := by
  rcases hstep with halike | hstopped
  · exact halike.stepInTwo change checkpoint count
  · exact .inr (hstopped.stepInTwo change checkpoint count)

/-- The states that a search comes to in so many steps. -/
inductive ReachedIn (first : Search) : Nat → Search → Prop where
  | now : ReachedIn first 0 first
  | step {count : Nat} {search : Search} (checkpoint : Checkpoint)
      (hreached : ReachedIn first count search) :
      ReachedIn first (count + 1) (search.step checkpoint)
  | cancel {count : Nat} {search : Search}
      (hreached : ReachedIn first count search) :
      ReachedIn first count search.cancel
  /-- The cancellation comes after so many options of the step. -/
  | cancelDuring {count : Nat} {search : Search} (checkpoint : Checkpoint)
      (tried : Nat) (hreached : ReachedIn first count search) :
      ReachedIn first (count + 1)
        (search.stepInTwo Guard.cancel checkpoint tried)
  | handOut {count : Nat} {search : Search}
      (hreached : ReachedIn first count search) :
      ReachedIn first count { search with emitted := search.emitted + 1 }

theorem inStep_of_reachedIn (hreached : ReachedIn first count search)
    (hfirst : first.InStep free) :
    search.InStep (stepTimes (Search.step .always) count free) := by
  induction hreached with
  | now => exact hfirst
  | step checkpoint _ ih =>
      rw [stepTimes_succ_eq_step, step_eq_stepInTwo checkpoint 0]
      exact ih.stepInTwo id checkpoint 0
  | cancel _ ih => exact ih.withGuard _
  | cancelDuring checkpoint tried _ ih =>
      rw [stepTimes_succ_eq_step]
      exact ih.stepInTwo Guard.cancel checkpoint tried
  | handOut _ ih => exact ih.withEmitted _

theorem Reached.exists_reachedIn (hreached : Reached first search) :
    ∃ count, ReachedIn first count search := by
  induction hreached with
  | now => exact ⟨0, .now⟩
  | step checkpoint _ ih =>
      rcases ih with ⟨count, hreached⟩
      exact ⟨count + 1, hreached.step checkpoint⟩
  | cancel _ ih =>
      rcases ih with ⟨count, hreached⟩
      exact ⟨count, hreached.cancel⟩
  | cancelDuring checkpoint tried _ ih =>
      rcases ih with ⟨count, hreached⟩
      exact ⟨count + 1, hreached.cancelDuring checkpoint tried⟩
  | handOut _ ih =>
      rcases ih with ⟨count, hreached⟩
      exact ⟨count, hreached.handOut⟩

/-- Searches for the same target begin alike, whatever their schedules are. -/
theorem exists_start_alike {g : Grammar} {start : Symbol}
    (hstart : g.start = some start) (target : Form)
    (schedule other : Schedule) :
    ∃ first last, Search.start g target schedule = .ok first ∧
      Search.start g target other = .ok last ∧ first.Alike last ∧
      last.Unhindered := by
  unfold Search.start
  rw [Grammar.requireStart_eq_ok_iff.mpr hstart]
  refine ⟨_, _, rfl, rfl, ⟨rfl, rfl, rfl, rfl, rfl⟩, rfl, ?_⟩
  simp only
  split <;> simp

theorem reachedIn_stepTimes (checkpoint : Checkpoint) (count : Nat) :
    ReachedIn first count (stepTimes (Search.step checkpoint) count first) := by
  induction count with
  | zero => exact .now
  | succ count ih =>
      rw [stepTimes_succ_eq_step]
      exact ih.step checkpoint

end Search

end FormalGrammars
