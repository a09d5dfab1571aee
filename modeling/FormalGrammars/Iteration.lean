/-!
# Runs of steps and repeated passes

The parsers and the search are run by single steps.  A state that is final
stays as it is, so it does not matter whether a run stops there.

The nullable variables, the productive variables, the FIRST sets and the closed
item sets are each the end of a repeated pass over the productions.  A caller
gives a bound on the number of passes that it knows to suffice, so stopping at
the first pass that changes nothing saves work and is not visible in the
result.
-/

namespace FormalGrammars

/-! ## Runs of steps -/

def stepTimes {α : Type} (step : α → α) : Nat → α → α
  | 0, state => state
  | count + 1, state => stepTimes step count (step state)

/-- The state after so many steps, or the first final one when that comes before. -/
def runFor {α : Type} (isFinal : α → Bool) (step : α → α) : Nat → α → α
  | 0, state => state
  | count + 1, state =>
    if isFinal state then state else runFor isFinal step count (step state)

section

variable {α : Type} {isFinal : α → Bool} {step : α → α}

theorem stepTimes_of_fixed {state : α} (hfixed : step state = state) (count : Nat) :
    stepTimes step count state = state := by
  induction count with
  | zero => rfl
  | succ count ih => rw [stepTimes, hfixed, ih]

theorem stepTimes_add (m n : Nat) (state : α) :
    stepTimes step (m + n) state = stepTimes step n (stepTimes step m state) := by
  induction m generalizing state with
  | zero => rw [Nat.zero_add, stepTimes]
  | succ m ih => rw [Nat.succ_add, stepTimes, ih, stepTimes]

theorem stepTimes_succ_eq_step (count : Nat) (state : α) :
    stepTimes step (count + 1) state = step (stepTimes step count state) :=
  stepTimes_add count 1 state

/-- A property that every step keeps holds after a run. -/
theorem stepTimes_induct {motive : α → Prop}
    (hstep : ∀ state, motive state → motive (step state))
    (count : Nat) {state : α} (hstate : motive state) :
    motive (stepTimes step count state) := by
  induction count generalizing state with
  | zero => exact hstate
  | succ count ih => exact ih (hstep state hstate)

/-- The run comes to a state with the property. -/
def Comes (step : α → α) (state : α) (goal : α → Prop) : Prop :=
  ∃ count, goal (stepTimes step count state)

theorem Comes.now {goal : α → Prop} {state : α} (hgoal : goal state) : Comes step state goal :=
  ⟨0, hgoal⟩

theorem Comes.later {goal : α → Prop} {state : α} (hcomes : Comes step (step state) goal) :
    Comes step state goal := by
  obtain ⟨count, hgoal⟩ := hcomes
  exact ⟨count + 1, hgoal⟩

theorem Comes.next {first second : α → Prop} {state : α} (hcomes : Comes step state first)
    (hfirst : ∀ other, first other → Comes step other second) : Comes step state second := by
  obtain ⟨m, hm⟩ := hcomes
  obtain ⟨n, hn⟩ := hfirst _ hm
  exact ⟨m + n, by rwa [stepTimes_add]⟩

/-- A run has one final state. -/
theorem Comes.unique {first second : α → Prop} {state : α} (hfirst : Comes step state first)
    (hsecond : Comes step state second) (hfirstFixed : ∀ other, first other → step other = other)
    (hsecondFixed : ∀ other, second other → step other = other) :
    ∃ last, first last ∧ second last := by
  obtain ⟨m, hm⟩ := hfirst
  obtain ⟨n, hn⟩ := hsecond
  have hleft := stepTimes_of_fixed (hfirstFixed _ hm) n
  have hright := stepTimes_of_fixed (hsecondFixed _ hn) m
  rw [← stepTimes_add] at hleft hright
  rw [Nat.add_comm, hleft] at hright
  exact ⟨_, hm, hright ▸ hn⟩

theorem runFor_eq_stepTimes (hfinal : ∀ state, isFinal state = true → step state = state)
    (count : Nat) (state : α) :
    runFor isFinal step count state = stepTimes step count state := by
  induction count generalizing state with
  | zero => rfl
  | succ count ih =>
    rw [runFor]
    split
    next hend => rw [stepTimes_of_fixed (hfinal state hend)]
    next => rw [ih, stepTimes]

end

/-! ## Repeated passes -/

/-- Repeats `pass` at most `rounds` times, and stops at the first round that
changes nothing. -/
def iterateUntilStable {α : Type} [DecidableEq α] (pass : α → α) : Nat → α → α
  | 0, state => state
  | rounds + 1, state =>
    let next := pass state
    if next = state then state else iterateUntilStable pass rounds next

section

variable {α : Type} [DecidableEq α] {pass : α → α}

/-- The passes that the early stop saves would change nothing. -/
theorem iterateUntilStable_eq_stepTimes (rounds : Nat) (state : α) :
    iterateUntilStable pass rounds state = stepTimes pass rounds state := by
  induction rounds generalizing state with
  | zero => rfl
  | succ rounds ih =>
    simp only [iterateUntilStable]
    split
    next hfixed => rw [stepTimes_of_fixed hfixed]
    next => rw [ih, stepTimes]

/-- A pass that lowers a rank whenever it changes the state is stable after as
many rounds as the rank counts.  Only states with a property that every pass
keeps are looked at. -/
theorem iterateUntilStable_stable {motive : α → Prop} (rank : α → Nat)
    (hpass : ∀ state, motive state → motive (pass state))
    (hrank : ∀ state, motive state → pass state ≠ state → rank (pass state) < rank state)
    {rounds : Nat} {state : α} (hstate : motive state) (hrounds : rank state ≤ rounds) :
    pass (iterateUntilStable pass rounds state) =
      iterateUntilStable pass rounds state := by
  rw [iterateUntilStable_eq_stepTimes]
  induction rounds generalizing state with
  | zero =>
    by_cases hfixed : pass state = state
    · exact hfixed
    · have hlt := hrank state hstate hfixed
      omega
  | succ rounds ih =>
    by_cases hfixed : pass state = state
    · rw [stepTimes_of_fixed hfixed, hfixed]
    · have hlt := hrank state hstate hfixed
      exact ih (hpass state hstate) (by omega)

end

end FormalGrammars
