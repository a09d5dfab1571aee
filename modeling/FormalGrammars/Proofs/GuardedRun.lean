import FormalGrammars.Iteration
import FormalGrammars.Pacing

/-!
# The states of a guarded run

A guarded run is driven from outside.  Its owner takes steps, and the answers
that the checkpoint gives may be others at every step; between the steps the
owner may cancel the run.  What every step keeps, and a cancellation too, holds
of all the states that a run comes to in this way.
-/

namespace FormalGrammars

/-- The states that a run comes to, whatever its checkpoint answers and
whenever it is cancelled. -/
inductive Reaches {α : Type} (step : Checkpoint → α → α) (cancel : α → α)
    (first : α) : α → Prop where
  | now : Reaches step cancel first first
  | step {state : α} (checkpoint : Checkpoint)
      (hreaches : Reaches step cancel first state) :
      Reaches step cancel first (step checkpoint state)
  | cancel {state : α} (hreaches : Reaches step cancel first state) :
      Reaches step cancel first (cancel state)

/-- The states that a run comes to in so many steps. -/
inductive ReachesIn {α : Type} (step : Checkpoint → α → α) (cancel : α → α)
    (first : α) : Nat → α → Prop where
  | now : ReachesIn step cancel first 0 first
  | step {count : Nat} {state : α} (checkpoint : Checkpoint)
      (hreaches : ReachesIn step cancel first count state) :
      ReachesIn step cancel first (count + 1) (step checkpoint state)
  | cancel {count : Nat} {state : α}
      (hreaches : ReachesIn step cancel first count state) :
      ReachesIn step cancel first count (cancel state)

variable {α : Type} {step : Checkpoint → α → α} {cancel : α → α}
  {first state : α}

theorem Reaches.keeps {motive : α → Prop}
    (hreaches : Reaches step cancel first state) (hfirst : motive first)
    (hstep : ∀ checkpoint other, motive other → motive (step checkpoint other))
    (hcancel : ∀ other, motive other → motive (cancel other)) :
    motive state := by
  induction hreaches with
  | now => exact hfirst
  | step checkpoint _ ih => exact hstep checkpoint _ ih
  | cancel _ ih => exact hcancel _ ih

theorem ReachesIn.reaches {count : Nat}
    (hreaches : ReachesIn step cancel first count state) :
    Reaches step cancel first state := by
  induction hreaches with
  | now => exact .now
  | step checkpoint _ ih => exact .step checkpoint ih
  | cancel _ ih => exact .cancel ih

/-- A run under one checkpoint is a special case. -/
theorem reaches_stepTimes (checkpoint : Checkpoint) (count : Nat) :
    Reaches step cancel first (stepTimes (step checkpoint) count first) :=
  stepTimes_induct (fun _ => .step checkpoint) count .now

theorem reachesIn_stepTimes (checkpoint : Checkpoint) (count : Nat) :
    ReachesIn step cancel first count
      (stepTimes (step checkpoint) count first) := by
  induction count with
  | zero => exact .now
  | succ count ih =>
      rw [stepTimes_succ_eq_step]
      exact ih.step checkpoint

/-- A relation to a run that takes a step whenever the guarded run does. -/
theorem ReachesIn.keeps {β : Type} {free : β → β} {count : Nat} {other : β}
    {motive : α → β → Prop}
    (hreaches : ReachesIn step cancel first count state)
    (hfirst : motive first other)
    (hstep : ∀ checkpoint state other, motive state other →
      motive (step checkpoint state) (free other))
    (hcancel : ∀ state other, motive state other →
      motive (cancel state) other) :
    motive state (stepTimes free count other) := by
  induction hreaches with
  | now => exact hfirst
  | step checkpoint _ ih =>
      rw [stepTimes_succ_eq_step]
      exact hstep checkpoint _ _ ih
  | cancel _ ih => exact hcancel _ _ ih

end FormalGrammars
