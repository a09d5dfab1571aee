/-!
# Pacing of open-ended runs

Some runs have no end: a search over an infinite language, a table with
conflicts.  A pacer counts units of work and says at which counts the caller
is asked whether to go on.  A guard combines the pacer with the caller's
answers and with a request to stop that may come at any time.

Counts are bounded by `maxCount`, where the schedule stays once it is reached.
-/

namespace FormalGrammars

def maxCount : Nat := UInt64.size - 1

structure Schedule where
  first : Nat := 500
  /-- The factor from one checkpoint to the next; at most 1 spaces them evenly. -/
  growth : Nat := 2
  deriving DecidableEq, Repr

/-- The schedule that asks at no count that a run reaches. -/
def Schedule.unlimited : Schedule := ⟨maxCount, 2⟩

structure Pacer where
  count : Nat
  next : Nat
  step : Nat
  growth : Nat
  deriving DecidableEq, Repr

namespace Pacer

def ofSchedule (schedule : Schedule) : Pacer :=
  ⟨0, schedule.first, max schedule.first 1, schedule.growth⟩

def following (pacer : Pacer) : Nat :=
  min maxCount (if pacer.growth > 1 then pacer.next * pacer.growth else pacer.next + pacer.step)

/-- Counts one unit of work and tells whether that count is a checkpoint. -/
def tick (pacer : Pacer) : Bool × Pacer :=
  let count := pacer.count + 1
  if count < pacer.next then (false, ⟨count, pacer.next, pacer.step, pacer.growth⟩)
  else (true, ⟨count, pacer.following, pacer.step, pacer.growth⟩)

end Pacer

/-- What a checkpoint answers when it is asked at a count. -/
abbrev Checkpoint := Nat → Bool

def Checkpoint.never : Checkpoint := fun _ => false

def Checkpoint.always : Checkpoint := fun _ => true

/-- The state of a guarded run: its pacer, the counts at which the checkpoint
was asked so far, and whether the run was cancelled. -/
structure Guard where
  pacer : Pacer
  asked : List Nat := []
  cancelled : Bool := false
  deriving DecidableEq, Repr

namespace Guard

def ofSchedule (schedule : Schedule) : Guard := ⟨.ofSchedule schedule, [], false⟩

def cancel (guard : Guard) : Guard :=
  ⟨guard.pacer, guard.asked, true⟩

/-- Asks for leave to do one unit of work. -/
def advance (checkpoint : Checkpoint) (guard : Guard) : Bool × Guard :=
  if guard.cancelled then (false, guard)
  else
    let (due, pacer) := guard.pacer.tick
    if due then (checkpoint pacer.count, ⟨pacer, guard.asked ++ [pacer.count], false⟩)
    else (true, ⟨pacer, guard.asked, false⟩)

/-- A checkpoint that always continues stops no run that is not cancelled. -/
theorem advance_always {guard : Guard} (hguard : guard.cancelled = false) :
    (guard.advance .always).1 = true ∧ (guard.advance .always).2.cancelled = false := by
  unfold advance
  rw [if_neg (by simp [hguard])]
  cases guard.pacer.tick with
  | mk due pacer =>
    cases due
    · exact ⟨rfl, rfl⟩
    · exact ⟨rfl, rfl⟩

end Guard

end FormalGrammars
