import FormalGrammars.Iteration
import FormalGrammars.Pacing
import Mathlib.Algebra.Group.Nat.Defs
import Mathlib.Order.Monotone.Basic

/-!
# When a guard asks

The checkpoints of a schedule are counts that grow by a factor or by equal
steps, and a schedule that begins at zero has one at every unit of work.  The
pacer computes each threshold from the one before and not from its count, so the
invariant of a run is that the next threshold stands for the first checkpoint
that has not been passed.  A threshold that does not fit stays at the greatest
count, which a run below that count does not come to.
-/

namespace FormalGrammars

/-! ## Checkpoints -/

namespace Schedule

variable {schedule : Schedule} {passed units next : Nat}

/-- The count of the checkpoint with this number. -/
def checkpoint (schedule : Schedule) (number : Nat) : Nat :=
  if schedule.first = 0 then number + 1
  else if 1 < schedule.growth then schedule.first * schedule.growth ^ number
  else schedule.first * (number + 1)

theorem checkpoint_of_first_eq_zero (hfirst : schedule.first = 0)
    (number : Nat) : schedule.checkpoint number = number + 1 :=
  if_pos hfirst

theorem checkpoint_of_growing (hfirst : 0 < schedule.first)
    (hgrowth : 1 < schedule.growth) (number : Nat) :
    schedule.checkpoint number = schedule.first * schedule.growth ^ number := by
  rw [checkpoint, if_neg (Nat.ne_of_gt hfirst), if_pos hgrowth]

theorem checkpoint_of_even (hfirst : 0 < schedule.first)
    (hgrowth : schedule.growth ≤ 1) (number : Nat) :
    schedule.checkpoint number = schedule.first * (number + 1) := by
  rw [checkpoint, if_neg (Nat.ne_of_gt hfirst), if_neg (Nat.not_lt.mpr hgrowth)]

theorem checkpoint_succ_of_growing (hfirst : 0 < schedule.first)
    (hgrowth : 1 < schedule.growth) (number : Nat) :
    schedule.checkpoint (number + 1) =
      schedule.checkpoint number * schedule.growth := by
  rw [checkpoint_of_growing hfirst hgrowth, checkpoint_of_growing hfirst hgrowth,
    Nat.pow_succ, Nat.mul_assoc]

theorem checkpoint_succ_of_even (hfirst : 0 < schedule.first)
    (hgrowth : schedule.growth ≤ 1) (number : Nat) :
    schedule.checkpoint (number + 1) =
      schedule.checkpoint number + schedule.first := by
  rw [checkpoint_of_even hfirst hgrowth, checkpoint_of_even hfirst hgrowth,
    Nat.mul_succ schedule.first (number + 1)]

theorem checkpoint_zero (schedule : Schedule) :
    schedule.checkpoint 0 = max schedule.first 1 := by
  rcases Nat.eq_zero_or_pos schedule.first with hfirst | hfirst
  · rw [checkpoint_of_first_eq_zero hfirst, hfirst]
    rfl
  · rw [Nat.max_eq_left hfirst]
    rcases Nat.lt_or_ge 1 schedule.growth with hgrowth | hgrowth
    · rw [checkpoint_of_growing hfirst hgrowth, Nat.pow_zero, Nat.mul_one]
    · rw [checkpoint_of_even hfirst hgrowth, Nat.zero_add, Nat.mul_one]

theorem checkpoint_pos (hfirst : 0 < schedule.first) (number : Nat) :
    0 < schedule.checkpoint number := by
  rcases Nat.lt_or_ge 1 schedule.growth with hgrowth | hgrowth
  · rw [checkpoint_of_growing hfirst hgrowth]
    exact Nat.mul_pos hfirst (Nat.pow_pos (Nat.lt_of_succ_lt hgrowth))
  · rw [checkpoint_of_even hfirst hgrowth]
    exact Nat.mul_pos hfirst (Nat.succ_pos number)

theorem checkpoint_strictMono (schedule : Schedule) :
    StrictMono schedule.checkpoint := by
  refine strictMono_nat_of_lt_succ fun number => ?_
  rcases Nat.eq_zero_or_pos schedule.first with hfirst | hfirst
  · rw [checkpoint_of_first_eq_zero hfirst, checkpoint_of_first_eq_zero hfirst]
    exact Nat.lt_succ_self _
  · have hpos := checkpoint_pos hfirst number
    rcases Nat.lt_or_ge 1 schedule.growth with hgrowth | hgrowth
    · rw [checkpoint_succ_of_growing hfirst hgrowth]
      calc schedule.checkpoint number
          = schedule.checkpoint number * 1 := (Nat.mul_one _).symm
        _ < schedule.checkpoint number * schedule.growth :=
            Nat.mul_lt_mul_of_pos_left hgrowth hpos
    · rw [checkpoint_succ_of_even hfirst hgrowth]
      exact Nat.lt_add_of_pos_right hfirst

theorem checkpoint_eq_iff_of_even (hfirst : 0 < schedule.first)
    (hgrowth : schedule.growth ≤ 1) {count : Nat} :
    (∃ number, schedule.checkpoint number = count) ↔
      0 < count ∧ schedule.first ∣ count := by
  constructor
  · rintro ⟨number, rfl⟩
    refine ⟨checkpoint_pos hfirst number, number + 1, ?_⟩
    exact checkpoint_of_even hfirst hgrowth number
  · rintro ⟨hpos, times, rfl⟩
    obtain ⟨number, rfl⟩ := Nat.exists_eq_succ_of_ne_zero
      (Nat.ne_of_gt (Nat.pos_of_mul_pos_left hpos))
    exact ⟨number, checkpoint_of_even hfirst hgrowth number⟩

/-! ## Thresholds -/

/-- What a threshold is while the checkpoint with this number is the next one. -/
inductive Awaits (schedule : Schedule) (passed next : Nat) : Prop where
  /-- From zero on, the threshold stays behind the count. -/
  | behind (hfirst : schedule.first = 0) (hle : next ≤ passed)
      (hgrowth : 1 < schedule.growth → next = 0)
  | fits (hfirst : 0 < schedule.first) (heq : next = schedule.checkpoint passed)
  /-- Neither is a count, and this is not the first one. -/
  | saturated (hfirst : 0 < schedule.first) (hlater : 0 < passed)
      (hnext : maxCount ≤ next) (hcheckpoint : maxCount ≤ schedule.checkpoint passed)

theorem awaits_first (schedule : Schedule) :
    schedule.Awaits 0 schedule.first := by
  rcases Nat.eq_zero_or_pos schedule.first with hfirst | hfirst
  · exact .behind hfirst (Nat.le_of_eq hfirst) fun _ => hfirst
  · refine .fits hfirst ?_
    rw [checkpoint_zero, Nat.max_eq_left hfirst]

end Schedule

/-! ## The units of a run -/

namespace Guard

variable {schedule : Schedule} {units passed : Nat} {guard : Guard}
  {checkpoint : Checkpoint}

/-- The guard after so many units of work, whatever the checkpoint answered. -/
def work (checkpoint : Checkpoint) (units : Nat) (guard : Guard) : Guard :=
  stepTimes (fun guard => (guard.advance checkpoint).2) units guard

theorem work_succ (checkpoint : Checkpoint) (units : Nat) (guard : Guard) :
    guard.work checkpoint (units + 1) =
      ((guard.work checkpoint units).advance checkpoint).2 :=
  stepTimes_succ_eq_step units guard

/-- A guard that has counted these units, asked at the checkpoints that are
passed, and waits for the next one. -/
structure OnSchedule (schedule : Schedule) (units passed : Nat) (guard : Guard) :
    Prop where
  running : guard.cancelled = false
  count_eq : guard.pacer.count = units
  step_eq : guard.pacer.step = max schedule.first 1
  growth_eq : guard.pacer.growth = schedule.growth
  awaits : schedule.Awaits passed guard.pacer.next
  asked_eq : guard.asked = (List.range passed).map schedule.checkpoint
  passed_le : ∀ number < passed, schedule.checkpoint number ≤ units
  ahead : units < schedule.checkpoint passed

theorem onSchedule_ofSchedule (schedule : Schedule) :
    (Guard.ofSchedule schedule).OnSchedule schedule 0 0 := by
  refine ⟨rfl, rfl, rfl, rfl, schedule.awaits_first, rfl, by simp, ?_⟩
  rw [schedule.checkpoint_zero]
  exact Nat.lt_of_lt_of_le Nat.zero_lt_one (Nat.le_max_right _ _)

theorem advance_of_lt (hrunning : guard.cancelled = false)
    (hlt : guard.pacer.count + 1 < guard.pacer.next) (checkpoint : Checkpoint) :
    guard.advance checkpoint =
      (true, ⟨⟨guard.pacer.count + 1, guard.pacer.next, guard.pacer.step,
        guard.pacer.growth⟩, guard.asked, false⟩) := by
  simp [advance, hrunning, Pacer.tick, hlt]

theorem advance_of_le (hrunning : guard.cancelled = false)
    (hle : guard.pacer.next ≤ guard.pacer.count + 1) (checkpoint : Checkpoint) :
    guard.advance checkpoint =
      (checkpoint (guard.pacer.count + 1),
        ⟨⟨guard.pacer.count + 1, guard.pacer.following, guard.pacer.step,
          guard.pacer.growth⟩, guard.asked ++ [guard.pacer.count + 1], false⟩) := by
  simp [advance, hrunning, Pacer.tick, Nat.not_lt.mpr hle]

namespace OnSchedule

theorem passed_eq (hguard : guard.OnSchedule schedule units passed)
    (hfirst : schedule.first = 0) : passed = units := by
  have hahead := hguard.ahead
  rw [Schedule.checkpoint_of_first_eq_zero hfirst] at hahead
  cases passed with
  | zero => omega
  | succ number =>
      have hle := hguard.passed_le number (Nat.lt_succ_self number)
      rw [Schedule.checkpoint_of_first_eq_zero hfirst] at hle
      omega

/-- The threshold is reached at the next checkpoint and not before it.  The first
one may be the greatest count. -/
theorem next_le_iff (hguard : guard.OnSchedule schedule units passed)
    (hunits : units + 1 < maxCount ∨ passed = 0) :
    guard.pacer.next ≤ units + 1 ↔ schedule.checkpoint passed = units + 1 := by
  have hahead := hguard.ahead
  cases hguard.awaits with
  | behind hfirst hle _ =>
      have hpassed := hguard.passed_eq hfirst
      rw [Schedule.checkpoint_of_first_eq_zero hfirst]
      omega
  | fits _ heq => omega
  | saturated _ _ _ _ => omega

/-- The threshold behind the one that is reached. -/
theorem awaits_following (hguard : guard.OnSchedule schedule units passed)
    (hdue : guard.pacer.next ≤ units + 1)
    (hunits : units + 1 < maxCount ∨ passed = 0) :
    schedule.Awaits (passed + 1) guard.pacer.following := by
  have hstep := hguard.step_eq
  have hgrowth := hguard.growth_eq
  unfold Pacer.following
  rw [hstep, hgrowth]
  cases hguard.awaits with
  | behind hfirst hle hzero =>
      refine .behind hfirst ?_ fun hgrows => ?_
      · split
        next hgrows => simp [hzero hgrows]
        next =>
          rw [hfirst]
          exact (Nat.min_le_right _ _).trans (Nat.succ_le_succ hle)
      · rw [if_pos hgrows, hzero hgrows, Nat.zero_mul, Nat.min_zero]
  | fits hfirst heq =>
      have hafter : (if schedule.growth > 1
          then guard.pacer.next * schedule.growth
          else guard.pacer.next + max schedule.first 1) =
            schedule.checkpoint (passed + 1) := by
        rw [heq]
        split
        next hgrows =>
          rw [Schedule.checkpoint_succ_of_growing hfirst hgrows]
        next heven =>
          rw [Schedule.checkpoint_succ_of_even hfirst (Nat.not_lt.mp heven),
            Nat.max_eq_left hfirst]
      rw [hafter]
      rcases Nat.le_total (schedule.checkpoint (passed + 1)) maxCount with
        hle | hge
      · exact .fits hfirst (Nat.min_eq_right hle)
      · refine .saturated hfirst (Nat.succ_pos passed) ?_ hge
        exact Nat.le_of_eq (Nat.min_eq_left hge).symm
  | saturated _ _ _ _ => omega

/-- One unit of work: the checkpoint is asked exactly when its count is the next
one of the schedule. -/
theorem advance (hguard : guard.OnSchedule schedule units passed)
    (hunits : units + 1 < maxCount ∨ passed = 0) (checkpoint : Checkpoint) :
    (units + 1 < schedule.checkpoint passed ∧
      (guard.advance checkpoint).1 = true ∧
      (guard.advance checkpoint).2.OnSchedule schedule (units + 1) passed) ∨
    (schedule.checkpoint passed = units + 1 ∧
      (guard.advance checkpoint).1 = checkpoint (units + 1) ∧
      (guard.advance checkpoint).2.OnSchedule schedule (units + 1)
        (passed + 1)) := by
  have hcount := hguard.count_eq
  have hahead := hguard.ahead
  have hdue := hguard.next_le_iff hunits
  rcases Nat.lt_or_ge (units + 1) guard.pacer.next with hlt | hle
  · left
    rw [advance_of_lt hguard.running (by omega)]
    refine ⟨by omega, rfl, rfl, by rw [hcount], hguard.step_eq,
      hguard.growth_eq, hguard.awaits, hguard.asked_eq, ?_, by omega⟩
    exact fun number hnumber =>
      Nat.le_succ_of_le (hguard.passed_le number hnumber)
  · right
    have hreached := hdue.mp hle
    rw [advance_of_le hguard.running (by omega), hcount]
    refine ⟨hreached, rfl, rfl, rfl, hguard.step_eq, hguard.growth_eq,
      hguard.awaits_following hle hunits, ?_, ?_, ?_⟩
    · rw [List.range_succ, List.map_append, ← hguard.asked_eq,
        List.map_singleton, hreached]
    · intro number hnumber
      rw [← hreached]
      exact schedule.checkpoint_strictMono.monotone
        (Nat.le_of_lt_succ hnumber)
    · rw [← hreached]
      exact schedule.checkpoint_strictMono (Nat.lt_succ_self passed)

end OnSchedule

theorem exists_onSchedule_work (schedule : Schedule) (checkpoint : Checkpoint)
    (hunits : units < maxCount) :
    ∃ passed, ((ofSchedule schedule).work checkpoint units).OnSchedule
      schedule units passed := by
  induction units with
  | zero => exact ⟨0, onSchedule_ofSchedule schedule⟩
  | succ units ih =>
      obtain ⟨passed, hguard⟩ := ih (Nat.lt_of_succ_lt hunits)
      rw [work_succ]
      rcases hguard.advance (.inl hunits) checkpoint with
        ⟨_, _, hlater⟩ | ⟨_, _, hlater⟩
      · exact ⟨passed, hlater⟩
      · exact ⟨passed + 1, hlater⟩

/-- Before the first checkpoint nothing is asked. -/
theorem onSchedule_work_of_lt (schedule : Schedule) (checkpoint : Checkpoint)
    (hunits : units < max schedule.first 1) :
    ((ofSchedule schedule).work checkpoint units).OnSchedule
      schedule units 0 := by
  induction units with
  | zero => exact onSchedule_ofSchedule schedule
  | succ units ih =>
      rw [work_succ]
      rcases (ih (Nat.lt_of_succ_lt hunits)).advance (.inr rfl) checkpoint with
        ⟨_, _, hlater⟩ | ⟨hreached, _, _⟩
      · exact hlater
      · rw [schedule.checkpoint_zero] at hreached
        omega

theorem leave_of_lt_first (schedule : Schedule) (checkpoint : Checkpoint)
    (hunits : units + 1 < max schedule.first 1) :
    (((ofSchedule schedule).work checkpoint units).advance checkpoint).1 =
      true := by
  have hguard := onSchedule_work_of_lt schedule checkpoint
    (Nat.lt_of_succ_lt hunits)
  rcases hguard.advance (.inr rfl) checkpoint with
    ⟨_, hleave, _⟩ | ⟨hreached, _, _⟩
  · exact hleave
  · rw [schedule.checkpoint_zero] at hreached
    omega

theorem answer_at_first (schedule : Schedule) (checkpoint : Checkpoint)
    (hunits : max schedule.first 1 = units + 1) :
    (((ofSchedule schedule).work checkpoint units).advance checkpoint).1 =
        checkpoint (units + 1) ∧
      ((ofSchedule schedule).work checkpoint (units + 1)).asked =
        [units + 1] := by
  have hguard := onSchedule_work_of_lt schedule checkpoint
    (Nat.lt_of_succ_le (Nat.le_of_eq hunits.symm))
  rcases hguard.advance (.inr rfl) checkpoint with
    ⟨hbefore, _, _⟩ | ⟨hreached, hanswer, hlater⟩
  · rw [schedule.checkpoint_zero] at hbefore
    omega
  · refine ⟨hanswer, ?_⟩
    rw [work_succ, hlater.asked_eq, ← hreached]
    rfl

theorem OnSchedule.mem_asked_iff
    (hguard : guard.OnSchedule schedule units passed) (count : Nat) :
    count ∈ guard.asked ↔
      count ≤ units ∧ ∃ number, schedule.checkpoint number = count := by
  rw [hguard.asked_eq, List.mem_map]
  constructor
  · rintro ⟨number, hnumber, rfl⟩
    exact ⟨hguard.passed_le number (List.mem_range.mp hnumber), number, rfl⟩
  · rintro ⟨hle, number, rfl⟩
    refine ⟨number, List.mem_range.mpr ?_, rfl⟩
    exact schedule.checkpoint_strictMono.lt_iff_lt.mp
      (Nat.lt_of_le_of_lt hle hguard.ahead)

theorem OnSchedule.asked_ascending
    (hguard : guard.OnSchedule schedule units passed) :
    guard.asked.Pairwise (· < ·) := by
  rw [hguard.asked_eq, List.pairwise_map]
  exact List.pairwise_lt_range.imp fun hlt => schedule.checkpoint_strictMono hlt

/-- A run whose checkpoint always continues asks at the counts of the schedule,
in their order and with the count as the argument.  One whose checkpoint declines
when it is asked for the first time does the units before that. -/
theorem asks_on_schedule (schedule : Schedule) :
    (∀ units, units < maxCount →
      let guard := (ofSchedule schedule).work .always units
      guard.cancelled = false ∧ guard.pacer.count = units ∧
      (guard.advance .always).1 = true ∧
      guard.asked.Pairwise (· < ·) ∧
      (0 < schedule.first → 1 < schedule.growth → ∀ count,
        count ∈ guard.asked ↔ count ≤ units ∧
          ∃ k, schedule.first * schedule.growth ^ k = count) ∧
      (0 < schedule.first → schedule.growth ≤ 1 → ∀ count,
        count ∈ guard.asked ↔ count ≤ units ∧
          0 < count ∧ schedule.first ∣ count) ∧
      (schedule.first = 0 → ∀ count,
        count ∈ guard.asked ↔ count ≤ units ∧ 0 < count)) ∧
    ∀ checkpoint : Checkpoint,
      (∀ units count,
        ((ofSchedule schedule).work checkpoint units).asked.head? =
          some count → checkpoint count = false) →
      (∀ units < max schedule.first 1 - 1,
        (((ofSchedule schedule).work checkpoint units).advance
          checkpoint).1 = true) ∧
      (((ofSchedule schedule).work checkpoint
        (max schedule.first 1 - 1)).advance checkpoint).1 = false := by
  constructor
  · intro units hunits guard
    obtain ⟨passed, hguard⟩ := exists_onSchedule_work schedule .always hunits
    refine ⟨hguard.running, hguard.count_eq,
      (advance_always hguard.running).1, hguard.asked_ascending, ?_, ?_, ?_⟩
    · intro hfirst hgrowth count
      have hasked := hguard.mem_asked_iff count
      simp only [Schedule.checkpoint_of_growing hfirst hgrowth] at hasked
      exact hasked
    · intro hfirst hgrowth count
      have hasked := hguard.mem_asked_iff count
      rwa [Schedule.checkpoint_eq_iff_of_even hfirst hgrowth] at hasked
    · intro hfirst count
      have hasked := hguard.mem_asked_iff count
      simp only [Schedule.checkpoint_of_first_eq_zero hfirst] at hasked
      rw [hasked]
      refine and_congr_right fun _ => ⟨?_, fun hpos => ?_⟩
      · rintro ⟨number, rfl⟩
        exact Nat.succ_pos number
      · exact ⟨count - 1, Nat.sub_add_cancel hpos⟩
  · intro checkpoint hdeclines
    refine ⟨fun units hunits => ?_, ?_⟩
    · exact leave_of_lt_first schedule checkpoint (by omega)
    · obtain ⟨units, hunits⟩ : ∃ units, max schedule.first 1 = units + 1 :=
        ⟨max schedule.first 1 - 1, by omega⟩
      obtain ⟨hanswer, hasked⟩ := answer_at_first schedule checkpoint hunits
      rw [hunits, Nat.add_sub_cancel, hanswer]
      apply hdeclines (units + 1)
      rw [hasked]
      rfl

/-- Twice as many units from one checkpoint to the next. -/
theorem asks_on_schedule_doubling :
    let guard := (ofSchedule ⟨3, 2⟩).work .always 13
    13 < maxCount ∧ guard.asked = [3, 6, 12] ∧
    (∀ count, count ∈ guard.asked ↔ count ≤ 13 ∧ ∃ k, 3 * 2 ^ k = count) ∧
    (∀ units < 2,
      (((ofSchedule ⟨3, 2⟩).work .never units).advance .never).1 = true) ∧
    (((ofSchedule ⟨3, 2⟩).work .never 2).advance .never).1 = false := by
  intro guard
  have hunits : 13 < maxCount := by decide
  obtain ⟨hasks, hdeclines⟩ := asks_on_schedule ⟨3, 2⟩
  obtain ⟨_, _, _, _, hgrowing, _, _⟩ := hasks 13 hunits
  obtain ⟨hleave, hstop⟩ := hdeclines .never fun _ _ _ => rfl
  exact ⟨hunits, by decide, hgrowing (by decide) (by decide), hleave, hstop⟩

end Guard

end FormalGrammars
