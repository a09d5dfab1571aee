import FormalGrammars.Proofs.Lockstep
import FormalGrammars.Proofs.Search.Termination
import FormalGrammars.Trial

/-!
# Runs that nobody is asked about

A guard whose checkpoint always refuses grants units of work up to the first
checkpoint and none after it.  A table-driven parser takes a unit for each
step.  A search takes one for each form that it adds, and has no more steps
than forms.  So the patience of a schedule is enough for all of them to end.
-/

namespace FormalGrammars

/-! ## Units of work -/

/-- So many units were granted, and the first checkpoint is still ahead. -/
structure Guard.Granted (schedule : Schedule) (count : Nat) (guard : Guard) :
    Prop where
  count_eq : guard.pacer.count = count
  next_eq : guard.pacer.next = schedule.first
  within : count < max schedule.first 1

theorem Guard.granted_ofSchedule (schedule : Schedule) :
    (Guard.ofSchedule schedule).Granted schedule 0 :=
  ⟨rfl, rfl, Nat.lt_of_lt_of_le Nat.zero_lt_one (Nat.le_max_right _ _)⟩

theorem Guard.Granted.advance {schedule : Schedule} {count : Nat}
    {guard : Guard} (hguard : guard.Granted schedule count)
    (hleave : (guard.advance .never).1 = true) :
    (guard.advance .never).2.Granted schedule (count + 1) := by
  obtain ⟨hcount, hnext, _⟩ := hguard
  unfold Guard.advance at hleave ⊢
  split at hleave
  next => cases hleave
  next hgoing =>
    rw [if_neg hgoing]
    by_cases hdue : guard.pacer.count + 1 < guard.pacer.next
    · have htick : guard.pacer.tick = (false, ⟨guard.pacer.count + 1,
          guard.pacer.next, guard.pacer.step, guard.pacer.growth⟩) := by
        simp [Pacer.tick, hdue]
      rw [htick]
      rw [hcount, hnext] at hdue
      exact ⟨congrArg (· + 1) hcount, hnext,
        Nat.lt_of_lt_of_le hdue (Nat.le_max_left _ _)⟩
    · -- At a checkpoint the leave is refused.
      simp [Pacer.tick, hdue, Checkpoint.never] at hleave

/-! ## Parsers -/

namespace GuardedMachine

variable {α : Type} {m : GuardedMachine α} {schedule : Schedule}
  {first state : α} {count : Nat}

theorem granted_step (hstate : (m.guard state).Granted schedule count)
    (hrunning : m.outcome state = none) :
    (m.outcome (m.step .never state)).isSome = true ∨
      (m.guard (m.step .never state)).Granted schedule (count + 1) := by
  cases hleave : ((m.guard state).advance .never).1 with
  | false =>
      rw [step_of_refusal hrunning hleave, m.outcome_abandon]
      exact .inl rfl
  | true =>
      rw [step_of_leave hrunning hleave, m.guard_withGuard]
      exact .inr (hstate.advance hleave)

theorem ended_or_granted (hfirst : (m.guard first).Granted schedule 0)
    (count : Nat) :
    let last := stepTimes (m.step .never) count first
    (m.outcome last).isSome = true ∨ (m.guard last).Granted schedule count := by
  induction count with
  | zero => exact .inr hfirst
  | succ count ih =>
      rw [stepTimes_succ_eq_step]
      rcases ih with hended | hgranted
      · rw [step_of_ended hended]
        exact .inl hended
      · cases houtcome : m.outcome (stepTimes (m.step .never) count first) with
        | none => exact granted_step hgranted houtcome
        | some outcome =>
            have hended : (m.outcome
                (stepTimes (m.step .never) count first)).isSome = true := by
              rw [houtcome]
              rfl
            rw [step_of_ended hended]
            exact .inl hended

theorem ended_of_patience (hfirst : (m.guard first).Granted schedule 0) :
    (m.outcome
      (stepTimes (m.step .never) schedule.patience first)).isSome = true := by
  rcases ended_or_granted hfirst schedule.patience with hended | hgranted
  · exact hended
  · have hwithin := hgranted.within
    unfold Schedule.patience at hwithin
    omega

end GuardedMachine

/-! ## Searches -/

namespace Search

variable {g : Grammar} {start : Symbol} {target : Form} {schedule : Schedule}
  {search first : Search}

/-- Every form but the root has taken a unit. -/
def Paced (schedule : Schedule) (search : Search) : Prop :=
  ∃ count, search.guard.Granted schedule count ∧
    search.history.size = count + 1

theorem Paced.grow (hsearch : search.Paced schedule) {guard : Guard}
    (hadvance : search.guard.advance .never = (true, guard)) (parent : Nat)
    (next : Form) (step : Step) :
    (search.grow guard parent next step).Paced schedule := by
  rcases hsearch with ⟨count, hgranted, hsize⟩
  have hleave := congrArg Prod.fst hadvance
  have hguard := hgranted.advance hleave
  rw [hadvance] at hguard
  refine ⟨count + 1, hguard, ?_⟩
  rw [size_grow, hsize]

theorem Paced.expand (hsearch : search.Paced schedule) (parent : Nat)
    (form : Form) (steps : List Step) :
    (search.expand .never parent form steps).status = .abandoned ∨
      (search.expand .never parent form steps).Paced schedule := by
  have hrule : ExpansionRule .never parent form steps
      (fun _ search => search.Paced schedule)
      (fun search => search.status = .abandoned ∨
        search.Paced schedule) := by
    constructor
    · intro later _ _ _ hlater _
      exact hlater
    · intro later _ guard _ _
      exact .inl rfl
    · intro later _ step guard _ hlater _ hadvance
      exact .inr (hlater.grow hadvance parent _ step)
    · intro later _ step next guard _ hlater _ _ hadvance
      exact hlater.grow hadvance parent next step
  rcases hrule.expand_all hsearch with hended | hgoing
  · exact hended
  · exact .inr hgoing

theorem paced_step (hsearch : search.status = .abandoned ∨ search.Paced schedule) :
    (search.step .never).status = .abandoned ∨
      (search.step .never).Paced schedule := by
  have hstepped := stepped .never search
  generalize search.step .never = last at hstepped
  cases hstepped with
  | ended => exact hsearch
  | cancelled => exact .inl rfl
  | exhausted hgoing =>
      rcases hsearch with hstopped | hpaced
      · rw [hstopped] at hgoing
        cases hgoing
      · exact .inr hpaced
  | @expanded hgoing _ number queue hqueue =>
      rcases hsearch with hstopped | hpaced
      · rw [hstopped] at hgoing
        cases hgoing
      · have htaken : Paced schedule { search with queue := queue } := hpaced
        exact htaken.expand _ _ _

theorem paced_start (hstart : Search.start g target schedule = .ok first) :
    first.Paced schedule := by
  rcases exists_root_of_start hstart with ⟨start, hhistory, _, hguard, _⟩
  refine ⟨0, hguard ▸ Guard.granted_ofSchedule schedule, ?_⟩
  rw [hhistory]
  rfl

theorem isFinal_of_patience (hstart : Search.start g target schedule = .ok first)
    (haccounted : first.Accounted 0) :
    (stepTimes (Search.step .never) schedule.patience first).status.isFinal =
      true := by
  by_contra hgoing
  have hsearching := status_eq_searching hgoing
  have hsize := haccounted.stepTimes .never schedule.patience hsearching
  have hpaced := stepTimes_induct
    (motive := fun search : Search =>
      search.status = .abandoned ∨ search.Paced schedule)
    (fun _ => paced_step) schedule.patience (.inr (paced_start hstart))
  rcases hpaced with hstopped | ⟨count, hgranted, hcount⟩
  · rw [hsearching] at hstopped
    cases hstopped
  · have hwithin := hgranted.within
    unfold Schedule.patience at hsize hcount
    omega

end Search

end FormalGrammars
