import FormalGrammars.Proofs.Search.Termination
import Mathlib.Data.List.ReduceOption

/-!
# The forms are handed out in order

A search hands out its forms one at a time.  When none waits it steps until
there is a new one or until it has ended.  A step may add many forms or none,
and it may end the search right after it has added some, so whether the search
has ended is asked together with whether a form still waits.

No step changes the forms that were there.  So whatever steps are taken
between the calls, and whatever the guard does in the middle of a step, the
forms come in the order of their numbers, and the call that hands out nothing
is one that finds the search ended and all forms handed out.  Each round of the
loop in a call takes a form out of the queue without making a new one, so a
call comes back.

Handing out forms until there are no more therefore takes the search through
the same steps as a run does.
-/

namespace FormalGrammars

/-- The forms that were there stay the first ones. -/
theorem History.GrowsTo.take_eq {h k : History} (hgrows : h.GrowsTo k)
    {number : Nat} (hle : number ≤ h.size) :
    k.entries.take number = h.entries.take number := by
  rcases hgrows.entries with ⟨added, hadded⟩
  rw [← hadded, List.take_append_of_le_length hle]

namespace Search

variable {g : Grammar} {start : Symbol} {first search later last : Search}
  {checkpoint : Checkpoint} {answer : Option History.Entry}
  {answers : List (Option History.Entry)} {entries : List History.Entry}

/-! ## Steps, whatever the guard does -/

/-- What a step makes of a search, whatever the checkpoint answers.  The search
may be cancelled when some of the options were tried. -/
inductive StepsTo (search : Search) : Search → Prop where
  | whole (checkpoint : Checkpoint) :
      StepsTo search (search.step checkpoint)
  | cancelled (checkpoint : Checkpoint) (count : Nat) :
      StepsTo search (search.stepInTwo Guard.cancel checkpoint count)

theorem StepsTo.exists_inTwo (hstep : search.StepsTo later) :
    ∃ change checkpoint count,
      later = search.stepInTwo change checkpoint count := by
  cases hstep with
  | whole checkpoint => exact ⟨id, checkpoint, 0, step_eq_stepInTwo _ _ _⟩
  | cancelled checkpoint count => exact ⟨Guard.cancel, checkpoint, count, rfl⟩

/-- Forms were added, and none was handed out. -/
structure Continues (search later : Search) : Prop where
  growsTo : search.history.GrowsTo later.history
  emitted_eq : later.emitted = search.emitted

theorem Continues.refl (search : Search) : search.Continues search :=
  ⟨.refl _, rfl⟩

theorem Continues.expand (hlater : search.Continues later)
    (checkpoint : Checkpoint) (parent : Nat) (form : Form)
    (steps : List Step) :
    search.Continues (later.expand checkpoint parent form steps) := by
  apply expand_keeps (motive := search.Continues) _ _ hlater
  · intro other guard hother _
    exact ⟨hother.growsTo, hother.emitted_eq⟩
  · intro other step next guard _ hother _ _
    have hadded :=
      hother.growsTo.trans (.addChild other.history parent next step)
    exact ⟨⟨hadded, hother.emitted_eq⟩, hadded, hother.emitted_eq⟩

theorem continues_stepInTwo (change : Guard → Guard) (checkpoint : Checkpoint)
    (count : Nat) (search : Search) :
    search.Continues (search.stepInTwo change checkpoint count) := by
  unfold stepInTwo
  split
  next => exact .refl search
  next =>
    split
    next => exact ⟨.refl _, rfl⟩
    next =>
      split
      next => exact ⟨.refl _, rfl⟩
      next number queue _ =>
        have htaken : search.Continues { search with queue := queue } :=
          ⟨.refl _, rfl⟩
        have hhalf := htaken.expand checkpoint number
          (search.history.form number)
          ((search.plan.options (search.history.form number)).take count)
        simp only
        split
        next => exact hhalf
        next =>
          apply Continues.expand
          exact ⟨hhalf.growsTo, hhalf.emitted_eq⟩

/-- A step that does not end the search takes a form out of the queue, and puts
those into it that it adds to the history. -/
theorem balance_stepInTwo {change : Guard → Guard} {count : Nat}
    (hgoing : (search.stepInTwo change checkpoint count).status.isFinal =
      false) :
    (search.stepInTwo change checkpoint count).queue.length + 1 +
        search.history.size =
      search.queue.length +
        (search.stepInTwo change checkpoint count).history.size := by
  have hsearching := status_eq_searching (Bool.not_eq_true _ ▸ hgoing)
  unfold stepInTwo at hsearching ⊢
  split at hsearching
  next hfinal =>
    rw [hsearching] at hfinal
    cases hfinal
  next hfinal =>
    rw [if_neg hfinal]
    split at hsearching
    next => cases hsearching
    next hcancelled =>
      rw [if_neg hcancelled]
      cases hqueue : search.queue with
      | nil =>
          rw [hqueue] at hsearching
          cases hsearching
      | cons number queue =>
          rw [hqueue] at hsearching
          simp only at hsearching ⊢
          split at hsearching
          next hhalf =>
            rw [hsearching] at hhalf
            cases hhalf
          next hhalf =>
            have hfirst := balance_expand (status_eq_searching hhalf)
            have hsecond := balance_expand hsearching
            rw [if_neg hhalf, List.length_cons]
            simp only at hfirst hsecond
            omega

theorem StepsTo.continues (hstep : search.StepsTo later) :
    search.Continues later := by
  rcases hstep.exists_inTwo with ⟨change, checkpoint, count, rfl⟩
  exact continues_stepInTwo change checkpoint count search

theorem StepsTo.eq_of_isFinal (hstep : search.StepsTo later)
    (hfinal : search.status.isFinal = true) : later = search := by
  rcases hstep.exists_inTwo with ⟨change, checkpoint, count, rfl⟩
  exact if_pos hfinal

theorem StepsTo.balance (hstep : search.StepsTo later)
    (hgoing : later.status.isFinal = false) :
    later.queue.length + 1 + search.history.size =
      search.queue.length + later.history.size := by
  rcases hstep.exists_inTwo with ⟨change, checkpoint, count, rfl⟩
  exact balance_stepInTwo hgoing

/-! ## The next form -/

/-- The search has ended, and all of its forms were handed out. -/
def Exhausted (search : Search) : Prop :=
  search.status.isFinal = true ∧ search.emitted = search.history.size

/-- A round in which the loop finds no form and has to go on. -/
structure Again (steps : Search → Search → Prop) (search later : Search) :
    Prop where
  none_waits : search.history.entry? search.emitted = none
  steps : steps search later
  not_exhausted : ¬ later.Exhausted

/-- What a call of the loop answers and leaves, where a step makes of a search
what `steps` says. -/
inductive Next (steps : Search → Search → Prop) :
    Search → Option History.Entry → Search → Prop where
  | handOut {search : Search} {entry : History.Entry}
      (hentry : search.history.entry? search.emitted = some entry) :
      Next steps search (some entry)
        { search with emitted := search.emitted + 1 }
  | ended {search last : Search}
      (hnone : search.history.entry? search.emitted = none)
      (hstep : steps search last) (hexhausted : last.Exhausted) :
      Next steps search none last
  | again {search later last : Search} {answer : Option History.Entry}
      (hagain : Again steps search later)
      (hrest : Next steps later answer last) :
      Next steps search answer last

theorem Next.mono {steps more : Search → Search → Prop}
    (hsub : ∀ search later, steps search later → more search later)
    (hnext : Next steps search answer last) : Next more search answer last := by
  induction hnext with
  | handOut hentry => exact .handOut hentry
  | ended hnone hstep hexhausted => exact .ended hnone (hsub _ _ hstep) hexhausted
  | again hagain _ ih =>
      exact .again ⟨hagain.none_waits, hsub _ _ hagain.steps,
        hagain.not_exhausted⟩ ih

/-- What a step under this checkpoint makes of a search. -/
def StepsBy (checkpoint : Checkpoint) (search later : Search) : Prop :=
  later = search.step checkpoint

theorem StepsBy.stepsTo (hstep : StepsBy checkpoint search later) :
    search.StepsTo later := by
  rw [hstep]
  exact .whole checkpoint

/-! ## A call comes back -/

/-- So many more rounds can the loop take. -/
def roundsLeft (search : Search) : Nat :=
  if search.emitted < search.history.size then 0
  else search.queue.length + 1

theorem emitted_eq_size (hle : search.emitted ≤ search.history.size)
    (hnone : search.history.entry? search.emitted = none) :
    search.emitted = search.history.size := by
  have hge : search.history.size ≤ search.emitted :=
    List.getElem?_eq_none_iff.mp hnone
  exact Nat.le_antisymm hle hge

theorem StepsTo.emitted_le (hstep : search.StepsTo later)
    (hle : search.emitted ≤ search.history.size) :
    later.emitted ≤ later.history.size := by
  rw [hstep.continues.emitted_eq]
  exact Nat.le_trans hle hstep.continues.growsTo.size_le

theorem Again.roundsLeft_lt (hagain : Again StepsTo search later)
    (hle : search.emitted ≤ search.history.size) :
    later.roundsLeft < search.roundsLeft := by
  have hsize := emitted_eq_size hle hagain.none_waits
  have hemitted := hagain.steps.continues.emitted_eq
  have hgrown := hagain.steps.continues.growsTo.size_le
  have hrounds : search.roundsLeft = search.queue.length + 1 :=
    if_neg (Nat.not_lt.mpr (Nat.le_of_eq hsize.symm))
  rw [hrounds]
  unfold roundsLeft
  split
  next => exact Nat.succ_pos _
  next hnew =>
    -- no form is new, so the queue is one shorter
    have hall : later.emitted = later.history.size := by omega
    have hgoing : later.status.isFinal = false := by
      rw [← Bool.not_eq_true]
      intro hfinal
      exact hagain.not_exhausted ⟨hfinal, hall⟩
    have hbalance := hagain.steps.balance hgoing
    omega

/-- Whatever the guard does, the loop goes round only so often. -/
theorem acc_again (hle : search.emitted ≤ search.history.size) :
    Acc (fun later search => Again StepsTo search later) search := by
  induction hrounds : search.roundsLeft using Nat.strongRecOn
    generalizing search with
  | ind rounds ih =>
      constructor
      intro later hagain
      rw [← hrounds] at ih
      exact ih _ (hagain.roundsLeft_lt hle) (hagain.steps.emitted_le hle) rfl

theorem next_emitWithin {fuel : Nat}
    (hle : search.emitted ≤ search.history.size)
    (hfuel : search.roundsLeft < fuel) :
    Next (StepsBy checkpoint) search (search.emitWithin checkpoint fuel).1
      (search.emitWithin checkpoint fuel).2 := by
  induction fuel generalizing search with
  | zero => exact absurd hfuel (Nat.not_lt_zero _)
  | succ fuel ih =>
      unfold emitWithin
      cases hentry : search.history.entry? search.emitted with
      | some entry => exact .handOut hentry
      | none =>
          have hstep : StepsBy checkpoint search (search.step checkpoint) := rfl
          simp only
          split
          next hended =>
            rw [Bool.and_eq_true, beq_iff_eq] at hended
            exact .ended hentry hstep hended
          next hended =>
            rw [Bool.and_eq_true, beq_iff_eq] at hended
            have hagain : Again StepsTo search (search.step checkpoint) :=
              ⟨hentry, hstep.stepsTo, hended⟩
            have hlt := hagain.roundsLeft_lt hle
            refine .again ⟨hentry, hstep, hended⟩ (ih ?_ (by omega))
            exact hstep.stepsTo.emitted_le hle

/-- The bound on the steps of a call is no restriction. -/
theorem next_emit (hle : search.emitted ≤ search.history.size)
    (checkpoint : Checkpoint) :
    Next (StepsBy checkpoint) search (search.emit checkpoint).1
      (search.emit checkpoint).2 := by
  apply next_emitWithin hle
  unfold roundsLeft
  split
  next => exact Nat.succ_pos _
  next => exact Nat.lt_succ_self _

/-! ## Calls one after the other -/

/-- The answers of the calls for the next form, in whatever order they are
mixed with steps and cancellations. -/
inductive Served (first : Search) :
    List (Option History.Entry) → Search → Prop where
  | now : Served first [] first
  | step {answers : List (Option History.Entry)} {search later : Search}
      (hserved : Served first answers search) (hstep : search.StepsTo later) :
      Served first answers later
  | cancel {answers : List (Option History.Entry)} {search : Search}
      (hserved : Served first answers search) :
      Served first answers search.cancel
  | next {answers : List (Option History.Entry)} {search last : Search}
      {answer : Option History.Entry}
      (hserved : Served first answers search)
      (hnext : Next StepsTo search answer last) :
      Served first (answers ++ [answer]) last

/-- The forms were handed out in the order of their numbers, and nothing was
answered only when there was nothing left. -/
structure InOrder (answers : List (Option History.Entry)) (search : Search) :
    Prop where
  emitted_le : search.emitted ≤ search.history.size
  handed_eq : answers.reduceOption =
    search.history.entries.take search.emitted
  exhausted : none ∈ answers → search.Exhausted

theorem InOrder.step (hsearch : InOrder answers search)
    (hstep : search.StepsTo later) : InOrder answers later := by
  constructor
  · exact hstep.emitted_le hsearch.emitted_le
  · rw [hstep.continues.emitted_eq,
      hstep.continues.growsTo.take_eq hsearch.emitted_le]
    exact hsearch.handed_eq
  · intro hnone
    have hexhausted := hsearch.exhausted hnone
    rw [hstep.eq_of_isFinal hexhausted.1]
    exact hexhausted

theorem InOrder.next (hsearch : InOrder answers search)
    (hnext : Next StepsTo search answer last) :
    InOrder (answers ++ [answer]) last := by
  induction hnext with
  | @handOut search entry hentry =>
      have hlt := History.lt_size_of_entry hentry
      constructor
      · exact hlt
      · rw [List.reduceOption_append, hsearch.handed_eq, List.take_add_one]
        exact congrArg _ (congrArg Option.toList hentry.symm)
      · intro hnone
        rcases List.mem_append.mp hnone with hold | hnew
        · have hall := (hsearch.exhausted hold).2
          omega
        · cases List.mem_singleton.mp hnew
  | ended hnone hstep hexhausted =>
      have hlast := hsearch.step hstep
      constructor
      · exact hlast.emitted_le
      · rw [List.reduceOption_append, ← hlast.handed_eq]
        exact List.append_nil _
      · exact fun _ => hexhausted
  | again hagain _ ih => exact ih (hsearch.step hagain.steps)

theorem Served.inOrder (hserved : Served first answers search)
    (hfirst : first.emitted = 0) : InOrder answers search := by
  induction hserved with
  | now =>
      constructor
      · rw [hfirst]
        exact Nat.zero_le _
      · rw [hfirst]
        rfl
      · intro hnone
        cases hnone
  | step _ hstep ih => exact ih.step hstep
  | cancel _ ih => exact ⟨ih.emitted_le, ih.handed_eq, ih.exhausted⟩
  | next _ hnext ih => exact ih.next hnext

theorem Served.emit (hserved : Served first answers search)
    (hfirst : first.emitted = 0) (checkpoint : Checkpoint) :
    Served first (answers ++ [(search.emit checkpoint).1])
      (search.emit checkpoint).2 := by
  apply hserved.next
  apply (next_emit (hserved.inOrder hfirst).emitted_le checkpoint).mono
  intro search later hstep
  exact hstep.stepsTo

/-! ## Handing out all forms -/

/-- What is handed out by one call after the other until there is nothing
left. -/
inductive Collects (checkpoint : Checkpoint) :
    Search → List History.Entry → Search → Prop where
  | done {search last : Search} (hemit : search.emit checkpoint = (none, last)) :
      Collects checkpoint search [] last
  | more {search later last : Search} {entry : History.Entry}
      {entries : List History.Entry}
      (hemit : search.emit checkpoint = (some entry, later))
      (hrest : Collects checkpoint later entries last) :
      Collects checkpoint search (entry :: entries) last

/-- How many forms were handed out makes no difference to the steps. -/
theorem expand_withEmitted (checkpoint : Checkpoint) (parent : Nat)
    (form : Form) (steps : List Step) (emitted : Nat) (search : Search) :
    Search.expand checkpoint parent form steps
        { search with emitted := emitted } =
      { search.expand checkpoint parent form steps with
        emitted := emitted } := by
  induction steps generalizing search with
  | nil => rfl
  | cons step steps ih =>
      have hseen : ∀ next, Search.hasSeen { search with emitted := emitted }
          next = search.hasSeen next := fun _ => rfl
      simp only [Search.expand, hseen]
      cases Form.rewrite? form step with
      | none => exact ih search
      | some next =>
          simp only
          split
          next => exact ih search
          next =>
            cases search.guard.advance checkpoint with
            | mk leave guard =>
                cases leave with
                | false => rfl
                | true =>
                    simp only [if_true]
                    split
                    next => rfl
                    next => exact ih (search.grow guard parent next step)

theorem step_withEmitted (checkpoint : Checkpoint) (emitted : Nat)
    (search : Search) :
    Search.step checkpoint { search with emitted := emitted } =
      { search.step checkpoint with emitted := emitted } := by
  unfold Search.step
  simp only
  split
  next => rfl
  next =>
    split
    next => rfl
    next =>
      split
      next => rfl
      next number queue _ =>
        exact expand_withEmitted checkpoint number _ _ emitted
          { search with queue := queue }

theorem stepTimes_withEmitted (checkpoint : Checkpoint) (emitted count : Nat)
    (search : Search) :
    stepTimes (Search.step checkpoint) count
        { search with emitted := emitted } =
      { stepTimes (Search.step checkpoint) count search with
        emitted := emitted } := by
  induction count generalizing search with
  | zero => rfl
  | succ count ih => rw [stepTimes, step_withEmitted, ih, stepTimes]

theorem Continues.trans (hlater : search.Continues later)
    (hlast : later.Continues last) : search.Continues last :=
  ⟨hlater.growsTo.trans hlast.growsTo,
    hlast.emitted_eq.trans hlater.emitted_eq⟩

theorem continues_stepTimes (checkpoint : Checkpoint) (count : Nat)
    (search : Search) :
    search.Continues (stepTimes (Search.step checkpoint) count search) := by
  apply stepTimes_induct _ count (.refl search)
  intro later hlater
  exact hlater.trans (StepsTo.whole checkpoint).continues

/-- A run of the search ends like this. -/
structure RunsTo (checkpoint : Checkpoint) (search final : Search) : Prop where
  exists_count : ∃ count, search.run checkpoint count = final
  isFinal : final.status.isFinal = true

theorem RunsTo.withEmitted (hruns : RunsTo checkpoint search last)
    (emitted : Nat) :
    RunsTo checkpoint { search with emitted := emitted }
      { last with emitted := emitted } := by
  rcases hruns.exists_count with ⟨count, hcount⟩
  refine ⟨⟨count, ?_⟩, hruns.isFinal⟩
  rw [run_eq_stepTimes] at hcount ⊢
  rw [stepTimes_withEmitted, hcount]

theorem RunsTo.stepTimes (hruns : RunsTo checkpoint search last)
    (count : Nat) :
    RunsTo checkpoint (stepTimes (Search.step checkpoint) count search)
      last := by
  rcases hruns.exists_count with ⟨all, hall⟩
  rw [run_eq_stepTimes] at hall
  refine ⟨⟨all, ?_⟩, hruns.isFinal⟩
  rw [run_eq_stepTimes, ← stepTimes_add, Nat.add_comm, stepTimes_add, hall]
  exact stepTimes_of_fixed (step_of_isFinal hruns.isFinal) count

theorem RunsTo.of_stepTimes {count : Nat}
    (hruns : RunsTo checkpoint
      (FormalGrammars.stepTimes (Search.step checkpoint) count search) last) :
    RunsTo checkpoint search last := by
  rcases hruns.exists_count with ⟨more, hmore⟩
  refine ⟨⟨count + more, ?_⟩, hruns.isFinal⟩
  rw [run_eq_stepTimes] at hmore ⊢
  rw [stepTimes_add, hmore]

theorem RunsTo.continues (hruns : RunsTo checkpoint search last) :
    search.Continues last := by
  rcases hruns.exists_count with ⟨count, hcount⟩
  rw [← hcount, run_eq_stepTimes]
  exact continues_stepTimes checkpoint count search

/-- Under one checkpoint a call goes some steps along the run.  Then the form
to be handed out is there, or the run has ended. -/
theorem Next.exists_run (hnext : Next (StepsBy checkpoint) search answer last) :
    ∃ count,
      let ran := FormalGrammars.stepTimes (Search.step checkpoint) count search
      (∃ entry, answer = some entry ∧
        ran.history.entry? search.emitted = some entry ∧
        last = { ran with emitted := search.emitted + 1 }) ∨
      (answer = none ∧ last = ran ∧ ran.Exhausted) := by
  induction hnext with
  | handOut hentry => exact ⟨0, .inl ⟨_, rfl, hentry, rfl⟩⟩
  | ended _ hstep hexhausted =>
      rw [hstep] at hexhausted ⊢
      exact ⟨1, .inr ⟨rfl, rfl, hexhausted⟩⟩
  | again hagain _ ih =>
      rcases ih with ⟨count, hran⟩
      rw [hagain.steps.stepsTo.continues.emitted_eq] at hran
      rw [hagain.steps] at hran
      exact ⟨count + 1, hran⟩

theorem next_of_emit (hle : search.emitted ≤ search.history.size)
    (hemit : search.emit checkpoint = (answer, last)) :
    Next (StepsBy checkpoint) search answer last := by
  have hnext := next_emit hle checkpoint
  rw [hemit] at hnext
  exact hnext

theorem drop_eq_cons {h : History} {number : Nat} {entry : History.Entry}
    (hentry : h.entry? number = some entry) :
    h.entries.drop number = entry :: h.entries.drop (number + 1) := by
  rcases List.getElem?_eq_some_iff.mp hentry with ⟨hlt, hget⟩
  rw [List.drop_eq_getElem_cons hlt, hget]

theorem Collects.exists_final
    (hcollects : Collects checkpoint search entries last)
    (hle : search.emitted ≤ search.history.size) :
    ∃ final, RunsTo checkpoint search final ∧
      entries = final.history.entries.drop search.emitted ∧
      last = { final with emitted := final.history.size } := by
  induction hcollects with
  | @done search last hemit =>
      rcases (next_of_emit hle hemit).exists_run with
        ⟨count, ⟨_, hsome, _⟩ | ⟨_, hlast, hexhausted⟩⟩
      · cases hsome
      · have hruns : RunsTo checkpoint search last :=
          ⟨⟨count, (run_eq_stepTimes _ _ _).trans hlast.symm⟩,
            hlast ▸ hexhausted.1⟩
        have hall : last.emitted = last.history.size := hlast ▸ hexhausted.2
        refine ⟨last, hruns, ?_, ?_⟩
        · rw [← hruns.continues.emitted_eq, hall]
          exact (List.drop_length).symm
        · rw [← hall]
  | @more search later last entry entries hemit _ ih =>
      rcases (next_of_emit hle hemit).exists_run with
        ⟨count, ⟨_, hsome, hentry, hlater⟩ | ⟨hnone, _⟩⟩
      · cases hsome
        rw [hlater] at ih
        rcases ih (History.lt_size_of_entry hentry) with
          ⟨final, hruns, hentries, hlast⟩
        -- the run does not see that a form was handed out in between
        have hran := (hruns.withEmitted
          (stepTimes (Search.step checkpoint) count search).emitted).of_stepTimes
        rw [(continues_stepTimes checkpoint count search).emitted_eq] at hran
        have hkept := (hruns.continues.growsTo.entry_eq
          (History.lt_size_of_entry hentry)).trans hentry
        refine ⟨_, hran, ?_, hlast⟩
        rw [hentries]
        exact (drop_eq_cons hkept).symm
      · cases hnone

theorem RunsTo.collects (hruns : RunsTo checkpoint search last)
    (hle : search.emitted ≤ search.history.size) :
    Collects checkpoint search (last.history.entries.drop search.emitted)
      { last with emitted := last.history.size } := by
  induction hleft : last.history.size - search.emitted using Nat.strongRecOn
    generalizing search last with
  | ind left ih =>
      cases hemit : search.emit checkpoint with
      | mk answer later =>
          rcases (next_of_emit hle hemit).exists_run with
            ⟨count, ⟨entry, rfl, hentry, hlater⟩ | ⟨rfl, hlater, hexhausted⟩⟩
          · have hran := hruns.stepTimes count
            have hlt := History.lt_size_of_entry hentry
            have hkept := (hran.continues.growsTo.entry_eq hlt).trans hentry
            have hfewer := History.lt_size_of_entry hkept
            have hrest := ih (last.history.size - (search.emitted + 1))
              (by omega) (hran.withEmitted (search.emitted + 1)) hlt rfl
            rw [drop_eq_cons hkept]
            rw [hlater] at hemit
            exact .more hemit hrest
          · have hran := hruns.stepTimes count
            rcases hran.exists_count with ⟨more, hmore⟩
            rw [run_eq_stepTimes, stepTimes_of_fixed
              (step_of_isFinal hexhausted.1), ← hlater] at hmore
            rw [← hlater, hmore] at hexhausted
            have hrest : last.history.entries.drop search.emitted = [] := by
              rw [← hruns.continues.emitted_eq, hexhausted.2]
              exact List.drop_length
            have hself : { last with emitted := last.history.size } = last := by
              rw [← hexhausted.2]
            rw [hrest, hself, ← hmore]
            exact .done hemit

/-- What is collected is what the run adds and what still waited. -/
theorem collects_iff (hle : search.emitted ≤ search.history.size) :
    Collects checkpoint search entries last ↔
      ∃ final, RunsTo checkpoint search final ∧
        entries = final.history.entries.drop search.emitted ∧
        last = { final with emitted := final.history.size } := by
  constructor
  · intro hcollects
    exact hcollects.exists_final hle
  · rintro ⟨final, hruns, rfl, rfl⟩
    exact hruns.collects hle

/-- In whatever order calls for the next form are mixed with steps, and
whatever the guard does meanwhile, the forms are handed out in the order of
their numbers, none twice and none left out, and nothing is answered only when
the search has ended and all its forms were handed out.  The loop of a call
ends.  Handing out whatever is left leads to where the run leads, and gives the
other forms of its history. -/
theorem handsOut_inOrder (hstart : g.start = some start) (target : Form)
    (schedule : Schedule) :
    ∃ first, Search.start g target schedule = .ok first ∧
      ∀ answers search, Served first answers search →
        let handed := answers.reduceOption
        handed = search.history.entries.take handed.length ∧
        (none ∈ answers → search.status.isFinal = true ∧
          handed = search.history.entries) ∧
        Acc (fun later search => Again StepsTo search later) search ∧
        ∀ checkpoint,
          Next (StepsBy checkpoint) search (search.emit checkpoint).1
            (search.emit checkpoint).2 ∧
          ∀ entries last, Collects checkpoint search entries last ↔
            ∃ final, RunsTo checkpoint search final ∧
              handed ++ entries = final.history.entries ∧
              last = { final with emitted := final.history.size } := by
  have hrequire := Grammar.requireStart_eq_ok_iff.mpr hstart
  refine ⟨_, by rw [Search.start, hrequire]; rfl, ?_⟩
  intro answers search hserved handed
  have hsearch := hserved.inOrder rfl
  have hhanded : handed = search.history.entries.take search.emitted :=
    hsearch.handed_eq
  have hlength : handed.length = search.emitted := by
    rw [hhanded, List.length_take]
    exact Nat.min_eq_left hsearch.emitted_le
  refine ⟨?_, ?_, acc_again hsearch.emitted_le, ?_⟩
  · rw [hlength]
    exact hhanded
  · intro hnone
    have hexhausted := hsearch.exhausted hnone
    refine ⟨hexhausted.1, hhanded.trans ?_⟩
    rw [hexhausted.2]
    exact List.take_length
  · intro checkpoint
    refine ⟨next_emit hsearch.emitted_le checkpoint, ?_⟩
    intro entries last
    rw [collects_iff hsearch.emitted_le]
    apply exists_congr
    intro final
    apply and_congr_right
    intro hruns
    apply and_congr_left
    intro _
    rw [hhanded, ← hruns.continues.growsTo.take_eq hsearch.emitted_le]
    constructor
    · intro hentries
      rw [hentries, List.take_append_drop]
    · intro hall
      exact List.append_cancel_left
        (hall.trans (List.take_append_drop _ _).symm)

/-- `S → aSb | ab`. -/
def nestedLetters : Grammar :=
  Grammar.withProductions { start := some (.var "S") }
    [.rule (.var "S") [.term "a", .var "S", .term "b"],
      .rule (.var "S") [.term "a", .term "b"]]

def twoNested : Form :=
  [.term "a", .term "a", .term "b", .term "b"]

/-- The search is cancelled in the middle of its first step, which has made a
form by then; both forms are handed out before nothing is answered. -/
theorem handsOut_nestedLetters :
    nestedLetters.start = some (.var "S") ∧
      ∃ first answers search,
        Search.start nestedLetters twoNested {} = .ok first ∧
        Served first answers search ∧
        (answers.map fun answer => answer.map History.Entry.form) =
          [some [.var "S"], some [.term "a", .var "S", .term "b"], none] ∧
        search.status = .abandoned ∧
        answers.reduceOption = search.history.entries ∧
        ∃ entries last, Collects .always first entries last ∧
          entries.map History.Entry.form =
            [[.var "S"], [.term "a", .var "S", .term "b"], twoNested] ∧
          last.status = .accepted 2 := by
  rcases handsOut_inOrder (g := nestedLetters) rfl twoNested {} with
    ⟨first, hfirst, hall⟩
  have hrun : ∃ built, Search.start nestedLetters twoNested {} = .ok built ∧
      built.emitted = 0 ∧
      (let half := built.stepInTwo Guard.cancel .always 1
      let one := half.emit .always
      let two := one.2.emit .always
      let three := two.2.emit .always
      one.1.map History.Entry.form = some [.var "S"] ∧
        two.1.map History.Entry.form =
          some [.term "a", .var "S", .term "b"] ∧
        three.1 = none ∧ three.2.status = .abandoned) ∧
      (let final := built.run .always 2
      final.status = .accepted 2 ∧
        final.history.entries.map History.Entry.form =
          [[.var "S"], [.term "a", .var "S", .term "b"], twoNested]) :=
    ⟨_, rfl, by decide +kernel⟩
  rcases hrun with ⟨built, hbuilt, hzero, ⟨hone, htwo, hthree, hstatus⟩,
    haccepted, hforms⟩
  rw [hfirst] at hbuilt
  cases hbuilt
  have hhalf : Served first []
      (first.stepInTwo Guard.cancel .always 1) := .step .now (.cancelled _ 1)
  have hserved := ((hhalf.emit hzero .always).emit hzero .always).emit hzero
    .always
  rcases hall _ _ hserved with ⟨_, hended, _⟩
  rcases hall _ _ .now with ⟨_, _, _, hcollect⟩
  refine ⟨rfl, first, _, _, hfirst, hserved, ?_, hstatus, ?_, ?_⟩
  · simp [hone, htwo, hthree]
  · exact (hended (by simp [hthree])).2
  · refine ⟨_, _, ((hcollect .always).2 _ _).mpr
      ⟨first.run .always 2, ⟨⟨2, rfl⟩, ?_⟩, rfl, rfl⟩, hforms, haccepted⟩
    rw [haccepted]
    rfl

end Search

end FormalGrammars
