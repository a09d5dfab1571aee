import FormalGrammars.Predictive.Parser
import FormalGrammars.Proofs.GuardedRun
import FormalGrammars.Proofs.Search.Lockstep
import FormalGrammars.Proofs.ShiftReduce.Derivation

/-!
# A guard stops a run and does nothing else

A guarded run is compared with one whose guard never stops, after the same
number of steps.  A parser that was not stopped is in the same state, whatever
its schedule is and whatever its checkpoint has answered: a move does not look
at the guard.  The search is the subject of a module of its own, and the last
theorem here puts the three engines together.
-/

namespace FormalGrammars

/-! ## Moves that need leave -/

/-- A machine that asks its guard before each move.  Moves neither look at the
guard nor change it. -/
structure GuardedMachine (α : Type) where
  guard : α → Guard
  withGuard : Guard → α → α
  outcome : α → Option Outcome
  move : α → α
  abandon : α → α
  withGuard_guard : ∀ state, withGuard (guard state) state = state
  guard_withGuard : ∀ g state, guard (withGuard g state) = g
  withGuard_withGuard : ∀ g h state,
    withGuard g (withGuard h state) = withGuard g state
  outcome_withGuard : ∀ g state, outcome (withGuard g state) = outcome state
  move_withGuard : ∀ g state, move (withGuard g state) = withGuard g (move state)
  outcome_move : ∀ state, outcome state = none →
    outcome (move state) ≠ some .abandoned
  outcome_abandon : ∀ state, outcome (abandon state) = some .abandoned

namespace GuardedMachine

variable {α : Type} (m : GuardedMachine α)

/-- One guarded move.  A machine that has ended stays as it is. -/
def step (checkpoint : Checkpoint) (state : α) : α :=
  if (m.outcome state).isSome then state
  else
    let (leave, guard) := (m.guard state).advance checkpoint
    if leave then m.move (m.withGuard guard state)
    else m.abandon (m.withGuard guard state)

def cancel (state : α) : α :=
  m.withGuard (m.guard state).cancel state

variable {m} {checkpoint : Checkpoint} {state free : α}

theorem step_of_ended (hended : (m.outcome state).isSome = true) :
    m.step checkpoint state = state := by
  rw [step, if_pos hended]

theorem step_of_leave (hrunning : m.outcome state = none)
    (hleave : ((m.guard state).advance checkpoint).1 = true) :
    m.step checkpoint state =
      m.withGuard ((m.guard state).advance checkpoint).2 (m.move state) := by
  rw [step, hrunning, ← m.move_withGuard]
  simp [hleave]

theorem step_of_refusal (hrunning : m.outcome state = none)
    (hleave : ((m.guard state).advance checkpoint).1 = false) :
    m.step checkpoint state =
      m.abandon (m.withGuard ((m.guard state).advance checkpoint).2 state) := by
  rw [step, hrunning]
  simp [hleave]

/-- A step that abandons the run changes nothing but the guard. -/
theorem step_of_abandoned (hgoing : (m.outcome state).isSome = false)
    (habandoned : m.outcome (m.step checkpoint state) = some .abandoned) :
    ∃ guard, m.step checkpoint state = m.abandon (m.withGuard guard state) := by
  have hrunning : m.outcome state = none := by simpa using hgoing
  cases hleave : ((m.guard state).advance checkpoint).1 with
  | false => exact ⟨_, step_of_refusal hrunning hleave⟩
  | true =>
      rw [step_of_leave hrunning hleave, m.outcome_withGuard] at habandoned
      exact absurd habandoned (m.outcome_move state hrunning)

/-- The guarded machine was stopped, or it is the free one but for the guard. -/
structure InStep (m : GuardedMachine α) (state free : α) : Prop where
  not_cancelled : (m.guard free).cancelled = false
  not_stopped : m.outcome free ≠ some .abandoned
  same : m.outcome state ≠ some .abandoned →
    m.withGuard (m.guard free) state = free

theorem InStep.outcome_eq (hstep : m.InStep state free)
    (hgoing : m.outcome state ≠ some .abandoned) :
    m.outcome free = m.outcome state := by
  rw [← hstep.same hgoing, m.outcome_withGuard]

theorem InStep.step (hstep : m.InStep state free) (checkpoint : Checkpoint) :
    m.InStep (m.step checkpoint state) (m.step .always free) := by
  obtain ⟨hleave, hguard⟩ := Guard.advance_always hstep.not_cancelled
  constructor
  · cases hended : m.outcome free with
    | some outcome =>
        rw [step_of_ended (by rw [hended]; rfl)]
        exact hstep.not_cancelled
    | none =>
        rw [step_of_leave hended hleave, m.guard_withGuard]
        exact hguard
  · cases hended : m.outcome free with
    | some outcome =>
        rw [step_of_ended (by rw [hended]; rfl)]
        exact hstep.not_stopped
    | none =>
        rw [step_of_leave hended hleave, m.outcome_withGuard]
        exact m.outcome_move free hended
  · intro hgoing
    cases houtcome : m.outcome state with
    | some outcome =>
        have hended : (m.outcome state).isSome = true := by rw [houtcome]; rfl
        rw [step_of_ended hended] at hgoing ⊢
        rw [← hstep.outcome_eq hgoing] at hended
        rw [step_of_ended hended]
        exact hstep.same hgoing
    | none =>
        have hsame := hstep.same (by simp [houtcome])
        have hfree := hstep.outcome_eq (by simp [houtcome])
        rw [houtcome] at hfree
        cases hrefused : ((m.guard state).advance checkpoint).1 with
        | false =>
            rw [step_of_refusal houtcome hrefused, m.outcome_abandon] at hgoing
            exact absurd rfl hgoing
        | true =>
            have hmove : m.move free =
                m.withGuard (m.guard free) (m.move state) := by
              rw [← m.move_withGuard, hsame]
            rw [step_of_leave houtcome hrefused, step_of_leave hfree hleave,
              m.guard_withGuard, m.withGuard_withGuard, hmove,
              m.withGuard_withGuard]

theorem InStep.cancel (hstep : m.InStep state free) :
    m.InStep (m.cancel state) free := by
  refine ⟨hstep.not_cancelled, hstep.not_stopped, fun hgoing => ?_⟩
  rw [GuardedMachine.cancel, m.outcome_withGuard] at hgoing
  rw [GuardedMachine.cancel, m.withGuard_withGuard]
  exact hstep.same hgoing

/-- A run that was not stopped is where the free run is, which nothing stops. -/
theorem inStep_of_reachesIn {first other : α} {count : Nat}
    (hreaches : ReachesIn m.step m.cancel first count state)
    (hguard : (m.guard other).cancelled = false)
    (hrunning : m.outcome other = none)
    (hsame : m.withGuard (m.guard other) first = other) :
    m.InStep state (stepTimes (m.step .always) count other) :=
  hreaches.keeps ⟨hguard, by rw [hrunning]; simp, fun _ => hsame⟩
    (fun checkpoint _ _ hstep => hstep.step checkpoint)
    (fun _ _ hstep => hstep.cancel)

/-- What a guarded run rejects, the free run rejects at the same moment. -/
theorem outcome_free_of_reject {first : α} {count : Nat}
    (hreaches : ReachesIn m.step m.cancel first count state)
    (hguard : (m.guard first).cancelled = false)
    (hrunning : m.outcome first = none) {mismatch : Mismatch}
    (hreject : m.outcome state = some (.reject mismatch)) :
    m.outcome (stepTimes (m.step .always) count first) =
      some (.reject mismatch) := by
  have hstep := inStep_of_reachesIn hreaches hguard hrunning
    (m.withGuard_guard first)
  rw [hstep.outcome_eq (by simp [hreject]), hreject]

/-- What the guard does to a run and to its next step. -/
theorem guarded_run {first other : α} {count : Nat}
    (hreaches : ReachesIn m.step m.cancel first count state)
    (hguard : (m.guard other).cancelled = false)
    (hrunning : m.outcome other = none)
    (hsame : m.withGuard (m.guard other) first = other) :
    let last := stepTimes (m.step .always) count other
    m.outcome last ≠ some .abandoned ∧
      (m.outcome state ≠ some .abandoned →
        m.withGuard (m.guard last) state = last) ∧
      ∀ checkpoint,
        ((m.outcome state).isSome = true → m.step checkpoint state = state) ∧
        ((m.outcome state).isSome = false →
          m.outcome (m.step checkpoint state) = some .abandoned →
          ∃ guard, m.step checkpoint state =
            m.abandon (m.withGuard guard state)) := by
  have hstep := inStep_of_reachesIn hreaches hguard hrunning hsame
  exact ⟨hstep.not_stopped, hstep.same,
    fun _ => ⟨step_of_ended, step_of_abandoned⟩⟩

end GuardedMachine

/-! ## The parsers -/

theorem PredictiveParser.move_withGuard (table : PredictiveTable)
    (guard : Guard) (parser : PredictiveParser) :
    PredictiveParser.move table { parser with guard := guard } =
      { parser.move table with guard := guard } := by
  cases hstack : parser.stack with
  | nil =>
      cases hempty : parser.remaining.isEmpty <;>
        simp [move, hstack, hempty, reject, finish]
  | cons top below =>
      cases hterm : top.isTerm with
      | true =>
          by_cases hnext : parser.remaining.head? = some top <;>
            simp [move, hstack, hterm, hnext, reject, finish]
      | false =>
          cases hentry : table.entry? top (.ofRest parser.remaining) <;>
            simp [move, hstack, hterm, hentry, reject, finish]

theorem PredictiveParser.outcome_move (table : PredictiveTable)
    (parser : PredictiveParser) (hrunning : parser.outcome = none) :
    (parser.move table).outcome ≠ some .abandoned := by
  unfold PredictiveParser.move
  split
  next => split <;> simp [finish, reject]
  next =>
    split
    next => split <;> simp [finish, reject, hrunning]
    next => split <;> simp [finish, reject, hrunning]

/-- Its steps are those of the parser by definition. -/
def PredictiveParser.machine (table : PredictiveTable) :
    GuardedMachine PredictiveParser where
  guard := PredictiveParser.guard
  withGuard guard parser := { parser with guard := guard }
  outcome := PredictiveParser.outcome
  move := PredictiveParser.move table
  abandon parser := parser.finish .abandoned
  withGuard_guard _ := rfl
  guard_withGuard _ _ := rfl
  withGuard_withGuard _ _ _ := rfl
  outcome_withGuard _ _ := rfl
  move_withGuard := move_withGuard table
  outcome_move := outcome_move table
  outcome_abandon _ := rfl

theorem ShiftReduceParser.reduce_withGuard (table : SlrTable) (guard : Guard)
    (parser : ShiftReduceParser) (number : Nat) :
    ShiftReduceParser.reduce table { parser with guard := guard } number =
      { parser.reduce table number with guard := guard } := by
  generalize hp : (table.productions[number]?).getD ⟨[], []⟩ = p
  by_cases hlength : parser.states.length ≤ p.rhs.length
  · simp [reduce, hp, hlength, top, reject, finish]
  · cases hhead : p.head? with
    | none => simp [reduce, hp, hlength, hhead, top, reject, finish]
    | some head =>
        cases hgoto : table.goto? (parser.states[p.rhs.length]?.getD 0) head <;>
          simp [reduce, hp, hlength, hhead, top, hgoto, reject, finish]

theorem ShiftReduceParser.move_withGuard (table : SlrTable) (guard : Guard)
    (parser : ShiftReduceParser) :
    ShiftReduceParser.move table { parser with guard := guard } =
      { parser.move table with guard := guard } := by
  cases haction : table.action? parser.top (.ofRest parser.remaining) with
  | none =>
      simp only [top] at haction
      simp [move, top, haction, reject, finish]
  | some action =>
      simp only [top] at haction
      cases action with
      | accept => simp [move, top, haction, finish]
      | shift target => simp [move, top, haction]
      | reduce number =>
          simp only [move, top, haction]
          exact reduce_withGuard table guard parser number

theorem ShiftReduceParser.outcome_reduce (table : SlrTable)
    (parser : ShiftReduceParser) (number : Nat)
    (hrunning : parser.outcome = none) :
    (parser.reduce table number).outcome ≠ some .abandoned := by
  unfold ShiftReduceParser.reduce
  simp only
  split
  next => simp [finish, reject]
  next =>
    split
    next => simp [finish, reject]
    next => split <;> simp [finish, reject, hrunning]

theorem ShiftReduceParser.outcome_move (table : SlrTable)
    (parser : ShiftReduceParser) (hrunning : parser.outcome = none) :
    (parser.move table).outcome ≠ some .abandoned := by
  unfold ShiftReduceParser.move
  split
  next => simp [finish, reject]
  next => simp [finish]
  next => simp [hrunning]
  next number _ => exact outcome_reduce table parser number hrunning

def ShiftReduceParser.machine (table : SlrTable) :
    GuardedMachine ShiftReduceParser where
  guard := ShiftReduceParser.guard
  withGuard guard parser := { parser with guard := guard }
  outcome := ShiftReduceParser.outcome
  move := ShiftReduceParser.move table
  abandon parser := parser.finish .abandoned
  withGuard_guard _ := rfl
  guard_withGuard _ _ := rfl
  withGuard_withGuard _ _ _ := rfl
  outcome_withGuard _ _ := rfl
  move_withGuard := move_withGuard table
  outcome_move := outcome_move table
  outcome_abandon _ := rfl

/-! ## All three engines -/

/-- Without the guard's intervention the engines do what they do unguarded, step
for step, and a guard that intervenes leaves what was done so far. -/
theorem guard_only_stops (predictive : PredictiveTable) (slr : SlrTable)
    {g : Grammar} {start : Symbol} (hstart : g.start = some start)
    (input : Form) (schedule other : Schedule) :
    (∀ count parser,
      ReachesIn (PredictiveParser.step predictive) PredictiveParser.cancel
        (.start predictive schedule input) count parser →
      let free := stepTimes (PredictiveParser.step predictive .always) count
        (.start predictive other input)
      free.outcome ≠ some .abandoned ∧
      (parser.outcome ≠ some .abandoned →
        { parser with guard := free.guard } = free) ∧
      ∀ checkpoint,
        (parser.hasEnded = true → parser.step predictive checkpoint = parser) ∧
        (parser.hasEnded = false →
          (parser.step predictive checkpoint).outcome = some .abandoned →
          ∃ guard, parser.step predictive checkpoint =
            { parser with guard := guard, outcome := some .abandoned })) ∧
    (∀ count parser,
      ReachesIn (ShiftReduceParser.step slr) ShiftReduceParser.cancel
        (.start schedule input) count parser →
      let free := stepTimes (ShiftReduceParser.step slr .always) count
        (.start other input)
      free.outcome ≠ some .abandoned ∧
      (parser.outcome ≠ some .abandoned →
        { parser with guard := free.guard } = free) ∧
      ∀ checkpoint,
        (parser.hasEnded = true → parser.step slr checkpoint = parser) ∧
        (parser.hasEnded = false →
          (parser.step slr checkpoint).outcome = some .abandoned →
          ∃ guard, parser.step slr checkpoint =
            { parser with guard := guard, outcome := some .abandoned })) ∧
    ∃ first last, Search.start g input schedule = .ok first ∧
      Search.start g input other = .ok last ∧
      ∀ count search, Search.ReachedIn first count search →
        let free := stepTimes (Search.step .always) count last
        free.status ≠ .abandoned ∧
        search.history.GrowsTo free.history ∧
        (search.status ≠ .abandoned →
          search.status = free.status ∧ search.history = free.history ∧
            search.queue = free.queue) ∧
        ∀ checkpoint, search.status.isFinal = true →
          search.step checkpoint = search := by
  refine ⟨fun count parser hreaches => ?_, fun count parser hreaches => ?_, ?_⟩
  · exact GuardedMachine.guarded_run (m := PredictiveParser.machine predictive)
      hreaches rfl rfl rfl
  · exact GuardedMachine.guarded_run (m := ShiftReduceParser.machine slr)
      hreaches rfl rfl rfl
  · obtain ⟨first, last, hfirst, hlast, halike, hlast_going⟩ :=
      Search.exists_start_alike hstart input schedule other
    refine ⟨first, last, hfirst, hlast, fun count search hreached => ?_⟩
    have hfree := stepTimes_induct (motive := Search.Unhindered)
      (fun _ => Search.Unhindered.step) count hlast_going
    have hstep := Search.inStep_of_reachedIn hreached (.inl halike)
    refine ⟨hfree.not_stopped, hstep.growsTo, fun hgoing => ?_,
      fun _ => Search.step_of_isFinal⟩
    have hsame := hstep.alike hgoing
    exact ⟨hsame.status_eq, hsame.history_eq, hsame.queue_eq⟩

/-- For `acb` a shift-reduce run that is asked at every count from the second on
and may go on accepts, and so does the free one.  A search that may not go on
there keeps the form that it has. -/
theorem guard_only_stops_bracketed :
    ShiftReduceParser.bracketed.start = some (.var "S") ∧
    ∃ predictive slr first last,
      PredictiveTable.ofGrammar ShiftReduceParser.bracketed = .ok predictive ∧
      SlrTable.ofGrammar ShiftReduceParser.bracketed = .ok slr ∧
      Search.start ShiftReduceParser.bracketed
        [.term "a", .term "c", .term "b"] ⟨2, 1⟩ = .ok first ∧
      Search.start ShiftReduceParser.bracketed
        [.term "a", .term "c", .term "b"] {} = .ok last ∧
      (stepTimes (ShiftReduceParser.step slr .always) 6
        (.start {} [.term "a", .term "c", .term "b"])).outcome =
          some .accept ∧
      (stepTimes (Search.step .never) 2 first).status = .abandoned ∧
      (stepTimes (Search.step .never) 2 first).history.GrowsTo
        (stepTimes (Search.step .always) 2 last).history := by
  have hpredictive : ∃ predictive,
      PredictiveTable.ofGrammar ShiftReduceParser.bracketed = .ok predictive :=
    ⟨_, rfl⟩
  have hslr : ∃ slr, SlrTable.ofGrammar ShiftReduceParser.bracketed = .ok slr ∧
      (stepTimes (ShiftReduceParser.step slr .always) 6
        (.start ⟨2, 1⟩ [.term "a", .term "c", .term "b"])).outcome =
          some .accept :=
    ⟨_, rfl, by decide +kernel⟩
  have hsearch : ∃ built, Search.start ShiftReduceParser.bracketed
        [.term "a", .term "c", .term "b"] ⟨2, 1⟩ = .ok built ∧
      (stepTimes (Search.step .never) 2 built).status = .abandoned :=
    ⟨_, rfl, by decide +kernel⟩
  obtain ⟨predictive, hpredictive⟩ := hpredictive
  obtain ⟨slr, hslr, haccepted⟩ := hslr
  obtain ⟨built, hbuilt, habandoned⟩ := hsearch
  obtain ⟨-, hparser, first, last, hfirst, hlast, hall⟩ :=
    guard_only_stops predictive slr (g := ShiftReduceParser.bracketed) rfl
      [.term "a", .term "c", .term "b"] ⟨2, 1⟩ {}
  rw [hfirst] at hbuilt
  cases hbuilt
  have hsame := (hparser 6 _ (reachesIn_stepTimes .always 6)).2.1
    (by rw [haccepted]; simp)
  have hgrows := (hall 2 _ (Search.reachedIn_stepTimes .never 2)).2.1
  exact ⟨rfl, predictive, slr, built, last, hpredictive, hslr, hfirst, hlast,
    hsame ▸ haccepted, habandoned, hgrows⟩

end FormalGrammars
