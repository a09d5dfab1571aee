import FormalGrammars.Proofs.Lockstep
import FormalGrammars.Proofs.Predictive.Cells
import FormalGrammars.Proofs.ShiftReduce.Cells
import FormalGrammars.Proofs.ShiftReduce.Stacks

/-!
# What a rejection says

A rejection names the next symbol of the input and lists what was expected in
its place.  The list comes from the row of a table or from the top of the stack.
It is exact: with an expected input in front of it the parser would not have
rejected, and with every other one it would.  For the tables this means that no
row has an empty cell.  For a shift-reduce parser it means, besides, that no
reduction that is chosen can fail.

A rejected run stays rejected, with the stacks that it had before.  So what it
expected can still be tried out on it later.
-/

namespace FormalGrammars

/-! ## Expected inputs -/

/-- What a move makes of the rest of an input: it goes on with an expected one
and rejects every other one. -/
inductive Screened (expected : List (Option Symbol)) (rest : Form)
    (outcome : Option Outcome) : Prop where
  | expected (hmem : rest.head? ∈ expected)
      (hgoing : ∀ mismatch, outcome ≠ some (.reject mismatch))
  | unexpected (hnew : rest.head? ∉ expected)
      (hreject : outcome = some (.reject ⟨rest.head?, expected⟩))

/-- The next symbol was found and not expected, and expected are the inputs with
which the outcome would not be a rejection. -/
structure Mismatch.ExactFor (mismatch : Mismatch) (remaining : Form)
    (outcomeWith : Form → Option Outcome) : Prop where
  found_eq : mismatch.found = remaining.head?
  found_not_mem : mismatch.found ∉ mismatch.expected
  mem_expected_iff : ∀ rest, rest.head? ∈ mismatch.expected ↔
    ∀ other, outcomeWith rest ≠ some (.reject other)

theorem Mismatch.exactFor_of_screened {expected : List (Option Symbol)}
    {remaining : Form} {outcomeWith : Form → Option Outcome}
    {mismatch : Mismatch}
    (hscreened : ∀ rest, Screened expected rest (outcomeWith rest))
    (hreject : outcomeWith remaining = some (.reject mismatch)) :
    mismatch.ExactFor remaining outcomeWith := by
  cases hscreened remaining with
  | expected _ hgoing => exact absurd hreject (hgoing mismatch)
  | unexpected hnew hsame =>
      rw [hsame, Option.some.injEq, Outcome.reject.injEq] at hreject
      subst hreject
      refine ⟨rfl, hnew, ?_⟩
      intro rest
      cases hscreened rest with
      | expected hmem hgoing => exact iff_of_true hmem hgoing
      | unexpected hother hsame =>
          apply iff_of_false hother
          intro hgoing
          exact hgoing _ hsame

/-! ## Machines in front of an input -/

/-- A guarded machine that can be put in front of another input, which sets it
going again. -/
structure ReadingMachine (α : Type) extends GuardedMachine α where
  remaining : α → Form
  facing : Form → α → α
  guard_facing : ∀ rest state, guard (facing rest state) = guard state
  outcome_facing : ∀ rest state, outcome (facing rest state) = none
  remaining_withGuard : ∀ g state,
    remaining (withGuard g state) = remaining state
  facing_withGuard : ∀ rest g state,
    facing rest (withGuard g state) = withGuard g (facing rest state)
  facing_remaining : ∀ state, outcome state = none →
    facing (remaining state) state = state

namespace ReadingMachine

variable {α : Type} {m : ReadingMachine α} {first state : α}
  {checkpoint : Checkpoint} {mismatch : Mismatch}

/-- A move that rejects changes nothing but the outcome. -/
def RejectsInPlace (m : ReadingMachine α) (state : α) : Prop :=
  ∀ mismatch, m.outcome (m.move state) = some (.reject mismatch) →
    m.facing (m.remaining (m.move state)) (m.move state) = state

theorem leave_of_reject (hrunning : m.outcome state = none)
    (hreject : m.outcome (m.step checkpoint state) =
      some (.reject mismatch)) :
    ((m.guard state).advance checkpoint).1 = true := by
  cases hleave : ((m.guard state).advance checkpoint).1 with
  | true => rfl
  | false =>
      rw [GuardedMachine.step_of_refusal hrunning hleave, m.outcome_abandon]
        at hreject
      cases hreject

theorem outcome_step_of_leave (hrunning : m.outcome state = none)
    (hleave : ((m.guard state).advance checkpoint).1 = true) :
    m.outcome (m.step checkpoint state) = m.outcome (m.move state) := by
  rw [GuardedMachine.step_of_leave hrunning hleave, m.outcome_withGuard]

/-- What a run has rejected it would reject once more. -/
theorem rejects_again (hreaches : Reaches m.step m.cancel first state)
    (hfirst : m.outcome first = none)
    (hstill : ∀ other, Reaches m.step m.cancel first other →
      m.outcome other = none → m.RejectsInPlace other)
    (hreject : m.outcome state = some (.reject mismatch)) :
    m.outcome (m.move (m.facing (m.remaining state) state)) =
      some (.reject mismatch) := by
  induction hreaches with
  | now =>
      rw [hfirst] at hreject
      cases hreject
  | @step other checkpoint hbefore ih =>
      cases hended : m.outcome other with
      | some outcome =>
          rw [GuardedMachine.step_of_ended (by rw [hended]; rfl)]
            at hreject ⊢
          exact ih hreject
      | none =>
          have hleave := leave_of_reject hended hreject
          rw [outcome_step_of_leave hended hleave] at hreject
          have hsame := hstill other hbefore hended mismatch hreject
          rw [GuardedMachine.step_of_leave hended hleave,
            m.remaining_withGuard, m.facing_withGuard, m.move_withGuard,
            m.outcome_withGuard, hsame]
          exact hreject
  | cancel _ ih =>
      rw [GuardedMachine.cancel, m.outcome_withGuard] at hreject
      rw [GuardedMachine.cancel, m.remaining_withGuard, m.facing_withGuard,
        m.move_withGuard, m.outcome_withGuard]
      exact ih hreject

/-- A step that rejects has come to an exact mismatch.  While the run goes on,
it can be tried out with the step itself; afterwards the step only repeats the
outcome, and it takes a move from the same stacks. -/
theorem exactFor_of_reject (hreaches : Reaches m.step m.cancel first state)
    (hfirst : m.outcome first = none)
    (hstill : ∀ other, Reaches m.step m.cancel first other →
      m.outcome other = none → m.RejectsInPlace other)
    {expected : List (Option Symbol)}
    (hscreened : ∀ rest,
      Screened expected rest (m.outcome (m.move (m.facing rest state))))
    (hreject : m.outcome (m.step checkpoint state) =
      some (.reject mismatch)) :
    (mismatch.ExactFor (m.remaining state) fun rest =>
        m.outcome (m.move (m.facing rest state))) ∧
      (m.outcome state = none →
        mismatch.ExactFor (m.remaining state) fun rest =>
          m.outcome (m.step checkpoint (m.facing rest state))) := by
  cases hended : m.outcome state with
  | some outcome =>
      rw [GuardedMachine.step_of_ended (by rw [hended]; rfl)] at hreject
      constructor
      · apply Mismatch.exactFor_of_screened hscreened
        exact rejects_again hreaches hfirst hstill hreject
      · intro hrunning
        cases hrunning
  | none =>
      have hleave := leave_of_reject hended hreject
      have hstep : ∀ rest, m.outcome (m.step checkpoint (m.facing rest state)) =
          m.outcome (m.move (m.facing rest state)) := by
        intro rest
        apply outcome_step_of_leave (m.outcome_facing rest state)
        rw [m.guard_facing]
        exact hleave
      rw [outcome_step_of_leave hended hleave] at hreject
      have hexact : mismatch.ExactFor (m.remaining state) fun rest =>
          m.outcome (m.move (m.facing rest state)) := by
        apply Mismatch.exactFor_of_screened hscreened
        rw [m.facing_remaining state hended]
        exact hreject
      constructor
      · exact hexact
      · intro _
        simp only [hstep]
        exact hexact

end ReadingMachine

variable {g : Grammar} {start : Symbol}

/-! ## Predictive parsers -/

/-- The inputs that a stack can go on with: the end below an empty one, and what
the symbol on top asks for. -/
def PredictiveTable.expectedOn (table : PredictiveTable) :
    Form → List (Option Symbol)
  | [] => [none]
  | top :: _ => if top.isTerm then [some top] else table.expected top

namespace PredictiveParser

variable {table : PredictiveTable} {parser : PredictiveParser}

/-- The running parser with the same stack in front of another input. -/
def facing (rest : Form) (parser : PredictiveParser) : PredictiveParser :=
  { parser with remaining := rest, outcome := none }

theorem screened_move (hg : g.Consistent)
    (hstart : g.requireContextFree = .ok start)
    (htable : PredictiveTable.ofGrammar g = .ok table)
    (parser : PredictiveParser) (rest : Form) :
    Screened (table.expectedOn parser.stack) rest
      ((parser.facing rest).move table).outcome := by
  cases hstack : parser.stack with
  | nil =>
      cases rest with
      | nil =>
          apply Screened.expected
          · simp [PredictiveTable.expectedOn]
          · simp [move, facing, hstack, finish]
      | cons s rest =>
          apply Screened.unexpected
          · simp [PredictiveTable.expectedOn]
          · simp [move, facing, hstack, reject, finish,
              PredictiveTable.expectedOn]
  | cons top below =>
      cases hterm : top.isTerm with
      | true =>
          have hexpected :
              table.expectedOn (top :: below) = [some top] := if_pos hterm
          rw [hexpected]
          by_cases hnext : rest.head? = some top
          · apply Screened.expected
            · exact List.mem_singleton.mpr hnext
            · simp [move, facing, hstack, hterm, hnext]
          · apply Screened.unexpected
            · exact mt List.mem_singleton.mp hnext
            · simp [move, facing, hstack, hterm, hnext, reject, finish]
      | false =>
          have hexpected : table.expectedOn (top :: below) =
              table.expected top := if_neg (by simp [hterm])
          rw [hexpected]
          cases hentry : table.entry? top (.ofRest rest) with
          | none =>
              apply Screened.unexpected
              · intro hmem
                exact (PredictiveTable.mem_expected_iff hg hstart htable).mp
                  hmem hentry
              · simp [move, facing, hstack, hterm, hentry, reject, finish]
          | some p =>
              apply Screened.expected
              · apply (PredictiveTable.mem_expected_iff hg hstart htable).mpr
                simp [hentry]
              · simp [move, facing, hstack, hterm, hentry]

/-- A rejection comes from the stack as it is. -/
theorem move_of_reject {mismatch : Mismatch}
    (hrunning : parser.outcome = none)
    (hreject : (parser.move table).outcome = some (.reject mismatch)) :
    parser.move table = parser.reject (table.expectedOn parser.stack) := by
  cases hstack : parser.stack with
  | nil =>
      cases hempty : parser.remaining.isEmpty with
      | true => simp [move, hstack, hempty, finish] at hreject
      | false => simp [move, hstack, hempty, PredictiveTable.expectedOn]
  | cons top below =>
      cases hterm : top.isTerm with
      | true =>
          by_cases hnext : parser.remaining.head? = some top
          · simp [move, hstack, hterm, hnext, hrunning] at hreject
          · simp [move, hstack, hterm, hnext, PredictiveTable.expectedOn]
      | false =>
          cases hentry : table.entry? top (.ofRest parser.remaining) with
          | none =>
              simp [move, hstack, hterm, hentry, PredictiveTable.expectedOn]
          | some p => simp [move, hstack, hterm, hentry, hrunning] at hreject

theorem facing_remaining (hrunning : parser.outcome = none) :
    parser.facing parser.remaining = parser := by
  unfold facing
  rw [← hrunning]

/-- The parser as a machine in front of its input. -/
def reader (table : PredictiveTable) : ReadingMachine PredictiveParser where
  toGuardedMachine := machine table
  remaining := PredictiveParser.remaining
  facing := facing
  guard_facing _ _ := rfl
  outcome_facing _ _ := rfl
  remaining_withGuard _ _ := rfl
  facing_withGuard _ _ _ := rfl
  facing_remaining _ := facing_remaining

theorem rejectsInPlace (hrunning : parser.outcome = none) :
    (reader table).RejectsInPlace parser := by
  intro mismatch hreject
  change (parser.move table).facing (parser.move table).remaining = parser
  rw [move_of_reject hrunning hreject]
  exact facing_remaining hrunning

end PredictiveParser

/-! ## Shift-reduce parsers -/

namespace ShiftReduceParser

open Automaton (Path)

variable {table : SlrTable} {parser : ShiftReduceParser}

/-- The running parser with the same stacks in front of another input. -/
def facing (rest : Form) (parser : ShiftReduceParser) : ShiftReduceParser :=
  { parser with remaining := rest, outcome := none }

/-- The check is made by the table alone, because a reduction that is chosen
is carried out. -/
theorem screened_move (htable : table.Describes g start)
    (hpath : Path table.states parser.states parser.symbols) (rest : Form) :
    Screened (table.expected parser.top) rest
      ((parser.facing rest).move table).outcome := by
  by_cases hmem : rest.head? ∈ table.expected parser.top
  · apply Screened.expected hmem
    intro mismatch hreject
    have hcell := (move_of_reject (parser.facing rest) htable hpath rfl
      hreject).1
    exact htable.mem_expected_iff.mp hmem hcell
  · apply Screened.unexpected hmem
    have hcell : table.actions parser.top (.ofRest rest) = [] := by
      by_contra hsome
      exact hmem (htable.mem_expected_iff.mpr hsome)
    have haction : table.action? (parser.facing rest).top
        (.ofRest (parser.facing rest).remaining) = none := by
      change table.action? parser.top (.ofRest rest) = none
      rw [SlrTable.action?, hcell, List.head?_nil]
    rw [move, haction]
    rfl

theorem facing_remaining (hrunning : parser.outcome = none) :
    parser.facing parser.remaining = parser := by
  unfold facing
  rw [← hrunning]

def reader (table : SlrTable) : ReadingMachine ShiftReduceParser where
  toGuardedMachine := machine table
  remaining := ShiftReduceParser.remaining
  facing := facing
  guard_facing _ _ := rfl
  outcome_facing _ _ := rfl
  remaining_withGuard _ _ := rfl
  facing_withGuard _ _ _ := rfl
  facing_remaining _ := facing_remaining

theorem rejectsInPlace (htable : table.Describes g start)
    (hpath : Path table.states parser.states parser.symbols)
    (hrunning : parser.outcome = none) :
    (reader table).RejectsInPlace parser := by
  intro mismatch hreject
  change (parser.move table).facing (parser.move table).remaining = parser
  rw [(move_of_reject parser htable hpath hrunning hreject).2]
  exact facing_remaining hrunning

end ShiftReduceParser

/-- Whenever a step of a run answers with a rejection, the symbol that it names
is the next one of the input and is not expected, and expected are exactly the
inputs with which the step would not have rejected.  When the run was rejected
before, the step that counts is the move from the same stacks. -/
theorem Grammar.rejections_exact (hg : g.Consistent)
    (hstart : g.requireContextFree = .ok start) :
    ∃ (predictive : PredictiveTable) (slr : SlrTable),
      PredictiveTable.ofGrammar g = .ok predictive ∧
      SlrTable.ofGrammar g = .ok slr ∧
      ∀ (schedule : Schedule) (input : Form) (checkpoint : Checkpoint)
        (mismatch : Mismatch),
        (∀ parser, Reaches (PredictiveParser.step predictive)
            PredictiveParser.cancel
            (PredictiveParser.start predictive schedule input) parser →
          (parser.step predictive checkpoint).outcome =
            some (.reject mismatch) →
          (mismatch.ExactFor parser.remaining fun rest =>
            ((parser.facing rest).move predictive).outcome) ∧
          (parser.outcome = none →
            mismatch.ExactFor parser.remaining fun rest =>
              ((parser.facing rest).step predictive checkpoint).outcome)) ∧
        (∀ parser, Reaches (ShiftReduceParser.step slr)
            ShiftReduceParser.cancel
            (ShiftReduceParser.start schedule input) parser →
          (parser.step slr checkpoint).outcome = some (.reject mismatch) →
          (mismatch.ExactFor parser.remaining fun rest =>
            ((parser.facing rest).move slr).outcome) ∧
          (parser.outcome = none →
            mismatch.ExactFor parser.remaining fun rest =>
              ((parser.facing rest).step slr checkpoint).outcome)) := by
  rcases PredictiveTable.ofGrammar_eq_ok hstart with ⟨predictive, hpredictive⟩
  rcases SlrTable.ofGrammar_eq_ok hstart with ⟨slr, hslr⟩
  have hdescribes := SlrTable.describes_ofGrammar hg hstart hslr
  refine ⟨predictive, slr, hpredictive, hslr, ?_⟩
  intro schedule input checkpoint mismatch
  constructor
  · intro parser hreaches hreject
    have hscreened :=
      PredictiveParser.screened_move hg hstart hpredictive parser
    exact ReadingMachine.exactFor_of_reject
      (m := PredictiveParser.reader predictive) hreaches rfl
      (fun _ _ hrunning => PredictiveParser.rejectsInPlace hrunning)
      hscreened hreject
  · have hpath : ∀ parser, Reaches (ShiftReduceParser.step slr)
        ShiftReduceParser.cancel (ShiftReduceParser.start schedule input)
          parser →
        Automaton.Path slr.states parser.states parser.symbols := by
      intro parser hreaches
      rcases ShiftReduceParser.exists_forest_of_reaches hg hdescribes hreaches
        with ⟨_, hforest⟩
      exact hforest.path
    intro parser hreaches hreject
    have hscreened := ShiftReduceParser.screened_move hdescribes
      (hpath parser hreaches)
    exact ReadingMachine.exactFor_of_reject
      (m := ShiftReduceParser.reader slr) hreaches rfl
      (fun other hother hrunning => ShiftReduceParser.rejectsInPlace hdescribes
        (hpath other hother) hrunning)
      hscreened hreject

/-- Before the second `c` of `acc` the predictive parser expects what is on its
stack, and the shift-reduce parser expects all that can follow `S`. -/
theorem ShiftReduceParser.bracketed_rejections :
    ∃ (predictive : PredictiveTable) (slr : SlrTable),
      PredictiveTable.ofGrammar bracketed = .ok predictive ∧
      SlrTable.ofGrammar bracketed = .ok slr ∧
      (Mismatch.mk (some (.term "c")) [some (.term "b")]).ExactFor [.term "c"]
        (fun rest => (((stepTimes (PredictiveParser.step predictive .always) 4
          (PredictiveParser.start predictive {}
            [.term "a", .term "c", .term "c"])).facing rest).step predictive
              .always).outcome) ∧
      (Mismatch.mk (some (.term "c")) [none, some (.term "b")]).ExactFor
        [.term "c"]
        (fun rest => (((stepTimes (step slr .always) 2
          (ShiftReduceParser.start {}
            [.term "a", .term "c", .term "c"])).facing rest).step slr
              .always).outcome) := by
  obtain ⟨predictive, slr, hpredictive, hslr, hall⟩ :=
    Grammar.rejections_exact (g := bracketed)
      (Grammar.consistent_of_start rfl _) rfl
  have hleft : ∃ table, PredictiveTable.ofGrammar bracketed = .ok table ∧
      let parser := stepTimes (PredictiveParser.step table .always) 4
        (PredictiveParser.start table {} [.term "a", .term "c", .term "c"])
      parser.remaining = [.term "c"] ∧ parser.outcome = none ∧
      (parser.step table .always).outcome =
        some (.reject ⟨some (.term "c"), [some (.term "b")]⟩) :=
    ⟨_, rfl, by decide +kernel⟩
  have hright : ∃ table, SlrTable.ofGrammar bracketed = .ok table ∧
      let parser := stepTimes (step table .always) 2
        (ShiftReduceParser.start {} [.term "a", .term "c", .term "c"])
      parser.remaining = [.term "c"] ∧ parser.outcome = none ∧
      (parser.step table .always).outcome =
        some (.reject ⟨some (.term "c"), [none, some (.term "b")]⟩) :=
    ⟨_, rfl, by decide +kernel⟩
  obtain ⟨made, hmade, hrest, hrunning, hreject⟩ := hleft
  obtain ⟨other, hother, hrest', hrunning', hreject'⟩ := hright
  rw [hpredictive] at hmade
  rw [hslr] at hother
  cases hmade
  cases hother
  have hfirst := ((hall {} [.term "a", .term "c", .term "c"] .always _).1 _
    (reaches_stepTimes .always 4) hreject).2 hrunning
  have hsecond := ((hall {} [.term "a", .term "c", .term "c"] .always _).2 _
    (reaches_stepTimes .always 2) hreject').2 hrunning'
  rw [hrest] at hfirst
  rw [hrest'] at hsecond
  exact ⟨predictive, slr, hpredictive, hslr, hfirst, hsecond⟩

end FormalGrammars
