import FormalGrammars.Proofs.ShiftReduce.Forest

/-!
# The stacks of a shift-reduce parser

Whatever conflicts the table has, the states on the stack are where the
automaton comes to along the symbols.  A reduction that the parser chooses
therefore finds its handle on top and a transition on its head below it, and
the checks that guard against the opposite never take effect: a run is rejected
in an empty cell only, with the stacks and the input as they were.
-/

namespace FormalGrammars.ShiftReduceParser

open Automaton

variable {g : Grammar} {start : Symbol} {table : SlrTable}
  {parser : ShiftReduceParser} {mismatch : Mismatch}

/-! ## Shape of the stacks -/

/-- The states stand on 0, and each is where the one below goes to on the symbol
between them. -/
structure Stacked (table : SlrTable) (parser : ShiftReduceParser) : Prop where
  length_eq : parser.states.length = parser.symbols.length + 1
  bottom_eq : parser.states.getLast? = some 0
  goto_eq : ∀ {index : Nat} {s : Symbol}, parser.symbols[index]? = some s →
    ∃ below above, parser.states[index + 1]? = some below ∧
      parser.states[index]? = some above ∧ table.goto? below s = some above

theorem stacked_of_path
    (hpath : Path table.states parser.states parser.symbols) :
    parser.Stacked table := by
  obtain ⟨remaining, states, symbols, reduced, guard, outcome⟩ := parser
  simp only at hpath
  induction hpath with
  | base => exact ⟨rfl, rfl, by simp⟩
  | @push below above under symbols s hbelow htarget ih =>
      refine ⟨?_, ?_, ?_⟩
      · simpa using ih.length_eq
      · simpa using ih.bottom_eq
      · intro index t ht
        cases index with
        | zero =>
            obtain rfl := Option.some.inj ht
            exact ⟨below, above, rfl, rfl, htarget⟩
        | succ index => exact ih.goto_eq ht

/-! ## Steps -/

theorem Handle.withGuard {number : Nat} {p : Production} {head : Symbol}
    {exposed target : Nat}
    (hhandle : parser.Handle table number p head exposed target)
    (guard : Guard) :
    Handle table { parser with guard := guard } number p head exposed target :=
  ⟨hhandle.production_eq, hhandle.head_eq, hhandle.symbols_eq,
    hhandle.width_lt, hhandle.exposed_eq, hhandle.goto_eq⟩

theorem step_of_stop {checkpoint : Checkpoint}
    (hrunning : parser.outcome = none)
    (hleave : (parser.guard.advance checkpoint).1 = false) :
    (parser.step table checkpoint).outcome = some .abandoned := by
  simp [step, hasEnded, hrunning, hleave, finish]

theorem move_of_reduce (parser : ShiftReduceParser) {number : Nat}
    (haction : table.action? parser.top (.ofRest parser.remaining) =
      some (.reduce number)) :
    parser.move table = parser.reduce table number := by
  simp [move, haction]

/-- A reduction that was chosen is carried out. -/
theorem exists_handle_of_action? (htable : table.Describes g start)
    (hpath : Path table.states parser.states parser.symbols) {number : Nat}
    (haction : table.action? parser.top (.ofRest parser.remaining) =
      some (.reduce number)) :
    ∃ p head exposed target,
      parser.Handle table number p head exposed target ∧
      ∀ checkpoint, parser.outcome = none →
        (parser.guard.advance checkpoint).1 = true →
        parser.step table checkpoint =
          { parser with
            guard := (parser.guard.advance checkpoint).2
            states := target :: parser.states.drop p.rhs.length
            symbols := head :: parser.symbols.drop p.rhs.length
            reduced := number :: parser.reduced } := by
  obtain ⟨p, head, exposed, target, hhandle, _⟩ :=
    exists_handle_of_calls htable hpath (htable.calls_of_action? haction)
  refine ⟨p, head, exposed, target, hhandle, fun checkpoint hrunning hleave => ?_⟩
  have hmove := move_of_reduce
    { parser with guard := (parser.guard.advance checkpoint).2 } haction
  rw [step_of_leave hrunning hleave, hmove]
  exact (hhandle.withGuard _).reduce_eq

theorem move_of_reject (parser : ShiftReduceParser)
    (htable : table.Describes g start)
    (hpath : Path table.states parser.states parser.symbols)
    (hrunning : parser.outcome = none)
    (hreject : (parser.move table).outcome = some (.reject mismatch)) :
    table.actions parser.top (.ofRest parser.remaining) = [] ∧
      parser.move table = parser.reject table parser.top := by
  unfold move at hreject ⊢
  split at hreject
  next hnone => exact ⟨List.head?_eq_none_iff.mp hnone, rfl⟩
  next => simp [finish] at hreject
  next => simp [hrunning] at hreject
  next number haction =>
    -- None of the checks of a reduction fails, so the run goes on.
    obtain ⟨p, head, exposed, target, hhandle, _⟩ :=
      exists_handle_of_calls htable hpath (htable.calls_of_action? haction)
    rw [hhandle.reduce_eq] at hreject
    simp [hrunning] at hreject

theorem step_of_reject (htable : table.Describes g start)
    (hpath : Path table.states parser.states parser.symbols)
    (hrunning : parser.outcome = none) {checkpoint : Checkpoint}
    (hreject : (parser.step table checkpoint).outcome =
      some (.reject mismatch)) :
    table.actions parser.top (.ofRest parser.remaining) = [] ∧
      parser.step table checkpoint =
        { parser with
          guard := (parser.guard.advance checkpoint).2
          outcome := some (.reject
            ⟨parser.remaining.head?, table.expected parser.top⟩) } := by
  cases hleave : (parser.guard.advance checkpoint).1 with
  | true =>
      rw [step_of_leave hrunning hleave] at hreject ⊢
      exact move_of_reject
        { parser with guard := (parser.guard.advance checkpoint).2 } htable
        hpath hrunning hreject
  | false =>
      rw [step_of_stop hrunning hleave] at hreject
      cases hreject

/-- The stacks of a run follow the automaton, whatever conflicts the table has:
every reduction that is chosen is carried out, and a rejection comes from an
empty cell and changes neither the stacks nor the input. -/
theorem stacks_follow_automaton (hg : g.Consistent)
    (hstart : g.requireContextFree = .ok start) :
    ∃ table, SlrTable.ofGrammar g = .ok table ∧
      ∀ (schedule : Schedule) (input : Form) (parser : ShiftReduceParser),
        Reaches (step table) cancel (ShiftReduceParser.start schedule input)
          parser →
        parser.Stacked table ∧
        (∀ number, table.action? parser.top (.ofRest parser.remaining) =
            some (.reduce number) →
          ∃ p head exposed target,
            parser.Handle table number p head exposed target ∧
            ∀ checkpoint, parser.outcome = none →
              (parser.guard.advance checkpoint).1 = true →
              parser.step table checkpoint =
                { parser with
                  guard := (parser.guard.advance checkpoint).2
                  states := target :: parser.states.drop p.rhs.length
                  symbols := head :: parser.symbols.drop p.rhs.length
                  reduced := number :: parser.reduced }) ∧
        ∀ checkpoint mismatch, parser.outcome = none →
          (parser.step table checkpoint).outcome = some (.reject mismatch) →
          table.actions parser.top (.ofRest parser.remaining) = [] ∧
          parser.step table checkpoint =
            { parser with
              guard := (parser.guard.advance checkpoint).2
              outcome := some (.reject
                ⟨parser.remaining.head?, table.expected parser.top⟩) } := by
  obtain ⟨table, htable⟩ := SlrTable.ofGrammar_eq_ok hstart
  have hdescribes := SlrTable.describes_ofGrammar hg hstart htable
  refine ⟨table, htable, fun schedule input parser hreaches => ?_⟩
  obtain ⟨forest, hforest⟩ := exists_forest_of_reaches hg hdescribes hreaches
  refine ⟨stacked_of_path hforest.path, ?_, ?_⟩
  · exact fun number => exists_handle_of_action? hdescribes hforest.path
  · intro checkpoint mismatch hrunning
    exact step_of_reject hdescribes hforest.path hrunning

/-- `S → A | B`, `A → a` and `B → a`, with two readings of `a`. -/
def twoReadings : Grammar :=
  Grammar.withProductions { start := some (.var "S") }
    [.rule (.var "S") [.var "A"],
      .rule (.var "S") [.var "B"],
      .rule (.var "A") [.term "a"],
      .rule (.var "B") [.term "a"]]

theorem stacks_follow_twoReadings :
    ∃ table, SlrTable.ofGrammar twoReadings = .ok table ∧
      (∃ parser target,
        Reaches (step table) cancel (ShiftReduceParser.start {} [.term "a"])
          parser ∧
        parser.Stacked table ∧
        table.actions parser.top .endOfInput = [.reduce 3, .reduce 4] ∧
        parser.Handle table 3 (.rule (.var "A") [.term "a"]) (.var "A") 0
          target ∧
        (parser.step table .always).states = [target, 0]) ∧
      ∃ parser,
        Reaches (step table) cancel
          (ShiftReduceParser.start {} [.term "a", .term "a"]) parser ∧
        table.actions parser.top (.symbol (.term "a")) = [] ∧
        (parser.step table .always).symbols = [.term "a"] := by
  obtain ⟨table, htable, hall⟩ := stacks_follow_automaton
    (g := twoReadings) (Grammar.consistent_of_start rfl _) rfl
  have hdescribes := SlrTable.describes_ofGrammar (g := twoReadings)
    (Grammar.consistent_of_start rfl _) rfl htable
  have hbuilt : ∃ built, SlrTable.ofGrammar twoReadings = .ok built ∧
      built.productions[3]? = some (.rule (.var "A") [.term "a"]) ∧
      built.states[4]?.map (built.asked .endOfInput) =
        some [.reduce 3, .reduce 4] ∧
      (stepTimes (step built .always) 2
          (ShiftReduceParser.start {} [.term "a", .term "a"])).outcome =
        some (.reject ⟨some (.term "a"), [none]⟩) ∧
      ∀ rest ∈ [[], [.term "a"]],
        stepTimes (step built .always) 1
            (ShiftReduceParser.start {} (.term "a" :: rest)) =
          { remaining := rest
            states := [4, 0]
            symbols := [.term "a"]
            guard := ((Guard.ofSchedule {}).advance .always).2 } :=
    ⟨_, rfl, by decide +kernel⟩
  obtain ⟨built, hbuilt, hproduction, hasked, hends, hshifts⟩ := hbuilt
  rw [htable] at hbuilt
  cases hbuilt
  have hreaches : ∀ rest ∈ [[], [.term "a"]],
      Reaches (step table) cancel
        (ShiftReduceParser.start {} (.term "a" :: rest)) _ :=
    fun rest hrest => hshifts rest hrest ▸ reaches_stepTimes .always 1
  have hcell : table.actions 4 .endOfInput = [.reduce 3, .reduce 4] := by
    rw [hdescribes.actions_eq, hasked]
    exact List.mergeSort_of_pairwise (by decide)
  refine ⟨table, htable, ?_, ?_⟩
  · have hshifted := hreaches [] (by simp)
    obtain ⟨hstacked, hreduces, _⟩ := hall _ _ _ hshifted
    obtain ⟨p, head, exposed, target, hhandle, hstep⟩ :=
      hreduces 3 (by simp [SlrTable.action?, top, Lookahead.ofRest, hcell])
    obtain rfl := Option.some.inj (hproduction.symm.trans hhandle.production_eq)
    obtain rfl := Option.some.inj hhandle.head_eq
    obtain rfl := Option.some.inj hhandle.exposed_eq
    refine ⟨_, target, hshifted, hstacked, hcell, hhandle, ?_⟩
    rw [hstep .always rfl rfl]
    rfl
  · have hshifted := hreaches [.term "a"] (by simp)
    obtain ⟨_, _, hrejects⟩ := hall _ _ _ hshifted
    rw [stepTimes_succ_eq_step, hshifts [.term "a"] (by simp)] at hends
    obtain ⟨hempty, hsame⟩ := hrejects .always _ rfl hends
    exact ⟨_, hshifted, hempty, by rw [hsame]⟩

end FormalGrammars.ShiftReduceParser
