import FormalGrammars.Derivation.Order
import FormalGrammars.ShiftReduce.Parser
import FormalGrammars.Proofs.GuardedRun
import FormalGrammars.Proofs.ShiftReduce.Path
import FormalGrammars.Proofs.ShiftReduce.Table

/-!
# A shift-reduce run is a rightmost derivation backwards

At every moment, and whatever conflicts the table has, the stacks are a path
through the automaton, and the reduced productions, the latest first, rewrite
the symbols and the rest of the input rightmost to the input.  When the run
accepts, the start is the only symbol, so the input is in the language.
-/

namespace FormalGrammars

namespace Form

theorem rewriteRightmost?_append (before : Form) {after : Form} {s : Symbol}
    {p : Production} (hafter : isTerminal after = true)
    (hhead : p.head? = some s) :
    rewriteRightmost? (before ++ s :: after) p =
      some (before ++ p.rhs ++ after) := by
  have hvar := Symbol.isTerm_eq_false (Grammar.isVar_of_head? hhead)
  have hall : ∀ t ∈ after.reverse, t.isTerm = true := by
    intro t ht
    exact List.all_eq_true.mp hafter t (List.mem_reverse.mp ht)
  unfold rewriteRightmost?
  rw [List.reverse_append, List.reverse_cons, List.append_assoc,
    List.dropWhile_append_of_pos hall, List.takeWhile_append_of_pos hall,
    List.singleton_append, List.dropWhile_cons_of_neg (by simp [hvar]),
    List.takeWhile_cons_of_neg (by simp [hvar])]
  simp [hhead]

theorem rewriteRightmost?_rewrites {g : Grammar} {form next : Form}
    {p : Production} (hmem : p ∈ g.productions)
    (hrewrite : rewriteRightmost? form p = some next) :
    g.Rewrites form next := by
  unfold rewriteRightmost? at hrewrite
  split at hrewrite
  next => cases hrewrite
  next s before hdrop =>
    split at hrewrite
    next hhead =>
      cases hrewrite
      have hstep := Grammar.Rewrites.intro p before.reverse
        (form.reverse.takeWhile Symbol.isTerm).reverse hmem
      have hreverse : form.reverse =
          form.reverse.takeWhile Symbol.isTerm ++ s :: before := by
        rw [← hdrop, List.takeWhile_append_dropWhile]
      have hform : form = before.reverse ++ p.lhs ++
          (form.reverse.takeWhile Symbol.isTerm).reverse := by
        rw [(Production.head?_eq_some_iff.mp hhead).1, ← List.reverse_cons,
          ← List.reverse_append, ← hreverse, List.reverse_reverse]
      rw [← hform] at hstep
      exact hstep
    next => cases hrewrite

theorem rewriteAllRightmost?_derives {g : Grammar} {ps : List Production}
    (hps : ∀ p ∈ ps, p ∈ g.productions) {form last : Form}
    (hrewrite : rewriteAllRightmost? form ps = some last) :
    g.Derives form last :=
  Grammar.derives_of_foldlM
    (fun p hp _ _ hstep => rewriteRightmost?_rewrites (hps p hp) hstep) hrewrite

end Form

namespace ShiftReduceParser

open Automaton

variable {g : Grammar} {start : Symbol} {table : SlrTable} {input : Form}
  {parser : ShiftReduceParser}

/-! ## Moves -/

theorem step_of_leave {checkpoint : Checkpoint}
    (hrunning : parser.outcome = none)
    (hleave : (parser.guard.advance checkpoint).1 = true) :
    parser.step table checkpoint =
      move table { parser with guard := (parser.guard.advance checkpoint).2 } := by
  simp [step, hasEnded, hrunning, hleave]

theorem exists_top (hpath : Path table.states parser.states parser.symbols) :
    ∃ below, parser.states = parser.top :: below ∧
      Path table.states (parser.top :: below) parser.symbols := by
  unfold top
  cases hstates : parser.states with
  | nil =>
      rw [hstates] at hpath
      cases hpath
  | cons number below =>
      rw [hstates] at hpath
      exact ⟨below, rfl, hpath⟩

/-- The symbols on top spell the right side of a completed item, and the state
below them has the item with the dot in front. -/
theorem exists_handle (htable : table.Describes g start)
    (hpath : Path table.states parser.states parser.symbols)
    {state : AutomatonState} {item : Item}
    (hstate : table.states[parser.top]? = some state)
    (hitem : item ∈ state.items)
    (hdone : item.next? table.productions = none) :
    ∃ (p : Production) (exposed : Nat) (under : List Nat) (rest : Form)
      (source : AutomatonState),
      table.productions[item.production]? = some p ∧
      parser.states.drop p.rhs.length = exposed :: under ∧
      parser.symbols = p.rhs.reverse ++ rest ∧
      Path table.states (exposed :: under) rest ∧
      table.states[exposed]? = some source ∧
      ⟨item.production, 0⟩ ∈ source.items := by
  have hgrown := htable.grown
  obtain ⟨below, hstates, hpath⟩ := exists_top hpath
  obtain ⟨p, hp, hdot⟩ :=
    (next?_eq_none_iff (hgrown.mem_allItems hstate hitem)).mp hdone
  obtain ⟨exposed, under, rest, source, hdrop, hsymbols, hrest⟩ :=
    hpath.spelled hgrown hstate hitem hp
  rw [hdot] at hdrop hsymbols
  rw [List.take_length] at hsymbols
  rw [← hstates] at hdrop
  exact ⟨p, exposed, under, rest, source, hp, hdrop, hsymbols, hrest⟩

/-- Below the right side of a completed item there is a transition on its
head. -/
theorem exists_goto (htable : table.Describes g start)
    {exposed number : Nat} {under : List Nat} {rest : Form}
    {source : AutomatonState} {head : Symbol}
    (hpath : Path table.states (exposed :: under) rest)
    (hsource : table.states[exposed]? = some source)
    (hfront : ⟨number, 0⟩ ∈ source.items) (hne : number ≠ 0)
    (hhead : Item.head? table.productions ⟨number, 0⟩ = some head) :
    ∃ target, table.goto? exposed head = some target := by
  rcases hpath.base_or_head htable.grown hsource hfront with
    ⟨hzero, -⟩ | ⟨s, hs, hsole⟩
  · exact absurd hzero hne
  · rw [hhead, Option.some.injEq] at hsole
    subst hsole
    exact htable.complete.exists_target hsource hs

/-- What the reduction of a production finds on the stacks. -/
structure Handle (table : SlrTable) (parser : ShiftReduceParser) (number : Nat)
    (p : Production) (head : Symbol) (exposed target : Nat) : Prop where
  production_eq : table.productions[number]? = some p
  head_eq : p.head? = some head
  /-- The right side is on top, with its last symbol first. -/
  symbols_eq : parser.symbols.take p.rhs.length = p.rhs.reverse
  width_lt : p.rhs.length < parser.states.length
  exposed_eq : parser.states[p.rhs.length]? = some exposed
  goto_eq : table.goto? exposed head = some target

theorem Handle.reduce_eq {number : Nat} {p : Production} {head : Symbol}
    {exposed target : Nat}
    (hhandle : parser.Handle table number p head exposed target) :
    parser.reduce table number =
      { parser with
        states := target :: parser.states.drop p.rhs.length
        symbols := head :: parser.symbols.drop p.rhs.length
        reduced := number :: parser.reduced } := by
  have hwidth := Nat.not_le_of_lt hhandle.width_lt
  simp [ShiftReduceParser.reduce, hhandle.production_eq, hwidth,
    hhandle.head_eq, top, hhandle.exposed_eq, hhandle.goto_eq]

/-- The handle of a reduction is on the stacks, so it does not run out of
them. -/
theorem exists_handle_of_calls (htable : table.Describes g start)
    (hpath : Path table.states parser.states parser.symbols) {number : Nat}
    {x : Lookahead}
    (hcalls : table.Calls g start parser.top x (.reduce number)) :
    ∃ (p : Production) (head : Symbol) (exposed target : Nat),
      parser.Handle table number p head exposed target ∧ p ∈ g.productions ∧
      Path table.states (target :: parser.states.drop p.rhs.length)
        (head :: parser.symbols.drop p.rhs.length) := by
  cases hcalls with
  | @reduce state item head _ hstate hitem hdone hne hhead _ =>
      obtain ⟨p, exposed, under, rest, source, hp, hdrop, hsymbols, hrest,
        hsource, hfront⟩ := exists_handle htable hpath hstate hitem hdone
      obtain ⟨target, htarget⟩ :=
        exists_goto htable hrest hsource hfront hne hhead
      obtain ⟨q, hq, hsole⟩ := Item.head?_eq_some_iff.mp hhead
      have hsame : p = q := Option.some.inj (hp.symm.trans hq)
      subst hsame
      have hexposed : parser.states[p.rhs.length]? = some exposed := by
        rw [← List.head?_drop, hdrop]
        rfl
      have hwidth := (List.getElem?_eq_some_iff.mp hexposed).1
      have htake : parser.symbols.take p.rhs.length = p.rhs.reverse := by
        rw [hsymbols]
        exact List.take_left' List.length_reverse
      have hbelow : parser.symbols.drop p.rhs.length = rest := by
        rw [hsymbols]
        exact List.drop_left' List.length_reverse
      refine ⟨p, head, exposed, target,
        ⟨hp, hsole, htake, hwidth, hexposed, htarget⟩,
        htable.mem_productions hp hne, ?_⟩
      rw [hdrop, hbelow]
      exact .push hrest htarget

/-- What a move does to stacks that are a path through the automaton. -/
inductive Moves (g : Grammar) (start : Symbol) (table : SlrTable)
    (parser : ShiftReduceParser) : ShiftReduceParser → Prop where
  | reject (mismatch : Mismatch) :
      Moves g start table parser (parser.finish (.reject mismatch))
  | accept (hsymbols : parser.symbols = [start])
      (hremaining : parser.remaining = []) :
      Moves g start table parser (parser.finish .accept)
  | shift {s : Symbol} {rest : Form} {target : Nat}
      (hremaining : parser.remaining = s :: rest) (hterm : s.isTerm = true)
      (hpath : Path table.states (target :: parser.states)
        (s :: parser.symbols)) :
      Moves g start table parser
        { parser with
          remaining := rest
          states := target :: parser.states
          symbols := s :: parser.symbols }
  | reduce {number : Nat} {p : Production} {head : Symbol} {rest : Form}
      {states : List Nat} (hp : table.productions[number]? = some p)
      (hmem : p ∈ g.productions) (hhead : p.head? = some head)
      (hsymbols : parser.symbols = p.rhs.reverse ++ rest)
      (hpath : Path table.states states (head :: rest)) :
      Moves g start table parser
        { parser with
          states := states
          symbols := head :: rest
          reduced := number :: parser.reduced }

theorem moves_accept (hg : g.Consistent) (htable : table.Describes g start)
    (hpath : Path table.states parser.states parser.symbols)
    (hcalls : table.Calls g start parser.top (.ofRest parser.remaining)
      .accept) :
    parser.Moves g start table (parser.finish .accept) := by
  generalize hx : Lookahead.ofRest parser.remaining = x at hcalls
  cases hcalls with
  | accept hstate hitem hdone hzero =>
      obtain ⟨p, exposed, under, rest, source, hp, _, hsymbols, hrest, hsource,
        hfront⟩ := exists_handle htable hpath hstate hitem hdone
      rw [hzero, htable.production_zero, Option.some.injEq] at hp
      rw [hzero] at hfront
      rcases hrest.base_or_head htable.grown hsource hfront with
        ⟨-, rfl⟩ | ⟨s, hs, hhead⟩
      · refine .accept ?_ (Lookahead.ofRest_eq_endOfInput_iff.mp hx)
        rw [hsymbols, ← hp]
        rfl
      · exact absurd hhead (htable.fresh hg s hs)

theorem moves_shift (hpath : Path table.states parser.states parser.symbols)
    {target : Nat}
    (hcalls : table.Calls g start parser.top (.ofRest parser.remaining)
      (.shift target)) :
    parser.Moves g start table
      { parser with
        remaining := parser.remaining.drop 1
        states := target :: parser.states
        symbols := parser.remaining.take 1 ++ parser.symbols } := by
  obtain ⟨below, hstates, htop⟩ := exists_top hpath
  generalize hx : Lookahead.ofRest parser.remaining = x at hcalls
  cases hcalls with
  | @shift state item s _ hstate hitem hnext hterm htarget =>
      obtain ⟨rest, hremaining⟩ := Lookahead.ofRest_eq_symbol_iff.mp hx
      have hpushed : Path table.states (target :: parser.states)
          (s :: parser.symbols) := by
        rw [hstates]
        exact .push htop htarget
      have hmoves : parser.Moves g start table _ :=
        .shift hremaining hterm hpushed
      simpa [hremaining] using hmoves

theorem moves_reduce (htable : table.Describes g start)
    (hpath : Path table.states parser.states parser.symbols) {number : Nat}
    (hcalls : table.Calls g start parser.top (.ofRest parser.remaining)
      (.reduce number)) :
    parser.Moves g start table (parser.reduce table number) := by
  obtain ⟨p, head, exposed, target, hhandle, hmem, hreduced⟩ :=
    exists_handle_of_calls htable hpath hcalls
  have hsymbols : parser.symbols =
      p.rhs.reverse ++ parser.symbols.drop p.rhs.length := by
    rw [← hhandle.symbols_eq, List.take_append_drop]
  rw [hhandle.reduce_eq]
  exact .reduce hhandle.production_eq hmem hhandle.head_eq hsymbols hreduced

theorem moves_move (hg : g.Consistent) (htable : table.Describes g start)
    (hpath : Path table.states parser.states parser.symbols) :
    parser.Moves g start table (parser.move table) := by
  unfold ShiftReduceParser.move
  split
  next => exact .reject _
  next haction =>
    exact moves_accept hg htable hpath (htable.calls_of_action? haction)
  next haction => exact moves_shift hpath (htable.calls_of_action? haction)
  next haction =>
    exact moves_reduce htable hpath (htable.calls_of_action? haction)

/-! ## The invariant -/

/-- What holds at every moment of a run. -/
structure Traced (g : Grammar) (start : Symbol) (table : SlrTable)
    (input : Form) (parser : ShiftReduceParser) : Prop where
  path : Path table.states parser.states parser.symbols
  remaining_isTerminal : Form.isTerminal parser.remaining = true
  derivation_mem : ∀ p ∈ parser.derivation table, p ∈ g.productions
  sentential_eq :
    Form.rewriteAllRightmost? parser.sentential (parser.derivation table) =
      some input
  accepted : parser.outcome = some .accept → parser.sentential = [start]

theorem traced_start (schedule : Schedule)
    (hinput : Form.isTerminal input = true) :
    (ShiftReduceParser.start schedule input).Traced g start table input := by
  constructor
  · exact .base
  · exact hinput
  · simp [ShiftReduceParser.start, derivation, productionsOf]
  · simp [ShiftReduceParser.start, derivation, productionsOf, sentential,
      Form.rewriteAllRightmost?]
  · simp [ShiftReduceParser.start]

theorem Traced.withGuard (hparser : parser.Traced g start table input)
    (guard : Guard) :
    Traced g start table input { parser with guard := guard } :=
  ⟨hparser.path, hparser.remaining_isTerminal, hparser.derivation_mem,
    hparser.sentential_eq, hparser.accepted⟩

theorem Traced.finish (hparser : parser.Traced g start table input)
    {outcome : Outcome}
    (haccept : outcome = .accept → parser.sentential = [start]) :
    (parser.finish outcome).Traced g start table input :=
  ⟨hparser.path, hparser.remaining_isTerminal, hparser.derivation_mem,
    hparser.sentential_eq, fun houtcome => haccept (Option.some.inj houtcome)⟩

theorem derivation_reduce (parser : ShiftReduceParser) {number : Nat}
    {p : Production} (hp : table.productions[number]? = some p)
    (states : List Nat) (symbols : Form) :
    derivation table
        { parser with
          states := states
          symbols := symbols
          reduced := number :: parser.reduced } =
      p :: parser.derivation table := by
  simp [derivation, productionsOf, hp]

theorem Traced.move (hg : g.Consistent) (htable : table.Describes g start)
    (hparser : parser.Traced g start table input)
    (hrunning : parser.outcome = none) :
    (parser.move table).Traced g start table input := by
  have hform := hparser.sentential_eq
  have hterm := hparser.remaining_isTerminal
  have hmoves := moves_move hg htable hparser.path
  generalize parser.move table = next at hmoves ⊢
  cases hmoves with
  | reject mismatch => exact hparser.finish (by simp)
  | accept hsymbols hremaining =>
      refine hparser.finish fun _ => ?_
      rw [sentential, hsymbols, hremaining]
      rfl
  | shift hremaining _ hpath =>
      rw [hremaining] at hterm
      refine ⟨hpath, (Grammar.isTerminal_cons.mp hterm).2,
        hparser.derivation_mem, ?_, by simp [hrunning]⟩
      simp only [sentential, hremaining] at hform
      simpa [sentential, derivation] using hform
  | @reduce number p head rest states hp hmem hhead hsymbols hpath =>
      have hderivation := derivation_reduce parser hp states (head :: rest)
      refine ⟨hpath, hterm, ?_, ?_, by simp [hrunning]⟩
      · rw [hderivation]
        intro q hq
        rcases List.mem_cons.mp hq with rfl | hq
        · exact hmem
        · exact hparser.derivation_mem q hq
      · -- What remains is terminal, so the variable it leaves is the rightmost.
        have hrewrite := Form.rewriteRightmost?_append rest.reverse hterm hhead
        rw [sentential, hsymbols, List.reverse_append, List.reverse_reverse]
          at hform
        rw [hderivation, sentential, List.reverse_cons, List.append_assoc,
          List.singleton_append, Form.rewriteAllRightmost?, List.foldlM_cons,
          hrewrite]
        exact hform

theorem Traced.step (hg : g.Consistent) (htable : table.Describes g start)
    (hparser : parser.Traced g start table input) (checkpoint : Checkpoint) :
    (parser.step table checkpoint).Traced g start table input := by
  unfold ShiftReduceParser.step
  split
  next => exact hparser
  next hrunning =>
    have hnone : parser.outcome = none := by
      simpa [hasEnded] using hrunning
    simp only
    split
    next => exact (hparser.withGuard _).move hg htable hnone
    next => exact (hparser.withGuard _).finish (by simp)

theorem Traced.language (hstart : g.requireContextFree = .ok start)
    (hinput : Form.isTerminal input = true)
    (hparser : parser.Traced g start table input)
    (haccept : parser.outcome = some .accept) : g.Language input := by
  have hderives := Form.rewriteAllRightmost?_derives hparser.derivation_mem
    hparser.sentential_eq
  rw [hparser.accepted haccept] at hderives
  refine ⟨hinput, start, ?_, hderives⟩
  exact (Grammar.requireContextFree_eq_ok_iff.mp hstart).1

theorem Traced.of_reaches (hg : g.Consistent)
    (htable : table.Describes g start) (hinput : Form.isTerminal input = true)
    {schedule : Schedule}
    (hreaches : Reaches (ShiftReduceParser.step table) cancel
      (ShiftReduceParser.start schedule input) parser) :
    parser.Traced g start table input :=
  hreaches.keeps (traced_start schedule hinput)
    (fun checkpoint _ hother => hother.step hg htable checkpoint)
    (fun other hother => hother.withGuard other.guard.cancel)

/-- Whatever conflicts the table has and however the run is guarded, the
derivation of a state rewrites its sentential form rightmost to the input. -/
theorem sentential_rewrites_to_input (hg : g.Consistent)
    (hstart : g.requireContextFree = .ok start) :
    ∃ table, SlrTable.ofGrammar g = .ok table ∧
      ∀ (schedule : Schedule) (word : Form) (parser : ShiftReduceParser),
        Form.isTerminal word = true →
        Reaches (step table) cancel (ShiftReduceParser.start schedule word)
          parser →
        Form.rewriteAllRightmost? parser.sentential
            (parser.derivation table) = some word ∧
          (∀ p ∈ parser.derivation table, p ∈ g.productions) ∧
          (parser.outcome = some .accept →
            parser.sentential = [start] ∧ g.Language word) := by
  obtain ⟨table, htable⟩ := SlrTable.ofGrammar_eq_ok hstart
  have hdescribes := SlrTable.describes_ofGrammar hg hstart htable
  refine ⟨table, htable, ?_⟩
  intro schedule word parser hword hreaches
  have hparser := Traced.of_reaches hg hdescribes hword hreaches
  refine ⟨hparser.sentential_eq, hparser.derivation_mem, ?_⟩
  intro haccept
  exact ⟨hparser.accepted haccept, hparser.language hstart hword haccept⟩

/-- `S → aSb | c`. -/
def bracketed : Grammar :=
  Grammar.withProductions { start := some (.var "S") }
    [.rule (.var "S") [.term "a", .var "S", .term "b"],
      .rule (.var "S") [.term "c"]]

theorem sentential_rewrites_to_bracketed :
    ∃ (table : SlrTable) (parser : ShiftReduceParser),
      SlrTable.ofGrammar bracketed = .ok table ∧
      Form.isTerminal [.term "a", .term "c", .term "b"] = true ∧
      Reaches (step table) cancel
        (ShiftReduceParser.start {} [.term "a", .term "c", .term "b"]) parser ∧
      parser.sentential = [.var "S"] ∧
      Form.rewriteAllRightmost? [.var "S"] (parser.derivation table) =
        some [.term "a", .term "c", .term "b"] ∧
      bracketed.Language [.term "a", .term "c", .term "b"] := by
  obtain ⟨table, htable, hall⟩ := sentential_rewrites_to_input
    (g := bracketed) (Grammar.consistent_of_start rfl _) rfl
  have hrun : ∃ built, SlrTable.ofGrammar bracketed = .ok built ∧
      (stepTimes (step built .always) 6 (ShiftReduceParser.start {}
        [.term "a", .term "c", .term "b"])).outcome = some .accept :=
    ⟨_, rfl, by decide +kernel⟩
  obtain ⟨built, hbuilt, haccept⟩ := hrun
  rw [htable] at hbuilt
  cases hbuilt
  have hreaches : Reaches (step table) cancel
      (ShiftReduceParser.start {} [.term "a", .term "c", .term "b"]) _ :=
    reaches_stepTimes .always 6
  have hword : Form.isTerminal [.term "a", .term "c", .term "b"] = true := rfl
  obtain ⟨hrewrites, _, haccepted⟩ := hall {} _ _ hword hreaches
  obtain ⟨hform, hlanguage⟩ := haccepted haccept
  rw [hform] at hrewrites
  exact ⟨table, _, htable, hword, hreaches, hform, hrewrites, hlanguage⟩

end ShiftReduceParser

end FormalGrammars
