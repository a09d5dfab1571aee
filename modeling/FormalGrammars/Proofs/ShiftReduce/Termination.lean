import FormalGrammars.Proofs.ShiftReduce.Forest
import Mathlib.Algebra.Order.BigOperators.Group.List
import Mathlib.Algebra.Order.Group.Nat
import Mathlib.Order.WellFounded

/-!
# Runs of a conflict-free SLR(1) table end

In an endless run the input left stays the same from some moment on, and only
reductions are made.  When all variables are productive, what is on the stack
at any later moment can be completed to a string of the language.  The table
has no conflicts, so the run on that string comes to the same stack after as
many moves, still in front of its completion.  But a move looks at one symbol
of the input only: completions with the same first symbol are read alike until
that symbol is shifted, and the string of one of them is accepted after a
number of moves.  There are finitely many first symbols, so this bounds the
moments at which the run goes on.
-/

namespace FormalGrammars.ShiftReduceParser

open Automaton

variable {g : Grammar} {start : Symbol} {table : SlrTable} {input : Form}
  {parser next : ShiftReduceParser} {states : List Nat}
  {symbols remaining : Form} {done : List Production}

/-! ## Coming to a given stack -/

/-- In front of the frontier of a tree the run takes the transition on its
root. -/
theorem comes_behind_tree (htable : table.Describes g start)
    (hfree : table.isConflictFree = true) {tree : Tree} {number target : Nat}
    {below : List Nat} {rest : Form} (hvalid : tree.ValidFor g)
    (hword : Form.isTerminal (tree.frontier ++ rest) = true)
    (hstack : g.Supported start (tree.root :: rest))
    (htarget : table.goto? number tree.root = some target)
    (hrunning : parser.Running table (number :: below) symbols
      (tree.frontier ++ rest) done) :
    Comes (step table .always) parser fun other =>
      other.Running table (target :: number :: below) (tree.root :: symbols)
        rest (tree.rightmost ++ done) := by
  obtain ⟨state, hstate, hget⟩ := target?_eq_some_iff.mp htarget
  obtain ⟨hnext, _⟩ := htable.grown.leads hstate hget
  obtain ⟨item, hitem, hnext⟩ := mem_nextSymbols.mp hnext
  apply Comes.next (parses htable hfree tree parser number below symbols rest
    done state item hvalid hword hstack hstate hitem hnext hrunning)
  rintro other ⟨reached, hreached, hother⟩
  have hsame : target = reached :=
    Option.some.inj (htarget.symm.trans hreached)
  subst hsame
  exact .now hother

/-- In a table without conflicts a run comes to every stack that is a path
through the automaton, when a forest for it is in front of the input. -/
theorem comes_to_path (htable : table.Describes g start)
    (hfree : table.isConflictFree = true)
    (hpath : Path table.states states symbols) {forest : List Tree}
    (hvalid : Tree.AllValidFor g forest)
    (hroots : forest.map Tree.root = symbols.reverse) {rest : Form}
    (hword : Form.isTerminal (Tree.frontierOfAll forest ++ rest) = true)
    (hstack : g.Supported start (symbols.reverse ++ rest))
    (schedule : Schedule) :
    Comes (step table .always)
      (ShiftReduceParser.start schedule (Tree.frontierOfAll forest ++ rest))
      fun other => other.Running table states symbols rest
        (Tree.rightmostOfAll forest) := by
  induction hpath generalizing forest rest with
  | base =>
      rw [List.reverse_nil, List.map_eq_nil_iff] at hroots
      rw [hroots]
      exact .now (running_start table schedule rest)
  | @push number target below symbols s hpath htarget ih =>
      rw [List.reverse_cons] at hroots hstack
      obtain ⟨front, last, rfl, hfront, hlast⟩ :=
        List.map_eq_append_iff.mp hroots
      obtain ⟨tree, rfl, rfl⟩ := List.map_eq_singleton_iff.mp hlast
      obtain ⟨hvalidFront, hvalidTree, _⟩ := Tree.allValidFor_append.mp hvalid
      have hfrontier : Tree.frontierOfAll (front ++ [tree]) ++ rest =
          Tree.frontierOfAll front ++ (tree.frontier ++ rest) := by
        simp [Tree.frontierOfAll]
      rw [hfrontier] at hword ⊢
      rw [List.append_assoc, List.singleton_append] at hstack
      -- Below the last tree the input goes on with its frontier.
      have hbelow : g.Supported start
          (symbols.reverse ++ (tree.frontier ++ rest)) := by
        have hexpand := (Grammar.Yields.refl (g := g) symbols.reverse).append
          (hvalidTree.yields.append (.refl rest))
        rw [← List.append_nil (_ ++ _)] at hstack
        simpa using hstack.yields hexpand
      apply Comes.next (ih hvalidFront hfront hword hbelow)
      intro middle hmiddle
      have hlast := (Grammar.isTerminal_append.mp hword).2
      rw [Tree.rightmostOfAll_append]
      simpa [Tree.rightmostOfAll] using comes_behind_tree htable hfree
        hvalidTree hlast hstack.suffix htarget hmiddle

/-! ## Counting moves -/

/-- The state after so many steps, when nobody stops the run. -/
def after (table : SlrTable) (schedule : Schedule) (input : Form)
    (count : Nat) : ShiftReduceParser :=
  stepTimes (ShiftReduceParser.step table .always) count
    (ShiftReduceParser.start schedule input)

theorem after_succ (table : SlrTable) (schedule : Schedule) (input : Form)
    (count : Nat) :
    after table schedule input (count + 1) =
      (after table schedule input count).step table .always :=
  stepTimes_succ_eq_step count _

/-- The run has ended, and nobody stopped it. -/
def Concluded (parser : ShiftReduceParser) : Prop :=
  parser.outcome = some .accept ∨
    ∃ mismatch, parser.outcome = some (.reject mismatch)

theorem Concluded.hasEnded (hparser : parser.Concluded) :
    parser.hasEnded = true := by
  rcases hparser with haccept | ⟨mismatch, hreject⟩
  · simp [ShiftReduceParser.hasEnded, haccept]
  · simp [ShiftReduceParser.hasEnded, hreject]

/-- The run goes on, and every move has shifted a symbol or reduced. -/
structure Counted (table : SlrTable) (input : Form) (count : Nat)
    (parser : ShiftReduceParser) : Prop where
  outcome_eq : parser.outcome = none
  not_cancelled : parser.guard.cancelled = false
  count_eq : (parser.derivation table).length + input.length =
    parser.remaining.length + count

theorem Counted.running {count : Nat}
    (hparser : parser.Counted table input count) :
    parser.Running table parser.states parser.symbols parser.remaining
      (parser.derivation table) :=
  ⟨hparser.outcome_eq, hparser.not_cancelled, rfl, rfl, rfl, rfl⟩

theorem Counted.moves {count : Nat} (hparser : parser.Counted table input count)
    (hmoves : parser.Moves g start table next) :
    next.Concluded ∨ next.Counted table input (count + 1) := by
  have hcount := hparser.count_eq
  cases hmoves with
  | reject mismatch => exact .inl (.inr ⟨mismatch, rfl⟩)
  | accept _ _ => exact .inl (.inl rfl)
  | @shift s rest target hremaining _ _ =>
      refine .inr ⟨hparser.outcome_eq, hparser.not_cancelled, ?_⟩
      rw [hremaining, List.length_cons] at hcount
      change (parser.derivation table).length + input.length =
        rest.length + (count + 1)
      omega
  | @reduce number p head rest states hp _ _ _ _ =>
      refine .inr ⟨hparser.outcome_eq, hparser.not_cancelled, ?_⟩
      rw [derivation_reduce parser hp, List.length_cons]
      change _ = parser.remaining.length + (count + 1)
      omega

theorem Counted.step {count : Nat} {forest : List Tree} (hg : g.Consistent)
    (htable : table.Describes g start)
    (hcarries : parser.Carries g table input forest)
    (hparser : parser.Counted table input count) :
    (parser.step table .always).Concluded ∨
      (parser.step table .always).Counted table input (count + 1) := by
  obtain ⟨other, hother, hstep⟩ := hparser.running.step_eq
  have hpath : Path table.states other.states other.symbols := by
    rw [hother.states_eq, hother.symbols_eq]
    exact hcarries.path
  have hcounted : other.Counted table input count := by
    refine ⟨hother.outcome_eq, hother.not_cancelled, ?_⟩
    rw [hother.derivation_eq, hother.remaining_eq]
    exact hparser.count_eq
  rw [hstep]
  exact hcounted.moves (moves_move hg htable hpath)

theorem exists_forest_after (hg : g.Consistent)
    (htable : table.Describes g start) (schedule : Schedule) (input : Form)
    (count : Nat) :
    ∃ forest, (after table schedule input count).Carries g table input forest :=
  exists_forest_of_reaches hg htable (reaches_stepTimes .always count)

theorem concluded_or_counted (hg : g.Consistent)
    (htable : table.Describes g start) (schedule : Schedule) (input : Form)
    (count : Nat) :
    (after table schedule input count).Concluded ∨
      (after table schedule input count).Counted table input count := by
  induction count with
  | zero =>
      refine .inr ⟨rfl, rfl, ?_⟩
      simp [after, stepTimes, ShiftReduceParser.start, derivation,
        productionsOf]
  | succ count ih =>
      rw [after_succ]
      rcases ih with hconcluded | hcounted
      · rw [step_of_hasEnded hconcluded.hasEnded]
        exact .inl hconcluded
      · obtain ⟨forest, hforest⟩ :=
          exists_forest_after hg htable schedule input count
        exact hcounted.step hg htable hforest

/-! ## One symbol of look-ahead -/

/-- The same state in front of another rest of the input. -/
def before (parser : ShiftReduceParser) (rest : Form) : ShiftReduceParser :=
  { parser with remaining := rest }

theorem reduce_before (parser : ShiftReduceParser) (number : Nat) {rest : Form}
    (hhead : parser.remaining.head? = rest.head?) :
    (parser.reduce table number).remaining = parser.remaining ∧
      (parser.before rest).reduce table number =
        (parser.reduce table number).before rest := by
  unfold reduce
  generalize (table.productions[number]?).getD ⟨[], []⟩ = p
  by_cases hlength : parser.states.length ≤ p.rhs.length
  · simp [before, hlength, reject, finish, top, hhead]
  · cases hsole : p.head? with
    | none => simp [before, hlength, hsole, reject, finish, top, hhead]
    | some head =>
        cases htarget :
            table.goto? (parser.states[p.rhs.length]?.getD 0) head with
        | none =>
            simp [before, hlength, hsole, htarget, reject, finish, top, hhead]
        | some target => simp [before, hlength, hsole, htarget, top]

/-- A move looks at the next symbol only, and takes at most that. -/
theorem move_before (parser : ShiftReduceParser) {rest : Form}
    (hlook : Lookahead.ofRest parser.remaining = .ofRest rest) :
    ∃ taken ≤ 1,
      (parser.move table).remaining = parser.remaining.drop taken ∧
      (parser.before rest).move table =
        (parser.move table).before (rest.drop taken) := by
  have hhead : parser.remaining.head? = rest.head? := by
    have hsymbol := congrArg Lookahead.symbol? hlook
    cases hremaining : parser.remaining <;> cases rest <;>
      simp_all [Lookahead.ofRest, Lookahead.symbol?]
  have hcell : table.action? (parser.before rest).top
      (.ofRest (parser.before rest).remaining) =
      table.action? parser.top (.ofRest parser.remaining) := by
    rw [hlook]
    rfl
  unfold move
  rw [hcell]
  split
  next => exact ⟨0, Nat.zero_le _, rfl, by simp [before, reject, finish, top, hhead]⟩
  next => exact ⟨0, Nat.zero_le _, rfl, rfl⟩
  next => 
    refine ⟨1, Nat.le_refl _, rfl, ?_⟩
    have htake : rest.take 1 = parser.remaining.take 1 := by
      rw [List.take_one, List.take_one, hhead]
    simp [before, htake]
  next number _ => exact ⟨0, Nat.zero_le _, reduce_before parser number hhead⟩

theorem step_before (table : SlrTable) (parser : ShiftReduceParser)
    (checkpoint : Checkpoint) {rest : Form}
    (hlook : Lookahead.ofRest parser.remaining = .ofRest rest) :
    ∃ taken ≤ 1,
      (parser.step table checkpoint).remaining =
        parser.remaining.drop taken ∧
      (parser.before rest).step table checkpoint =
        (parser.step table checkpoint).before (rest.drop taken) := by
  unfold ShiftReduceParser.step
  have hended : (parser.before rest).hasEnded = parser.hasEnded := rfl
  rw [hended]
  split
  next => exact ⟨0, Nat.zero_le _, rfl, rfl⟩
  next =>
    have hguard : (parser.before rest).guard = parser.guard := rfl
    simp only [hguard]
    split
    next =>
      exact move_before
        { parser with guard := (parser.guard.advance checkpoint).2 } hlook
    next => exact ⟨0, Nat.zero_le _, rfl, rfl⟩

theorem remaining_after_suffix (table : SlrTable) (schedule : Schedule)
    (input : Form) {m n : Nat} (hle : m ≤ n) :
    (after table schedule input n).remaining <:+
      (after table schedule input m).remaining := by
  induction hle with
  | refl => exact List.suffix_rfl
  | @step n _ ih =>
      rw [after_succ]
      obtain ⟨taken, _, hremaining, _⟩ :=
        step_before table (after table schedule input n) .always rfl
      rw [hremaining]
      exact (List.drop_suffix _ _).trans ih

/-- The runs are in the same state, in front of what may be different. -/
def Alike (left right : Form) (first second : ShiftReduceParser) : Prop :=
  ∃ front, first.remaining = front ++ left ∧
    second = first.before (front ++ right)

theorem Alike.step {left right : Form} {first second : ShiftReduceParser}
    (halike : Alike left right first second)
    (hlook : Lookahead.ofRest left = .ofRest right)
    (hbefore : left <:+ (first.step table .always).remaining) :
    Alike left right (first.step table .always)
      (second.step table .always) := by
  rcases halike with ⟨front, hfirst, rfl⟩
  have hboth : Lookahead.ofRest first.remaining = .ofRest (front ++ right) := by
    rw [hfirst]
    cases front with
    | nil => exact hlook
    | cons s front => rfl
  obtain ⟨taken, hle, hremaining, hstep⟩ :=
    step_before table first .always hboth
  rw [hremaining, hfirst] at hbefore
  have hdrop : ∀ back, Lookahead.ofRest left = .ofRest back →
      (front ++ back).drop taken = front.drop taken ++ back := by
    intro back hback
    rcases Nat.lt_or_ge front.length taken with hlt | hge
    · -- With nothing in front the step has taken nothing of the back.
      have hfront : front = [] := List.length_eq_zero_iff.mp (by omega)
      have hlength := hbefore.length_le
      simp only [hfront, List.nil_append, List.length_drop] at hlength
      have hleft : left = [] := List.length_eq_zero_iff.mp (by
        rw [hfront, List.length_nil] at hlt
        omega)
      rw [hleft] at hback
      rw [Lookahead.ofRest_eq_endOfInput_iff.mp hback.symm, hfront]
      simp
    · exact List.drop_append_of_le_length hge
  refine ⟨front.drop taken, ?_, ?_⟩
  · rw [hremaining, hfirst, hdrop left rfl]
  · rw [hstep, hdrop right hlook]

theorem alike_after {left right front : Form}
    (hlook : Lookahead.ofRest left = .ofRest right) (schedule : Schedule)
    (count : Nat)
    (hbefore :
      left <:+ (after table schedule (front ++ left) count).remaining) :
    Alike left right (after table schedule (front ++ left) count)
      (after table schedule (front ++ right) count) := by
  induction count with
  | zero => exact ⟨front, rfl, rfl⟩
  | succ count ih =>
      have hsuffix := remaining_after_suffix table schedule (front ++ left)
        (Nat.le_add_right count 1)
      have halike := ih (hbefore.trans hsuffix)
      rw [after_succ] at hbefore ⊢
      rw [after_succ]
      exact halike.step hlook hbefore

/-! ## Waiting in front of a completion -/

/-- After so many moves the run still goes on in front of the rest. -/
def Waits (table : SlrTable) (schedule : Schedule) (front rest : Form)
    (count : Nat) : Prop :=
  (after table schedule (front ++ rest) count).outcome = none ∧
    (after table schedule (front ++ rest) count).remaining = rest

theorem exists_accepted (hstart : g.requireContextFree = .ok start)
    (htable : table.Describes g start) (hfree : table.isConflictFree = true)
    (schedule : Schedule) (hlanguage : g.Language input) :
    ∃ bound, ∀ count, bound ≤ count →
      (after table schedule input count).outcome = some .accept := by
  obtain ⟨hword, hyields⟩ := (Grammar.language_iff_yields hstart).mp hlanguage
  obtain ⟨tree, hvalid, hroot, hfrontier⟩ := Tree.exists_tree hyields
  have hsome := (Grammar.requireContextFree_eq_ok_iff.mp hstart).1
  obtain ⟨bound, haccept, _⟩ := comes_accepted htable hfree hsome
    ⟨hvalid, hroot ▸ hsome, hfrontier, hword⟩ schedule
  refine ⟨bound, ?_⟩
  intro count hle
  rw [after, ← Nat.add_sub_cancel' hle, stepTimes_add,
    stepTimes_of_fixed (step_of_hasEnded (by simp [hasEnded, haccept]))]
  exact haccept

/-- Of the completions with one first symbol, each is reached as late as any
other, and the run on one of them has accepted at some moment. -/
theorem exists_wait_bound (hstart : g.requireContextFree = .ok start)
    (htable : table.Describes g start) (hfree : table.isConflictFree = true)
    (schedule : Schedule) (front : Form) (x : Lookahead) :
    ∃ bound, ∀ rest count, g.Language (front ++ rest) →
      Lookahead.ofRest rest = x → Waits table schedule front rest count →
      count < bound := by
  by_cases hsome : ∃ rest, g.Language (front ++ rest) ∧ .ofRest rest = x
  · rcases hsome with ⟨chosen, hlanguage, hchosen⟩
    obtain ⟨bound, haccepted⟩ :=
      exists_accepted hstart htable hfree schedule hlanguage
    refine ⟨bound, ?_⟩
    intro rest count _ hrest hwaits
    apply Nat.lt_of_not_le
    intro hle
    have hbefore :
        rest <:+ (after table schedule (front ++ rest) count).remaining :=
      ⟨[], hwaits.2.symm⟩
    obtain ⟨_, _, hsame⟩ :=
      alike_after (hrest.trans hchosen.symm) schedule count hbefore
    have hnone := congrArg outcome hsame
    rw [haccepted count hle] at hnone
    exact absurd (hnone.trans hwaits.1) (by simp)
  · refine ⟨0, ?_⟩
    intro rest count hlanguage hrest
    exact absurd ⟨rest, hlanguage, hrest⟩ hsome

theorem exists_common_bound (hg : g.Consistent)
    (hstart : g.requireContextFree = .ok start)
    (htable : table.Describes g start) (hfree : table.isConflictFree = true)
    (schedule : Schedule) (front : Form) :
    ∃ bound, ∀ rest count, g.Language (front ++ rest) →
      Waits table schedule front rest count → count < bound := by
  choose bound hbound using
    exists_wait_bound hstart htable hfree schedule front
  refine ⟨((LookaheadSets.followDomain g).map bound).sum, ?_⟩
  intro rest count hlanguage hwaits
  have hmem : Lookahead.ofRest rest ∈ LookaheadSets.followDomain g := by
    obtain ⟨hword, hyields⟩ := (Grammar.language_iff_yields hstart).mp hlanguage
    have hsome := (Grammar.requireContextFree_eq_ok_iff.mp hstart).1
    cases rest with
    | nil => exact List.mem_cons_self
    | cons t rest =>
        refine List.mem_cons_of_mem _ (List.mem_map.mpr ⟨t, ?_, rfl⟩)
        exact hg.mem_terminals_of_mem_yield hsome hyields hword
          (List.mem_append_right front List.mem_cons_self)
  calc count < bound (.ofRest rest) :=
        hbound _ rest count hlanguage rfl hwaits
    _ ≤ ((LookaheadSets.followDomain g).map bound).sum :=
        List.single_le_sum (fun _ _ => Nat.zero_le _) _
          (List.mem_map_of_mem hmem)

/-- A stack of a run can be completed to a string of the language, and the run
on that string waits in front of the completion after as many moves. -/
theorem exists_waiting (hg : g.Consistent)
    (hstart : g.requireContextFree = .ok start)
    (htable : table.Describes g start) (hfree : table.isConflictFree = true)
    (hvariables : ∀ s ∈ g.variables, g.Produces [s])
    (hproduces : g.Produces [start]) {forest : List Tree} {count : Nat}
    (hcarries : parser.Carries g table input forest)
    (hcounted : parser.Counted table input count) (schedule : Schedule) :
    ∃ rest, g.Language (Tree.frontierOfAll forest ++ rest) ∧
      Waits table schedule (Tree.frontierOfAll forest) rest count := by
  obtain ⟨behind, hstack⟩ := hcarries.path.exists_continuation hg htable
  have hfrontier := hcarries.valid.yields
  rw [hcarries.roots_eq] at hfrontier
  obtain ⟨rest, hrest, hbehind, hlanguage⟩ := hg.exists_completion hstart
    hproduces hvariables hcarries.consumed_isTerminal
    (hstack.trans (hfrontier.append (.refl behind)))
  have hopen := hstack.trans ((Grammar.Yields.refl _).append hbehind)
  have hword := Grammar.isTerminal_append.mpr
    ⟨hcarries.consumed_isTerminal, hrest⟩
  refine ⟨rest, hlanguage, ?_⟩
  obtain ⟨other, hother⟩ := comes_to_path htable hfree hcarries.path
    hcarries.valid hcarries.roots_eq hword (Grammar.supported_of_yields hopen)
    schedule
  change (after table schedule _ other).Running table _ _ _ _ at hother
  -- Both runs have made the same moves, so they have made as many.
  have hsame : other = count := by
    rcases concluded_or_counted hg htable schedule
      (Tree.frontierOfAll forest ++ rest) other with hended | hmoves
    · have hnone := hended.hasEnded
      simp [hasEnded, hother.outcome_eq] at hnone
    · have hmoved := hmoves.count_eq
      have hcount := hcounted.count_eq
      rw [hother.derivation_eq, hother.remaining_eq] at hmoved
      rw [← hcarries.derivation_eq, ← hcarries.input_eq] at hcount
      simp only [List.length_append] at hmoved hcount
      omega
  rw [← hsame]
  exact ⟨hother.outcome_eq, hother.remaining_eq⟩

/-! ## Every run ends -/

theorem exists_least_remaining (table : SlrTable) (schedule : Schedule)
    (input : Form) :
    ∃ last, ∀ count, (after table schedule input last).remaining.length ≤
      (after table schedule input count).remaining.length := by
  let length := fun count => (after table schedule input count).remaining.length
  exact ⟨Function.argmin length, fun count => Function.argmin_le length count⟩

theorem concludes_of_mem_variables (hg : g.Consistent)
    (hstart : g.requireContextFree = .ok start)
    (htable : table.Describes g start) (hfree : table.isConflictFree = true)
    (hvariables : ∀ s ∈ g.variables, g.Produces [s])
    (hmem : start ∈ g.variables) (schedule : Schedule) (input : Form) :
    Comes (ShiftReduceParser.step table .always)
      (ShiftReduceParser.start schedule input) Concluded := by
  apply Classical.byContradiction
  intro hendless
  have hcounted : ∀ count,
      (after table schedule input count).Counted table input count := by
    intro count
    rcases concluded_or_counted hg htable schedule input count with
      hended | hmoves
    · exact absurd ⟨count, hended⟩ hendless
    · exact hmoves
  -- From some moment on no more input is taken.
  obtain ⟨last, hleast⟩ := exists_least_remaining table schedule input
  have hlast : ∀ count, last ≤ count →
      (after table schedule input count).remaining =
        (after table schedule input last).remaining := by
    intro count hle
    exact (remaining_after_suffix table schedule input hle).eq_of_length_le
      (hleast count)
  obtain ⟨forest, hforest⟩ :=
    exists_forest_after hg htable schedule input last
  obtain ⟨bound, hbound⟩ := exists_common_bound hg hstart htable hfree schedule
    (Tree.frontierOfAll forest)
  obtain ⟨later, hlater⟩ := exists_forest_after hg htable schedule
    input (last + bound)
  have hsame : Tree.frontierOfAll later = Tree.frontierOfAll forest := by
    have hinput := hlater.input_eq.trans hforest.input_eq.symm
    rw [hlast _ (Nat.le_add_right last bound)] at hinput
    exact List.append_cancel_right hinput
  obtain ⟨rest, hlanguage, hwaits⟩ := exists_waiting hg hstart htable hfree
    hvariables (hvariables start hmem) hlater (hcounted (last + bound)) schedule
  rw [hsame] at hlanguage hwaits
  have hlt := hbound rest (last + bound) hlanguage hwaits
  omega

/-- Where the start has no production the first move rejects. -/
theorem concludes_of_not_mem_variables (hg : g.Consistent)
    (hstart : g.requireContextFree = .ok start)
    (htable : table.Describes g start) (hmem : start ∉ g.variables)
    (schedule : Schedule) (input : Form) :
    Comes (ShiftReduceParser.step table .always)
      (ShiftReduceParser.start schedule input) Concluded := by
  have hsome := (Grammar.requireContextFree_eq_ok_iff.mp hstart).1
  have hhead : ∀ p ∈ g.productions, p.head? ≠ some start :=
    fun p hp hsole => hmem (hg.mem_variables_of_head? hp hsole)
  have honly : ∀ {s : Symbol} {states : List Nat},
      Path table.states states [s] → s = start := by
    intro s states hpath
    obtain ⟨behind, hyields⟩ := hpath.exists_continuation hg htable
    generalize hform : [s].reverse ++ behind = form at hyields
    cases hyields with
    | keep _ _ => exact (List.cons.inj hform).1
    | expand p hp hsole _ _ => exact absurd hsole (hhead p hp)
  obtain ⟨counted, hcounted, hstep⟩ := (running_start table schedule input).step_eq
  have hpath : Path table.states counted.states counted.symbols := by
    rw [hcounted.states_eq, hcounted.symbols_eq]
    exact .base
  have hsymbols := hcounted.symbols_eq
  have hmoves := moves_move hg htable hpath
  rw [← hstep] at hmoves
  refine .later (.now ?_)
  generalize ShiftReduceParser.step table .always _ = next at hmoves ⊢
  cases hmoves with
  | reject mismatch => exact .inr ⟨mismatch, rfl⟩
  | accept hsole _ =>
      rw [hsymbols] at hsole
      cases hsole
  | shift _ hterm hpushed =>
      rw [hsymbols] at hpushed
      rw [honly hpushed] at hterm
      exact absurd (hg.start_isVar start hsome)
        (Symbol.not_isVar_of_isTerm hterm)
  | reduce _ hp hsole hspelled hpushed =>
      rw [hsymbols] at hspelled
      obtain ⟨_, rfl⟩ := List.append_eq_nil_iff.mp hspelled.symm
      rw [honly hpushed] at hsole
      exact absurd hsole (hhead _ hp)

/-- Where all variables are productive, a run with a conflict-free table ends
on every input.  It does not matter whether they are reachable too. -/
theorem run_ends (hg : g.Consistent) (hstart : g.requireContextFree = .ok start)
    (hproductive : ∀ s ∈ g.variables,
      ∃ word, Form.isTerminal word = true ∧ g.Derives [s] word) :
    ∃ table, SlrTable.ofGrammar g = .ok table ∧
      (table.isConflictFree = true →
        ∀ (schedule : Schedule) (input : Form), ∃ count,
          let parser := stepTimes (ShiftReduceParser.step table .always) count
            (ShiftReduceParser.start schedule input)
          parser.outcome = some .accept ∨
            ∃ mismatch, parser.outcome = some (.reject mismatch)) := by
  obtain ⟨table, htable⟩ := SlrTable.ofGrammar_eq_ok hstart
  have hdescribes := SlrTable.describes_ofGrammar hg hstart htable
  have hcontextFree := (Grammar.requireContextFree_eq_ok_iff.mp hstart).2
  have hvariables : ∀ s ∈ g.variables, g.Produces [s] := by
    intro s hs
    obtain ⟨word, hword, hderives⟩ := hproductive s hs
    exact ⟨word, hword, (Grammar.yields_iff_derives hcontextFree).mpr hderives⟩
  refine ⟨table, htable, ?_⟩
  intro hfree schedule input
  by_cases hmem : start ∈ g.variables
  · exact concludes_of_mem_variables hg hstart hdescribes hfree hvariables hmem
      schedule input
  · exact concludes_of_not_mem_variables hg hstart hdescribes hmem schedule input

/-- `S → aSb | λ`. -/
def emptyPairs : Grammar :=
  Grammar.withProductions { start := some (.var "S") }
    [.rule (.var "S") [.term "a", .var "S", .term "b"],
      .rule (.var "S") []]

/-- The run on `aab`, which is not in the language, ends. -/
theorem run_ends_emptyPairs :
    ∃ table, SlrTable.ofGrammar emptyPairs = .ok table ∧
      (∀ s ∈ emptyPairs.variables,
        ∃ word, Form.isTerminal word = true ∧ emptyPairs.Derives [s] word) ∧
      table.isConflictFree = true ∧
      ∃ count,
        let parser := stepTimes (ShiftReduceParser.step table .always) count
          (ShiftReduceParser.start {} [.term "a", .term "a", .term "b"])
        parser.outcome = some .accept ∨
          ∃ mismatch, parser.outcome = some (.reject mismatch) := by
  have hproductive : ∀ s ∈ emptyPairs.variables,
      ∃ word, Form.isTerminal word = true ∧ emptyPairs.Derives [s] word := by
    have hvariables : emptyPairs.variables = [.var "S"] := rfl
    have hmem : Production.rule (.var "S") [] ∈ emptyPairs.productions := by
      decide
    intro s hs
    rw [hvariables, List.mem_singleton] at hs
    exact ⟨[], rfl, hs ▸ .of_production hmem rfl⟩
  obtain ⟨table, htable, hends⟩ := run_ends
    (Grammar.consistent_of_start rfl _) (g := emptyPairs) rfl hproductive
  have hbuilt : ∃ built, SlrTable.ofGrammar emptyPairs = .ok built ∧
      built.isConflictFree = true :=
    ⟨_, rfl, by decide +kernel⟩
  obtain ⟨built, hbuilt, hfree⟩ := hbuilt
  rw [htable] at hbuilt
  cases hbuilt
  exact ⟨table, htable, hproductive, hfree, hends hfree {} _⟩

end FormalGrammars.ShiftReduceParser
