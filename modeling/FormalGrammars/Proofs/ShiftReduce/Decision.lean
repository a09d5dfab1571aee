import FormalGrammars.Proofs.Support
import FormalGrammars.Proofs.ShiftReduce.Derivation

/-!
# A conflict-free SLR(1) table recognizes its language

A run follows a complete tree from left to right: in front of the frontier of
a subtree whose root stands behind a dot, it comes to the state that its
transition on the root leads to, with the frontier consumed.  This goes by
induction on the tree, because FOLLOW holds whatever can stand behind the
root, and in a table without conflicts the action of a cell is the one that
the items of the tree ask for.  The reductions on the way are the rightmost
derivation of the frontier, the last step first.
-/

namespace FormalGrammars

namespace Tree

mutual

/-- The productions of the rightmost derivation of the frontier. -/
def rightmost : Tree → List Production
  | leaf _ => []
  | node _ p children => p :: rightmostOfAll children

def rightmostOfAll : List Tree → List Production
  | [] => []
  | tree :: trees => rightmostOfAll trees ++ tree.rightmost

end

end Tree

namespace ShiftReduceParser

open Automaton

variable {g : Grammar} {start : Symbol} {table : SlrTable}
  {parser : ShiftReduceParser} {states : List Nat} {symbols remaining : Form}
  {done : List Production}

/-- The run goes on with these stacks, this input left and these reductions,
the latest first. -/
structure Running (table : SlrTable) (parser : ShiftReduceParser)
    (states : List Nat) (symbols remaining : Form)
    (done : List Production) : Prop where
  outcome_eq : parser.outcome = none
  not_cancelled : parser.guard.cancelled = false
  states_eq : parser.states = states
  symbols_eq : parser.symbols = symbols
  remaining_eq : parser.remaining = remaining
  derivation_eq : parser.derivation table = done

theorem running_start (table : SlrTable) (schedule : Schedule) (input : Form) :
    Running table (ShiftReduceParser.start schedule input) [0] [] input [] :=
  ⟨rfl, rfl, rfl, rfl, rfl, rfl⟩

/-! ## Single moves -/

/-- Without a stop a step is a move, but for the count of the guard. -/
theorem Running.step_eq
    (hrunning : parser.Running table states symbols remaining done) :
    ∃ counted : ShiftReduceParser,
      counted.Running table states symbols remaining done ∧
      parser.step table .always = counted.move table := by
  obtain ⟨hleave, hguard⟩ := Guard.advance_always hrunning.not_cancelled
  refine ⟨{ parser with guard := (parser.guard.advance .always).2 },
    ⟨hrunning.outcome_eq, hguard, hrunning.states_eq, hrunning.symbols_eq,
      hrunning.remaining_eq, hrunning.derivation_eq⟩, ?_⟩
  exact step_of_leave hrunning.outcome_eq hleave

theorem Running.top_eq {number : Nat} {below : List Nat}
    (hrunning : parser.Running table (number :: below) symbols remaining done) :
    parser.top = number := by
  rw [top, hrunning.states_eq]
  rfl

def Accepted (table : SlrTable) (done : List Production)
    (parser : ShiftReduceParser) : Prop :=
  parser.outcome = some .accept ∧ parser.derivation table = done

theorem Running.accept {number : Nat} {below : List Nat}
    (hrunning : parser.Running table (number :: below) symbols remaining done)
    (haction : table.action? number (.ofRest remaining) = some .accept) :
    (parser.step table .always).Accepted table done := by
  obtain ⟨counted, hcounted, hstep⟩ := hrunning.step_eq
  rw [hstep, move, hcounted.top_eq, hcounted.remaining_eq, haction]
  exact ⟨rfl, hcounted.derivation_eq⟩

theorem Running.shift {number target : Nat} {below : List Nat} {s : Symbol}
    (hrunning :
      parser.Running table (number :: below) symbols (s :: remaining) done)
    (haction : table.action? number (.symbol s) = some (.shift target)) :
    (parser.step table .always).Running table (target :: number :: below)
      (s :: symbols) remaining done := by
  obtain ⟨counted, hcounted, hstep⟩ := hrunning.step_eq
  rw [hstep, move, hcounted.top_eq, hcounted.remaining_eq, Lookahead.ofRest,
    haction]
  refine ⟨hcounted.outcome_eq, hcounted.not_cancelled, ?_, ?_, rfl,
    hcounted.derivation_eq⟩
  · simp [hcounted.states_eq]
  · simp [hcounted.symbols_eq]

theorem Running.reduce {number exposed top target : Nat}
    {below under : List Nat} {rest : Form} {p : Production} {head : Symbol}
    (hrunning : parser.Running table (top :: below) symbols remaining done)
    (haction : table.action? top (.ofRest remaining) = some (.reduce number))
    (hp : table.productions[number]? = some p) (hhead : p.head? = some head)
    (hstates : (top :: below).drop p.rhs.length = exposed :: under)
    (hsymbols : symbols.drop p.rhs.length = rest)
    (htarget : table.goto? exposed head = some target) :
    (parser.step table .always).Running table (target :: exposed :: under)
      (head :: rest) remaining (p :: done) := by
  obtain ⟨counted, hcounted, hstep⟩ := hrunning.step_eq
  have hlength : ¬ below.length + 1 ≤ p.rhs.length := by
    intro hle
    rw [List.drop_eq_nil_of_le (by simpa using hle)] at hstates
    cases hstates
  have hmove : counted.move table =
      { counted with
        states := target :: exposed :: under
        symbols := head :: rest
        reduced := number :: counted.reduced } := by
    rw [move, hcounted.top_eq, hcounted.remaining_eq, haction]
    simp [ShiftReduceParser.reduce, hp, hhead, hcounted.states_eq, hlength,
      ShiftReduceParser.top, hstates, hcounted.symbols_eq, hsymbols, htarget,
      hcounted.remaining_eq]
  rw [hstep, hmove]
  refine ⟨hcounted.outcome_eq, hcounted.not_cancelled, rfl, rfl,
    hcounted.remaining_eq, ?_⟩
  have hderivation := hcounted.derivation_eq
  unfold derivation productionsOf at hderivation ⊢
  rw [List.filterMap_cons, hp, hderivation]

/-! ## Following a tree -/

/-- In front of its frontier the run follows the tree: it comes to the state
behind the transition on the root. -/
def Parses (g : Grammar) (start : Symbol) (table : SlrTable)
    (tree : Tree) : Prop :=
  ∀ (parser : ShiftReduceParser) (number : Nat) (below : List Nat)
    (symbols rest : Form) (done : List Production) (state : AutomatonState)
    (item : Item),
    tree.ValidFor g → Form.isTerminal (tree.frontier ++ rest) = true →
    g.Supported start (tree.root :: rest) →
    table.states[number]? = some state → item ∈ state.items →
    item.next? table.productions = some tree.root →
    parser.Running table (number :: below) symbols (tree.frontier ++ rest) done →
    Comes (step table .always) parser fun other =>
      ∃ target, table.goto? number tree.root = some target ∧
        other.Running table (target :: number :: below) (tree.root :: symbols)
          rest (tree.rightmost ++ done)

theorem parses_leaf (htable : table.Describes g start)
    (hfree : table.isConflictFree = true) (s : Symbol) :
    Parses g start table (.leaf s) := by
  intro parser number below symbols rest done state item _ hword _ hstate
    hitem hnext hrunning
  simp only [Tree.frontier, List.cons_append, List.nil_append, Form.isTerminal,
    List.all_cons, Bool.and_eq_true] at hword hrunning
  obtain ⟨target, _, htarget, _⟩ :=
    htable.grown.advance htable.complete hstate hitem hnext
  have hshift := htable.mem_actions_iff_calls.mpr
    (.shift hstate hitem hnext hword.1 htarget)
  have haction := SlrTable.action?_of_mem hfree hshift
  exact .later (.now ⟨target, htarget, hrunning.shift haction⟩)

/-- The children of a node are followed in turn, with the dot of one item
moving over them. -/
theorem comes_behind_children (htable : table.Describes g start)
    {trees : List Tree} (hparses : ∀ tree ∈ trees, Parses g start table tree)
    {number : Nat} {below : List Nat} {rest : Form} {state : AutomatonState}
    {item : Item} {p : Production} (hvalid : Tree.AllValidFor g trees)
    (hword : Form.isTerminal (Tree.frontierOfAll trees ++ rest) = true)
    (hstack : g.Supported start (trees.map Tree.root ++ rest))
    (hstate : table.states[number]? = some state) (hitem : item ∈ state.items)
    (hp : table.productions[item.production]? = some p)
    (hroots : p.rhs.drop item.dot = trees.map Tree.root)
    (hrunning : parser.Running table (number :: below) symbols
      (Tree.frontierOfAll trees ++ rest) done) :
    Comes (step table .always) parser fun other =>
      ∃ (top : Nat) (under : List Nat) (last : AutomatonState),
        (top :: under).drop trees.length = number :: below ∧
        table.states[top]? = some last ∧
        ⟨item.production, item.dot + trees.length⟩ ∈ last.items ∧
        other.Running table (top :: under)
          ((trees.map Tree.root).reverse ++ symbols) rest
          (Tree.rightmostOfAll trees ++ done) := by
  induction trees generalizing parser number below symbols done state item with
  | nil => exact .now ⟨number, below, state, rfl, hstate, hitem, hrunning⟩
  | cons tree trees ih =>
      simp only [Tree.frontierOfAll, List.append_assoc] at hword hrunning
      rw [List.map_cons] at hroots
      have hroot : p.rhs[item.dot]? = some tree.root := by
        rw [← List.head?_drop, hroots]
        rfl
      have hnext : item.next? table.productions = some tree.root :=
        next?_eq_some_iff.mpr ⟨p, hp, hroot⟩
      have htails : p.rhs.drop item.advance.dot = trees.map Tree.root := by
        rw [Item.advance, ← List.tail_drop, hroots]
        rfl
      obtain ⟨target, next, htarget, hreached, hadvanced⟩ :=
        htable.grown.advance htable.complete hstate hitem hnext
      -- The right siblings and the rest are the stack below the child.
      have hbehind := (Grammar.isTerminal_append.mp hword).2
      have hsupported : g.Supported start
          (tree.root :: (Tree.frontierOfAll trees ++ rest)) :=
        Grammar.Supported.narrow hstack
          (hvalid.2.yields.append (.refl rest))
      apply Comes.next (hparses tree List.mem_cons_self parser number below
        symbols _ done state item hvalid.1 hword hsupported hstate hitem hnext
        hrunning)
      -- The run comes to the state that the item of this child goes to.
      rintro middle ⟨target', htarget', hmiddle⟩
      have hsame : target = target' :=
        Option.some.inj (htarget.symm.trans htarget')
      subst hsame
      apply Comes.next (ih
        (fun other hother => hparses other (List.mem_cons_of_mem tree hother))
        hvalid.2 hbehind hstack.2 hreached hadvanced hp htails hmiddle)
      rintro other ⟨top, under, last, hdrop, hlast, hdot, hother⟩
      refine .now ⟨top, under, last, ?_, hlast, ?_, ?_⟩
      · rw [List.length_cons, ← List.drop_drop, hdrop]
        rfl
      · rw [List.length_cons, Nat.add_comm trees.length, ← Nat.add_assoc]
        exact hdot
      · rw [Tree.rightmostOfAll, List.append_assoc, List.map_cons,
          List.reverse_cons, List.append_assoc]
        exact hother

theorem parses (htable : table.Describes g start)
    (hfree : table.isConflictFree = true) (tree : Tree) :
    Parses g start table tree := by
  induction tree using Tree.induction with
  | leaf s => exact parses_leaf htable hfree s
  | node s p children ih =>
      rintro parser number below symbols rest done state item
        ⟨hmem, hhead, hroots, hchildren⟩ hword hstack hstate hitem hnext hrunning
      simp only [Tree.root] at hstack hnext
      simp only [Tree.frontier] at hword hrunning
      obtain ⟨target, _, htarget, _⟩ :=
        htable.grown.advance htable.complete hstate hitem hnext
      obtain ⟨front, hne, hp⟩ := htable.exists_number hmem
      have hfront := htable.grown.mem_items_of_head? hstate hitem hnext hp hhead
      have hbelow := hstack.expand hmem hhead
      rw [← hroots] at hbelow
      have hrest := (Grammar.isTerminal_append.mp hword).2
      have hfaces := Grammar.faces_ofRest (g := g) (.refl rest) hrest
      apply Comes.next (comes_behind_children htable ih hchildren hword hbelow
        hstate hfront hp hroots.symm hrunning)
      rintro other ⟨top, under, last, hdrop, hlast, hdot, hother⟩
      have hlength : children.length = p.rhs.length := by
        rw [← hroots, List.length_map]
      rw [hlength, Nat.zero_add] at hdot
      have hdone : Item.next? table.productions ⟨front, p.rhs.length⟩ = none := by
        simp [Item.next?, hp]
      have hreduce := htable.mem_actions_iff_calls.mpr
        (.reduce hlast hdot hdone hne (Item.head?_eq_some_iff.mpr ⟨p, hp, hhead⟩)
          (hstack.1 (Grammar.isVar_of_head? hhead) _ hfaces))
      have haction := SlrTable.action?_of_mem hfree hreduce
      refine .later (.now ⟨target, htarget, ?_⟩)
      refine hother.reduce haction hp hhead (hlength ▸ hdrop) ?_ htarget
      rw [List.drop_left']
      rw [List.length_reverse, List.length_map, hlength]

theorem comes_accepted (htable : table.Describes g start)
    (hfree : table.isConflictFree = true) {word : Form} {tree : Tree}
    (hstart : g.start = some start) (htree : tree.CompleteFor g word)
    (schedule : Schedule) :
    Comes (step table .always) (ShiftReduceParser.start schedule word)
      (Accepted table tree.rightmost) := by
  obtain ⟨state, hstate, hitem⟩ := htable.grown.mem_items_zero
  have hroot : tree.root = start :=
    Option.some.inj (htree.start_eq.symm.trans hstart)
  have hnext : Item.next? table.productions ⟨0, 0⟩ = some tree.root :=
    next?_eq_some_iff.mpr ⟨_, htable.production_zero, by rw [hroot]; rfl⟩
  have hword : Form.isTerminal (tree.frontier ++ []) = true := by
    rw [List.append_nil, htree.frontier_eq]
    exact htree.terminal
  have hstack : g.Supported start [tree.root] := by
    rw [hroot]
    exact Grammar.supported_start
  have hrunning := running_start table schedule word
  rw [← htree.frontier_eq, ← List.append_nil tree.frontier] at hrunning
  have hparses := parses htable hfree tree _ 0 [] [] [] [] state ⟨0, 0⟩
    htree.valid hword hstack hstate hitem hnext hrunning
  rw [List.append_nil, htree.frontier_eq] at hparses
  apply Comes.next hparses
  rintro other ⟨target, htarget, hother⟩
  obtain ⟨target', last, htarget', hlast, hdot⟩ :=
    htable.grown.advance htable.complete hstate hitem hnext
  have hsame : target' = target :=
    Option.some.inj (htarget'.symm.trans htarget)
  subst hsame
  have hdone : Item.next? table.productions ⟨0, 1⟩ = none := by
    simp [Item.next?, htable.production_zero, Production.rule]
  have haccept := htable.mem_actions_iff_calls.mpr (.accept hlast hdot hdone rfl)
  have haction := SlrTable.action?_of_mem hfree haccept
  rw [List.append_nil] at hother
  exact .later (.now (hother.accept haction))

/-- With a table without conflicts a run accepts exactly the terminal strings
of the language. -/
theorem accepts_iff_language (hg : g.Consistent)
    (htable : SlrTable.ofGrammar g = .ok table)
    (hfree : table.isConflictFree = true) (schedule : Schedule) (word : Form)
    (hword : Form.isTerminal word = true) :
    (∃ count, (stepTimes (step table .always) count
        (ShiftReduceParser.start schedule word)).outcome = some .accept) ↔
      g.Language word := by
  obtain ⟨start, hstart⟩ := SlrTable.exists_start_of_ofGrammar htable
  have hdescribes := SlrTable.describes_ofGrammar hg hstart htable
  constructor
  · rintro ⟨count, haccept⟩
    have hlast := stepTimes_induct (motive := Traced g start table word)
      (fun state hstate => hstate.step hg hdescribes .always) count
      (traced_start schedule hword)
    exact hlast.language hstart hword haccept
  · intro hlanguage
    obtain ⟨_, hyields⟩ := (Grammar.language_iff_yields hstart).mp hlanguage
    obtain ⟨tree, hvalid, hroot, hfrontier⟩ := Tree.exists_tree hyields
    have hsome := (Grammar.requireContextFree_eq_ok_iff.mp hstart).1
    have htree : tree.CompleteFor g word :=
      ⟨hvalid, hroot ▸ hsome, hfrontier, hword⟩
    obtain ⟨count, haccept, _⟩ :=
      comes_accepted hdescribes hfree hsome htree schedule
    exact ⟨count, haccept⟩

/-- `S → Sa | λ`, beside a variable that is neither reachable nor productive. -/
def repeatedLetter : Grammar :=
  Grammar.withProductions { start := some (.var "S") }
    [.rule (.var "S") [.var "S", .term "a"],
      .rule (.var "S") [],
      .rule (.var "U") [.var "U", .term "b"]]

theorem accepts_repeatedLetter_iff :
    ∃ table, SlrTable.ofGrammar repeatedLetter = .ok table ∧
      table.isConflictFree = true ∧
      Form.isTerminal [.term "a", .term "a"] = true ∧
      ((∃ count, (stepTimes (step table .always) count
          (ShiftReduceParser.start {} [.term "a", .term "a"])).outcome =
            some .accept) ↔
        repeatedLetter.Language [.term "a", .term "a"]) := by
  have hbuilt : ∃ table, SlrTable.ofGrammar repeatedLetter = .ok table ∧
      table.isConflictFree = true :=
    ⟨_, rfl, by decide +kernel⟩
  obtain ⟨table, htable, hfree⟩ := hbuilt
  exact ⟨table, htable, hfree, by decide,
    accepts_iff_language (Grammar.consistent_of_start rfl _) htable hfree {} _
      (by decide)⟩

end ShiftReduceParser

end FormalGrammars
