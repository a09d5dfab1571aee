import FormalGrammars.Proofs.ShiftReduce.Decision
import FormalGrammars.Proofs.ShiftReduce.Validity

/-!
# The forest on the stack

Every symbol on the stack is the root of a tree for a part of the consumed
input: a shift puts a leaf on the stack, and a reduction makes the trees of the
handle the children of a new node.  So the consumed input consists of terminals
that the stacked symbols yield, and the reductions are the rightmost derivation
of the forest.  A move that does not end the run shifts a symbol or makes a
reduction, which counts the moves.
-/

namespace FormalGrammars

theorem Tree.rightmostOfAll_append (first second : List Tree) :
    rightmostOfAll (first ++ second) =
      rightmostOfAll second ++ rightmostOfAll first := by
  induction first with
  | nil => simp [rightmostOfAll]
  | cons tree first ih => simp [rightmostOfAll, ih]

namespace ShiftReduceParser

open Automaton

variable {g : Grammar} {start : Symbol} {table : SlrTable} {input : Form}
  {parser next : ShiftReduceParser} {forest : List Tree}

/-- The stack holds the roots of a forest over the consumed input. -/
structure Carries (g : Grammar) (table : SlrTable) (input : Form)
    (parser : ShiftReduceParser) (forest : List Tree) : Prop where
  path : Path table.states parser.states parser.symbols
  valid : Tree.AllValidFor g forest
  roots_eq : forest.map Tree.root = parser.symbols.reverse
  consumed_isTerminal : Form.isTerminal (Tree.frontierOfAll forest) = true
  input_eq : Tree.frontierOfAll forest ++ parser.remaining = input
  derivation_eq : Tree.rightmostOfAll forest = parser.derivation table

theorem carries_start (schedule : Schedule) :
    (ShiftReduceParser.start schedule input).Carries g table input [] := by
  constructor
  · exact .base
  · trivial
  · rfl
  · rfl
  · rfl
  · rfl

theorem Carries.withGuard (hparser : parser.Carries g table input forest)
    (guard : Guard) :
    Carries g table input { parser with guard := guard } forest :=
  ⟨hparser.path, hparser.valid, hparser.roots_eq, hparser.consumed_isTerminal,
    hparser.input_eq, hparser.derivation_eq⟩

theorem Carries.finish (hparser : parser.Carries g table input forest)
    (outcome : Outcome) :
    (parser.finish outcome).Carries g table input forest :=
  ⟨hparser.path, hparser.valid, hparser.roots_eq, hparser.consumed_isTerminal,
    hparser.input_eq, hparser.derivation_eq⟩

theorem Carries.moves (hparser : parser.Carries g table input forest)
    (hmoves : parser.Moves g start table next) :
    ∃ later, next.Carries g table input later := by
  have hroots := hparser.roots_eq
  have hterm := hparser.consumed_isTerminal
  have hinput := hparser.input_eq
  have hderivation := hparser.derivation_eq
  cases hmoves with
  | reject mismatch => exact ⟨forest, hparser.finish _⟩
  | accept _ _ => exact ⟨forest, hparser.finish _⟩
  | @shift s rest target hremaining hs hpath =>
      refine ⟨forest ++ [.leaf s], hpath, ?_, ?_, ?_, ?_, ?_⟩
      · exact Tree.allValidFor_append.mpr ⟨hparser.valid, trivial, trivial⟩
      · simp [hroots, Tree.root]
      · rw [Tree.frontierOfAll_append, Grammar.isTerminal_append]
        refine ⟨hterm, ?_⟩
        simp [Tree.frontierOfAll, Tree.frontier, Form.isTerminal, hs]
      · rw [hremaining] at hinput
        simp [Tree.frontierOfAll, Tree.frontier, hinput]
      · rw [Tree.rightmostOfAll_append, hderivation]
        rfl
  | @reduce number p head rest states hp hmem hhead hsymbols hpath =>
      -- The trees on top spell the right side, and become children.
      rw [hsymbols, List.reverse_append, List.reverse_reverse] at hroots
      obtain ⟨below, children, rfl, hbelow, hchildren⟩ :=
        List.map_eq_append_iff.mp hroots
      obtain ⟨hvalidBelow, hvalidChildren⟩ :=
        Tree.allValidFor_append.mp hparser.valid
      have hfrontier : Tree.frontierOfAll (below ++ [.node head p children]) =
          Tree.frontierOfAll (below ++ children) := by
        simp [Tree.frontierOfAll, Tree.frontier]
      refine ⟨below ++ [.node head p children], hpath, ?_, ?_, ?_, ?_, ?_⟩
      · rw [Tree.allValidFor_append]
        exact ⟨hvalidBelow, ⟨hmem, hhead, hchildren, hvalidChildren⟩, trivial⟩
      · simp [hbelow, Tree.root]
      · rw [hfrontier]
        exact hterm
      · rw [hfrontier]
        exact hinput
      · rw [derivation_reduce parser hp, ← hderivation,
          Tree.rightmostOfAll_append, Tree.rightmostOfAll_append]
        simp [Tree.rightmostOfAll, Tree.rightmost]

theorem Carries.step (hg : g.Consistent) (htable : table.Describes g start)
    (hparser : parser.Carries g table input forest) (checkpoint : Checkpoint) :
    ∃ later, (parser.step table checkpoint).Carries g table input later := by
  unfold ShiftReduceParser.step
  split
  next => exact ⟨forest, hparser⟩
  next =>
    simp only
    split
    next =>
      have hcounted := hparser.withGuard (parser.guard.advance checkpoint).2
      exact hcounted.moves (moves_move hg htable hcounted.path)
    next => exact ⟨forest, (hparser.withGuard _).finish _⟩

theorem exists_forest_of_reaches (hg : g.Consistent)
    (htable : table.Describes g start) {schedule : Schedule}
    (hreaches : Reaches (ShiftReduceParser.step table) cancel
      (ShiftReduceParser.start schedule input) parser) :
    ∃ forest, parser.Carries g table input forest := by
  apply hreaches.keeps (motive := fun other =>
    ∃ forest, Carries g table input other forest)
  · exact ⟨[], carries_start schedule⟩
  · intro checkpoint other hother
    rcases hother with ⟨forest, hforest⟩
    exact hforest.step hg htable checkpoint
  · intro other hother
    rcases hother with ⟨forest, hforest⟩
    exact ⟨forest, hforest.withGuard other.guard.cancel⟩

end ShiftReduceParser

end FormalGrammars
