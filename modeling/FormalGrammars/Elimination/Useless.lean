import FormalGrammars.Iteration
import FormalGrammars.VariableGraph

/-!
# Elimination of useless variables

A variable is useful when it derives some terminal string and occurs in a form
that the start derives.  The productions with unproductive variables are cut
first, then those with unreachable ones.  Each cut can make work for the other,
so they alternate until neither removes a production.
-/

namespace FormalGrammars

/-- Takes up the head of a production whose right side has only terminals and
productive variables. -/
def absorbProductive (productive : List Symbol) (p : Production) : List Symbol :=
  match p.head? with
  | none => productive
  | some head =>
    if p.rhs.all fun s => s.isTerm || productive.contains s then insertNew productive head
    else productive

/-- The variables that derive some terminal string, the empty one included. -/
def Grammar.productive (g : Grammar) : List Symbol :=
  iterateUntilStable (g.productions.foldl absorbProductive) g.productions.length []

/-- The variables in the forms that the start derives, the start first. -/
def Grammar.reachable (g : Grammar) : List Symbol :=
  match g.start with
  | none => []
  | some start => start :: ((VariableGraph.ofOccurrences g).dependencies start).erase start

/-- What is left of a grammar, and the variables that were cut. -/
structure Pruning where
  grammar : Grammar
  unproductive : List Symbol
  unreachable : List Symbol
  deriving DecidableEq, Repr

namespace Pruning

/-- The grammar without the productions that use one of the symbols. -/
def without (g : Grammar) (symbols : List Symbol) : Grammar :=
  if symbols.isEmpty then g
  else g.withProductions (g.productions.filter fun p => !p.symbols.any (symbols.contains ·))

def pass (pruning : Pruning) : Pruning :=
  let productive := pruning.grammar.productive
  let dead := pruning.grammar.variables.filter fun s => !productive.contains s
  let grammar := without pruning.grammar dead
  let reachable := grammar.reachable
  let lost := grammar.variables.filter fun s => !reachable.contains s
  ⟨without grammar lost, extendNew pruning.unproductive dead, extendNew pruning.unreachable lost⟩

end Pruning

structure UselessElimination where
  grammar : Grammar
  unproductive : List Symbol
  unreachable : List Symbol
  /-- No terminal is left: the language has no string but perhaps the empty one. -/
  emptyLanguage : Bool
  deriving Repr

/-- Eliminates the useless variables of a context-free grammar.  Each pass but
the last removes a production. -/
def Grammar.eliminateUseless (g : Grammar) : Except Fault UselessElimination := do
  let _ ← g.requireContextFree
  let pruning := iterateUntilStable Pruning.pass g.productions.length ⟨g, [], []⟩
  return ⟨pruning.grammar, pruning.unproductive, pruning.unreachable,
    pruning.grammar.terminals.isEmpty⟩

end FormalGrammars
