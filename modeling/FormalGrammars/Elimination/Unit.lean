import FormalGrammars.Derivation.Tree
import FormalGrammars.VariableGraph

/-!
# Elimination of unit productions

A variable borrows the non-unit productions of every variable to which a chain
of unit productions leads.  A borrowed production remembers the chain and the
production that was borrowed, so a derivation over the result can be carried
back by putting the chains in again.
-/

namespace FormalGrammars

/-- A chain of unit productions and the production at its end. -/
structure Borrowing where
  chain : List Production
  base : Production
  deriving DecidableEq, Repr

def unitChain : List Symbol → List Production
  | source :: target :: rest => .rule source [target] :: unitChain (target :: rest)
  | _ => []

def Grammar.borrowedBy (g : Grammar) (units : VariableGraph) (s : Symbol) :
    List (Production × Borrowing) :=
  (units.dependencies s).flatMap fun dependency =>
    if dependency = s then []
    else match units.path? s dependency with
      | none => []
      | some path =>
        ((g.productionsOf dependency).filter fun base => !base.isUnit).map
          fun base => (base.withHead s, ⟨unitChain path, base⟩)

structure UnitElimination where
  units : VariableGraph
  grammar : Grammar
  /-- How the borrowed productions came about; the others have no entry. -/
  origins : OrderedMap Production Borrowing
  deriving Repr

namespace UnitElimination

mutual

def restore (e : UnitElimination) : Tree → Tree
  | .leaf s => .leaf s
  | .node s p children =>
    match e.origins.get? p with
    | none => .node s p (e.restoreAll children)
    | some origin =>
      origin.chain.foldr (fun link tree => .node (link.head?.getD s) link [tree])
        (.node (origin.base.head?.getD s) origin.base (e.restoreAll children))

def restoreAll (e : UnitElimination) : List Tree → List Tree
  | [] => []
  | tree :: trees => e.restore tree :: e.restoreAll trees

end

end UnitElimination

/-- Eliminates the unit productions of a context-free grammar.  The productions
that are kept come first. -/
def Grammar.eliminateUnits (g : Grammar) : Except Fault UnitElimination := do
  let _ ← g.requireContextFree
  let units := VariableGraph.ofUnits g
  let kept := g.productions.filter fun p => !p.isUnit
  let origins := ((units.nodes.flatMap (g.borrowedBy units)).filter
    fun entry => entry.1 ∉ kept).foldl
      (fun origins (p, borrowing) => origins.insertIfNew p borrowing)
      (⟨[]⟩ : OrderedMap Production Borrowing)
  return ⟨units, g.withProductions (kept ++ origins.keys), origins⟩

end FormalGrammars
