import FormalGrammars.Elimination.Lambda
import FormalGrammars.Elimination.Unit
import FormalGrammars.Elimination.Useless
import FormalGrammars.NormalForm.Chomsky

/-!
# Normalization

The three eliminations and the conversion to Chomsky normal form, one after
the other.  Every stage is kept, so each grammar can be looked at and a
derivation in normal form can be carried back to the first grammar.
-/

namespace FormalGrammars

structure Normalization where
  lambda : LambdaElimination
  unit : UnitElimination
  useless : UselessElimination
  chomsky : ChomskyForm
  deriving Repr

namespace Normalization

def grammar (n : Normalization) : Grammar :=
  n.chomsky.grammar

/-- Carries a derivation tree in normal form back to the first grammar.  The
elimination of useless variables changes no production. -/
def restore (n : Normalization) (tree : Tree) : Tree :=
  n.lambda.restore (n.unit.restore (n.chomsky.restore tree))

end Normalization

def Grammar.normalize (g : Grammar) (naming : Naming) : Except Fault Normalization := do
  let lambda ← g.eliminateLambda
  let unit ← lambda.grammar.eliminateUnits
  let useless ← unit.grammar.eliminateUseless
  let chomsky ← useless.grammar.toChomskyForm naming
  return ⟨lambda, unit, useless, chomsky⟩

end FormalGrammars
