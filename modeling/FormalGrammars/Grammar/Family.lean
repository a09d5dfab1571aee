import FormalGrammars.Grammar.Basic

/-!
# Families of grammars

The most specific of four families to which a grammar belongs, read off the
shapes of its productions.
-/

namespace FormalGrammars

inductive Family where
  /-- All productions are right linear or all are left linear. -/
  | regular
  | chomsky
  | contextFree
  | unrestricted
  deriving DecidableEq, Repr

namespace Grammar

def isRightLinear (g : Grammar) : Bool :=
  g.productions.all Production.isRightLinear

def isLeftLinear (g : Grammar) : Bool :=
  g.productions.all Production.isLeftLinear

def isChomsky (g : Grammar) : Bool :=
  g.productions.all Production.isChomsky

def isContextFree (g : Grammar) : Bool :=
  g.productions.all Production.hasHead

def family (g : Grammar) : Family :=
  if !g.isContextFree then .unrestricted
  else if g.isRightLinear || g.isLeftLinear then .regular
  else if g.isChomsky then .chomsky
  else .contextFree

end Grammar

end FormalGrammars
