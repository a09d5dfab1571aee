import FormalGrammars.Derivation.Step

/-!
# Leftmost and rightmost rewriting

A derivation that always rewrites the leftmost variable, or always the
rightmost one, is determined by its productions alone.
-/

namespace FormalGrammars.Form

/-- Rewrites the leftmost variable with a production that has it as its head. -/
def rewriteLeftmost? (form : Form) (p : Production) : Option Form :=
  match form.dropWhile Symbol.isTerm with
  | [] => none
  | s :: after =>
    if p.head? = some s then some (form.takeWhile Symbol.isTerm ++ p.rhs ++ after) else none

/-- Rewrites the rightmost variable with a production that has it as its head. -/
def rewriteRightmost? (form : Form) (p : Production) : Option Form :=
  match form.reverse.dropWhile Symbol.isTerm with
  | [] => none
  | s :: before =>
    if p.head? = some s then
      some (before.reverse ++ p.rhs ++ (form.reverse.takeWhile Symbol.isTerm).reverse)
    else none

/-- Rewrites the leftmost variable with each of the productions in turn. -/
def rewriteAllLeftmost? (form : Form) (ps : List Production) : Option Form :=
  ps.foldlM rewriteLeftmost? form

/-- Rewrites the rightmost variable with each of the productions in turn. -/
def rewriteAllRightmost? (form : Form) (ps : List Production) : Option Form :=
  ps.foldlM rewriteRightmost? form

end FormalGrammars.Form
