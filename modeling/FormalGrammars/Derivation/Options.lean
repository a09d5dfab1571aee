import FormalGrammars.Derivation.Step

/-!
# The steps that a form admits

All the steps that apply to a form, by position and then in the order of the
productions; and those among them that a leftmost derivation may take.
-/

namespace FormalGrammars.Grammar

def options (g : Grammar) (form : Form) : List Step :=
  (List.range form.length).flatMap fun position =>
    (g.productions.filter fun p => p.lhs.isPrefixOf (form.drop position)).map
      fun p => ⟨p, position⟩

/-- The steps that expand the leftmost variable of a form. -/
def leftmostOptions (g : Grammar) (form : Form) : List Step :=
  match form.findIdx? Symbol.isVar with
  | none => []
  | some position =>
    (g.productions.filter fun p => p.head? = form[position]?).map fun p => ⟨p, position⟩

end FormalGrammars.Grammar
