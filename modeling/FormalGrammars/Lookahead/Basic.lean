import FormalGrammars.Symbol.Basic

/-!
# Look-aheads

The elements of FIRST and FOLLOW sets: the next symbol of the input, the end
of the input, and in FIRST sets the mark of a form that derives the empty
string.
-/

namespace FormalGrammars

inductive Lookahead where
  | endOfInput
  | lambda
  | symbol (s : Symbol)
  deriving DecidableEq, Repr, Inhabited

namespace Lookahead

/-- The look-ahead for the symbols that are left of an input. -/
def ofRest : Form → Lookahead
  | [] => endOfInput
  | s :: _ => symbol s

theorem ofRest_eq_endOfInput_iff {rest : Form} : ofRest rest = endOfInput ↔ rest = [] := by
  cases rest <;> simp [ofRest]

theorem ofRest_eq_symbol_iff {rest : Form} {s : Symbol} :
    ofRest rest = symbol s ↔ ∃ tail, rest = s :: tail := by
  cases rest <;> simp [ofRest]

def symbol? : Lookahead → Option Symbol
  | symbol s => some s
  | _ => none

def text : Lookahead → String
  | endOfInput => "$"
  | lambda => "λ"
  | symbol s => s.name

end Lookahead

end FormalGrammars
