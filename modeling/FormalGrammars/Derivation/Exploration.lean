import FormalGrammars.Derivation.History
import FormalGrammars.Derivation.Options

/-!
# Exploring derivations by hand

An exploration derives forms from the start of a grammar one step at a time,
as its user chooses.  Every form stays in the history, and going back only
moves the cursor.
-/

namespace FormalGrammars

structure Exploration where
  grammar : Grammar
  history : History
  cursor : Nat
  deriving Repr

namespace Exploration

def start (g : Grammar) : Except Fault Exploration := do
  let start ← g.requireStart
  return ⟨g, .ofRoot [start], 0⟩

def form (e : Exploration) : Form :=
  e.history.form e.cursor

def options (e : Exploration) : List Step :=
  e.grammar.options e.form

/-- Takes a step, and moves to the form that it makes. -/
def apply (e : Exploration) (step : Step) : Except Fault Exploration := do
  let next ← e.grammar.apply e.form step
  return { e with history := e.history.addChild e.cursor next step, cursor := e.history.size }

/-- Moves to the form before the current one, unless it is the root. -/
def back? (e : Exploration) : Option Exploration :=
  (e.history.parent? e.cursor).map fun parent => { e with cursor := parent }

def isComplete (e : Exploration) : Bool :=
  Form.isTerminal e.form

def steps (e : Exploration) : List Step :=
  e.history.stepsTo e.cursor

end Exploration

end FormalGrammars
