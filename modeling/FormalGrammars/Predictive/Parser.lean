import FormalGrammars.Iteration
import FormalGrammars.Outcome
import FormalGrammars.Pacing
import FormalGrammars.Predictive.Table

/-!
# Predictive parsing

The stack holds what the rest of the input has to be derived from.  A terminal
on top is matched with the input; a variable on top is expanded as the table
says for the next symbol.  The consumed input and the stack together are a form
of a leftmost derivation.
-/

namespace FormalGrammars

structure PredictiveParser where
  consumed : Form := []
  remaining : Form
  /-- The top comes first. -/
  stack : Form
  applied : List Production := []
  guard : Guard
  outcome : Option Outcome := none
  deriving DecidableEq, Repr

namespace PredictiveParser

def start (table : PredictiveTable) (schedule : Schedule) (input : Form) : PredictiveParser where
  remaining := input
  stack := [table.start]
  guard := .ofSchedule schedule

def hasEnded (parser : PredictiveParser) : Bool :=
  parser.outcome.isSome

def finish (parser : PredictiveParser) (outcome : Outcome) : PredictiveParser :=
  { parser with outcome := some outcome }

def reject (parser : PredictiveParser) (expected : List (Option Symbol)) : PredictiveParser :=
  parser.finish (.reject ⟨parser.remaining.head?, expected⟩)

def move (table : PredictiveTable) (parser : PredictiveParser) : PredictiveParser :=
  match parser.stack with
  | [] => if parser.remaining.isEmpty then parser.finish .accept else parser.reject [none]
  | top :: below =>
    if top.isTerm then
      if parser.remaining.head? = some top then
        { parser with
          consumed := parser.consumed ++ [top]
          remaining := parser.remaining.tail
          stack := below }
      else parser.reject [some top]
    else match table.entry? top (.ofRest parser.remaining) with
      | none => parser.reject (table.expected top)
      | some p => { parser with stack := p.rhs ++ below, applied := parser.applied ++ [p] }

/-- One guarded move.  A run that has ended stays as it is. -/
def step (table : PredictiveTable) (checkpoint : Checkpoint) (parser : PredictiveParser) :
    PredictiveParser :=
  if parser.hasEnded then parser
  else
    let (leave, guard) := parser.guard.advance checkpoint
    let parser := { parser with guard := guard }
    if leave then parser.move table else parser.finish .abandoned

theorem step_of_hasEnded {table : PredictiveTable} {checkpoint : Checkpoint}
    {parser : PredictiveParser} (hend : parser.hasEnded = true) :
    parser.step table checkpoint = parser := by
  simp [step, hend]

/-- The run after so many steps, or at its end when that comes before. -/
def run (table : PredictiveTable) (checkpoint : Checkpoint) (count : Nat)
    (parser : PredictiveParser) : PredictiveParser :=
  runFor hasEnded (step table checkpoint) count parser

theorem run_eq_stepTimes (table : PredictiveTable) (checkpoint : Checkpoint) (count : Nat)
    (parser : PredictiveParser) :
    parser.run table checkpoint count = stepTimes (step table checkpoint) count parser :=
  runFor_eq_stepTimes (fun _ => step_of_hasEnded) count parser

def cancel (parser : PredictiveParser) : PredictiveParser :=
  { parser with guard := parser.guard.cancel }

/-- The form of the leftmost derivation that the run has come to. -/
def sentential (parser : PredictiveParser) : Form :=
  parser.consumed ++ parser.stack

end PredictiveParser

end FormalGrammars
