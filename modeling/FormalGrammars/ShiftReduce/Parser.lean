import FormalGrammars.Iteration
import FormalGrammars.Outcome
import FormalGrammars.Pacing
import FormalGrammars.ShiftReduce.Table

/-!
# Shift-reduce parsing

The parser keeps two stacks: the symbols that the consumed input was reduced
to, and the states of the automaton along them.  The symbols and the rest of
the input together are a form of a rightmost derivation, which the reductions
run through backwards.
-/

namespace FormalGrammars

structure ShiftReduceParser where
  remaining : Form
  /-- The top comes first; the first state lies below all symbols. -/
  states : List Nat := [0]
  /-- The top comes first. -/
  symbols : Form := []
  /-- The numbers of the reduced productions, the latest first. -/
  reduced : List Nat := []
  guard : Guard
  outcome : Option Outcome := none
  deriving DecidableEq, Repr

namespace ShiftReduceParser

def start (schedule : Schedule) (input : Form) : ShiftReduceParser where
  remaining := input
  guard := .ofSchedule schedule

def hasEnded (parser : ShiftReduceParser) : Bool :=
  parser.outcome.isSome

def finish (parser : ShiftReduceParser) (outcome : Outcome) : ShiftReduceParser :=
  { parser with outcome := some outcome }

def reject (table : SlrTable) (parser : ShiftReduceParser) (state : Nat) : ShiftReduceParser :=
  parser.finish (.reject ⟨parser.remaining.head?, table.expected state⟩)

def top (parser : ShiftReduceParser) : Nat :=
  parser.states.head?.getD 0

/-- Takes the right side of a production from the stacks and puts the head on. -/
def reduce (table : SlrTable) (parser : ShiftReduceParser) (number : Nat) : ShiftReduceParser :=
  let p := (table.productions[number]?).getD ⟨[], []⟩
  if parser.states.length ≤ p.rhs.length then parser.reject table parser.top
  else
    let state := parser.top
    let parser := { parser with
      states := parser.states.drop p.rhs.length
      symbols := parser.symbols.drop p.rhs.length }
    match p.head? with
    | none => parser.reject table state
    | some head =>
      match table.goto? parser.top head with
      | none => parser.reject table parser.top
      | some target =>
        { parser with
          states := target :: parser.states
          symbols := head :: parser.symbols
          reduced := number :: parser.reduced }

def move (table : SlrTable) (parser : ShiftReduceParser) : ShiftReduceParser :=
  match table.action? parser.top (.ofRest parser.remaining) with
  | none => parser.reject table parser.top
  | some .accept => parser.finish .accept
  | some (.shift target) =>
    { parser with
      remaining := parser.remaining.drop 1
      states := target :: parser.states
      symbols := parser.remaining.take 1 ++ parser.symbols }
  | some (.reduce number) => parser.reduce table number

/-- One guarded move.  A run that has ended stays as it is. -/
def step (table : SlrTable) (checkpoint : Checkpoint) (parser : ShiftReduceParser) :
    ShiftReduceParser :=
  if parser.hasEnded then parser
  else
    let (leave, guard) := parser.guard.advance checkpoint
    let parser := { parser with guard := guard }
    if leave then parser.move table else parser.finish .abandoned

theorem step_of_hasEnded {table : SlrTable} {checkpoint : Checkpoint}
    {parser : ShiftReduceParser} (hend : parser.hasEnded = true) :
    parser.step table checkpoint = parser := by
  simp [step, hend]

/-- The run after so many steps, or at its end when that comes before. -/
def run (table : SlrTable) (checkpoint : Checkpoint) (count : Nat) (parser : ShiftReduceParser) :
    ShiftReduceParser :=
  runFor hasEnded (step table checkpoint) count parser

theorem run_eq_stepTimes (table : SlrTable) (checkpoint : Checkpoint) (count : Nat)
    (parser : ShiftReduceParser) :
    parser.run table checkpoint count = stepTimes (step table checkpoint) count parser :=
  runFor_eq_stepTimes (fun _ => step_of_hasEnded) count parser

def cancel (parser : ShiftReduceParser) : ShiftReduceParser :=
  { parser with guard := parser.guard.cancel }

def productionsOf (table : SlrTable) (numbers : List Nat) : List Production :=
  numbers.filterMap (table.productions[·]?)

def reductions (table : SlrTable) (parser : ShiftReduceParser) : List Production :=
  productionsOf table parser.reduced.reverse

/-- The reductions backwards: a rightmost derivation. -/
def derivation (table : SlrTable) (parser : ShiftReduceParser) : List Production :=
  productionsOf table parser.reduced

/-- The form of the rightmost derivation that the run has come to. -/
def sentential (parser : ShiftReduceParser) : Form :=
  parser.symbols.reverse ++ parser.remaining

end ShiftReduceParser

end FormalGrammars
