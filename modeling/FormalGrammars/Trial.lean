import FormalGrammars.Chart
import FormalGrammars.Grammar.Lexing
import FormalGrammars.Predictive.Parser
import FormalGrammars.Search.BreadthFirst
import FormalGrammars.ShiftReduce.Parser

/-!
# Trials of grammars

A trial runs one parsing method on one input and compares the verdict with an
expected answer.  Nobody is asked during a trial: a run that comes to its first
checkpoint is stopped, and its verdict is unknown.
-/

namespace FormalGrammars

inductive Method where
  | chart (normalization : Normalization)
  | predictive (table : PredictiveTable)
  | shiftReduce (table : SlrTable)
  | search (grammar : Grammar)
  deriving Repr

inductive Verdict where
  | accept
  | reject
  /-- The run was stopped at a checkpoint. -/
  | unknown
  | emptyLanguage
  deriving DecidableEq, Repr

def Verdict.ofOutcome? : Option Outcome → Verdict
  | some .accept => accept
  | some (.reject _) => reject
  | _ => unknown

def Verdict.ofStatus : SearchStatus → Verdict
  | .accepted _ => accept
  | .rejected => reject
  | _ => unknown

/-- More steps than a run takes that is stopped at its first checkpoint. -/
def Schedule.patience (schedule : Schedule) : Nat :=
  max schedule.first 1 + 1

/-- The verdict of a method on an input, with the productions of a derivation
when it accepts. -/
def Method.judge (method : Method) (schedule : Schedule) (input : Form) :
    Except Fault (Verdict × Option (List Production)) :=
  match method with
  | .chart normalization =>
    (normalization.recognize input).map fun
      | .accepted tree => (.accept, some tree.productions)
      | .rejected => (.reject, none)
      | .emptyLanguage => (.emptyLanguage, none)
  | .predictive table =>
    let parser := PredictiveParser.run table .never schedule.patience
      (.start table schedule input)
    let verdict := Verdict.ofOutcome? parser.outcome
    .ok (verdict, if verdict = .accept then some parser.applied else none)
  | .shiftReduce table =>
    let parser := ShiftReduceParser.run table .never schedule.patience
      (.start schedule input)
    let verdict := Verdict.ofOutcome? parser.outcome
    .ok (verdict, if verdict = .accept then some (parser.derivation table) else none)
  | .search grammar =>
    (Search.start grammar input schedule).map fun search =>
      let search := Search.run .never schedule.patience search
      (.ofStatus search.status, search.derivation?.map (·.map Step.production))

structure Trial where
  input : String
  symbols : Form
  expected : Bool
  verdict : Verdict
  derivation : Option (List Production)
  deriving DecidableEq, Repr

namespace Trial

/-- The verdict is the expected one.  An unknown verdict never is. -/
def isAsExpected (trial : Trial) : Bool :=
  match trial.verdict with
  | .accept => trial.expected
  | .reject => !trial.expected
  | .emptyLanguage => !trial.expected
  | .unknown => false

/-- Tries a method on an input that is cut into the terminals of a grammar. -/
def run (g : Grammar) (method : Method) (schedule : Schedule) (input : String)
    (expected : Bool) : Except Fault Trial :=
  (method.judge schedule (g.lex input)).map fun (verdict, derivation) =>
    ⟨input, g.lex input, expected, verdict, derivation⟩

def runAll (g : Grammar) (method : Method) (schedule : Schedule)
    (cases : List (String × Bool)) : Except Fault (List Trial) :=
  cases.mapM fun (input, expected) => run g method schedule input expected

end Trial

end FormalGrammars
