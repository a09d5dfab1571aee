import FormalGrammars.Lookahead.Follow

/-!
# LL(1) tables

A cell of the table belongs to a variable and a look-ahead, and holds every
production of the variable that the look-ahead calls for: those whose right
side can begin with it, and those with a nullable right side if it can follow
the variable.  A cell with two or more productions is a conflict; a parser
then takes the first of them.
-/

namespace FormalGrammars

structure PredictiveTable where
  start : Symbol
  productions : List Production
  cells : OrderedMap Symbol (OrderedMap Lookahead (List Production))
  sets : LookaheadSets
  deriving Repr

namespace PredictiveTable

structure Conflict where
  head : Symbol
  lookahead : Lookahead
  candidates : List Production
  deriving DecidableEq, Repr

def Conflict.text (c : Conflict) : String :=
  "[" ++ c.head.name ++ ", " ++ c.lookahead.text ++ "]:" ++
    String.join (c.candidates.map fun p => " " ++ p.text ++ ";")

/-- The look-aheads that call for a production with this head. -/
def selectors (sets : LookaheadSets) (head : Symbol) (p : Production) : List Lookahead :=
  let first := sets.firstOf p.rhs
  first.filter (· ≠ .lambda) ++
    if .lambda ∈ first then sets.followOfVariable head else []

/-- Enters a production into the row of its head. -/
def enter (sets : LookaheadSets)
    (cells : OrderedMap Symbol (OrderedMap Lookahead (List Production))) (p : Production) :
    OrderedMap Symbol (OrderedMap Lookahead (List Production)) :=
  match p.head? with
  | none => cells
  | some head =>
    cells.alter head ⟨[]⟩ fun row =>
      (selectors sets head p).foldl (fun row x => row.alter x [] (insertNew · p)) row

def ofGrammar (g : Grammar) : Except Fault PredictiveTable := do
  let start ← g.requireContextFree
  let sets ← LookaheadSets.ofGrammar g
  return ⟨start, g.productions, g.productions.foldl (enter sets) ⟨[]⟩, sets⟩

def row (table : PredictiveTable) (head : Symbol) : OrderedMap Lookahead (List Production) :=
  table.cells.getD head ⟨[]⟩

def candidates (table : PredictiveTable) (head : Symbol) (x : Lookahead) : List Production :=
  (table.row head).getD x []

def entry? (table : PredictiveTable) (head : Symbol) (x : Lookahead) : Option Production :=
  (table.candidates head x).head?

/-- The inputs for which a variable has an entry. -/
def expected (table : PredictiveTable) (head : Symbol) : List (Option Symbol) :=
  (table.row head).keys.map Lookahead.symbol?

def conflicts (table : PredictiveTable) : List Conflict :=
  table.cells.entries.flatMap fun (head, row) =>
    (row.entries.filter fun entry => 1 < entry.2.length).map
      fun (x, candidates) => ⟨head, x, candidates⟩

def isConflictFree (table : PredictiveTable) : Bool :=
  table.conflicts.isEmpty

end PredictiveTable

end FormalGrammars
