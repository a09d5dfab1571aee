import FormalGrammars.Lookahead.Follow
import FormalGrammars.ShiftReduce.Automaton

/-!
# SLR(1) tables

A state shifts a terminal that stands behind the dot of one of its items, and
reduces a production whose item is complete when the next symbol can follow the
head.  When the augmented production is complete it accepts at the end of the
input.  A cell with two or more actions is a conflict; a parser then takes the
first of them, and accepting comes before shifting and shifting before reducing.
-/

namespace FormalGrammars

inductive Action where
  | accept
  /-- Shifts the next symbol and goes to a state. -/
  | shift (state : Nat)
  | reduce (production : Nat)
  deriving DecidableEq, Repr, Inhabited

namespace Action

def isShift : Action → Bool
  | shift _ => true
  | _ => false

def le : Action → Action → Bool
  | accept, _ => true
  | shift _, accept => false
  | shift m, shift n => m ≤ n
  | shift _, reduce _ => true
  | reduce m, reduce n => m ≤ n
  | reduce _, _ => false

def text : Action → String
  | accept => "acc"
  | shift state => "s" ++ toString state
  | reduce production => "r" ++ toString production

end Action

inductive ConflictKind where
  | shiftReduce
  | reduceReduce
  /-- Accepting competes with a reduction at the end of the input. -/
  | acceptReduce
  deriving DecidableEq, Repr

abbrev ActionRow := OrderedMap Lookahead (List Action)

structure SlrTable where
  /-- The numbered productions; number 0 is the augmented one. -/
  productions : List Production
  states : Automaton
  rows : List ActionRow
  sets : LookaheadSets
  deriving Repr

namespace SlrTable

/-- The start with as many primes as it takes to make a name that no symbol of
the grammar has. -/
def augmentedStart (g : Grammar) (start : Symbol) : Symbol :=
  let names := (List.range (g.tally.size + 1)).map fun count =>
    start.name ++ String.ofList (List.replicate (count + 1) '\'')
  .var ((names.find? fun name => !g.hasVariable (.var name) && !g.hasTerminal (.term name)).getD
    (start.name ++ "'"))

/-- The productions of a grammar behind the augmented one. -/
def augmentedProductions (g : Grammar) (start : Symbol) : List Production :=
  .rule (augmentedStart g start) [start] :: g.productions

/-- The look-aheads for which an item has an action, with that action. -/
def itemActions (ps : List Production) (sets : LookaheadSets) (state : AutomatonState)
    (item : Item) : List (Lookahead × Action) :=
  match item.next? ps with
  | some s =>
    if s.isTerm then
      ((state.transitions.get? s).map fun target => (.symbol s, .shift target)).toList
    else []
  | none =>
    if item.production = 0 then [(.endOfInput, .accept)]
    else match item.head? ps with
      | none => []
      | some head => (sets.followOfVariable head).map fun x => (x, .reduce item.production)

def actionRow (ps : List Production) (sets : LookaheadSets) (state : AutomatonState) : ActionRow :=
  let row := (state.items.flatMap (itemActions ps sets state)).foldl
    (fun row (x, action) => row.alter x [] (insertNew · action)) (⟨[]⟩ : ActionRow)
  ⟨row.entries.map fun (x, actions) => (x, actions.mergeSort Action.le)⟩

def ofGrammar (g : Grammar) : Except Fault SlrTable := do
  let start ← g.requireContextFree
  let sets ← LookaheadSets.ofGrammar g
  let ps := augmentedProductions g start
  let states := Automaton.ofProductions ps
  return ⟨ps, states, states.map (actionRow ps sets), sets⟩

def actions (table : SlrTable) (state : Nat) (x : Lookahead) : List Action :=
  (table.rows[state]?.map (·.getD x [])).getD []

def action? (table : SlrTable) (state : Nat) (x : Lookahead) : Option Action :=
  (table.actions state x).head?

def goto? (table : SlrTable) (state : Nat) (s : Symbol) : Option Nat :=
  table.states[state]?.bind (·.transitions.get? s)

/-- The inputs for which a state has an action. -/
def expected (table : SlrTable) (state : Nat) : List (Option Symbol) :=
  ((table.rows[state]?.map OrderedMap.keys).getD []).map Lookahead.symbol?

/-! ## Conflicts -/

structure Conflict where
  state : Nat
  lookahead : Lookahead
  actions : List Action
  kind : ConflictKind
  deriving DecidableEq, Repr

def conflictKind (actions : List Action) : ConflictKind :=
  if actions.any Action.isShift then .shiftReduce
  else if actions.contains .accept then .acceptReduce
  else .reduceReduce

def conflicts (table : SlrTable) : List Conflict :=
  table.rows.zipIdx.flatMap fun (row, state) =>
    (row.entries.filter fun entry => 1 < entry.2.length).map
      fun (x, actions) => ⟨state, x, actions, conflictKind actions⟩

def isConflictFree (table : SlrTable) : Bool :=
  table.conflicts.isEmpty

end SlrTable

end FormalGrammars
