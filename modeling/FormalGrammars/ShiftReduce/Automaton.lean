import FormalGrammars.Iteration
import FormalGrammars.Ordered
import FormalGrammars.Production

/-!
# The automaton of LR(0) items

An item is a production with a dot in its right side.  The productions are
numbered, and number 0 is the augmented production from a new start to the
start of the grammar.

A state of the automaton is the closure of a set of items, its kernel: with a
variable behind a dot, all productions of the variable come in with the dot in
front.  On a symbol it goes to the state whose kernel holds its items with the
dot moved over that symbol.  Sets of items are kept as sublists of the list of
all items, so equal sets are equal lists.
-/

namespace FormalGrammars

structure Item where
  /-- The number of the production. -/
  production : Nat
  dot : Nat
  deriving DecidableEq, Repr, Inhabited

namespace Item

def next? (ps : List Production) (item : Item) : Option Symbol :=
  ps[item.production]?.bind (·.rhs[item.dot]?)

def head? (ps : List Production) (item : Item) : Option Symbol :=
  ps[item.production]?.bind Production.head?

def advance (item : Item) : Item :=
  ⟨item.production, item.dot + 1⟩

end Item

def allItems (ps : List Production) : List Item :=
  ps.zipIdx.flatMap fun (p, number) =>
    (List.range (p.rhs.length + 1)).map fun dot => ⟨number, dot⟩

def nextSymbols (ps : List Production) (items : List Item) : List Symbol :=
  extendNew [] (items.filterMap (Item.next? ps))

/-- Adds the items with the dot in front for the variables behind dots. -/
def closurePass (ps : List Production) (items : List Item) : List Item :=
  let wanted := nextSymbols ps items
  (allItems ps).filter fun item =>
    items.contains item || (item.dot == 0 && (item.head? ps).any wanted.contains)

/-- The closure of a set of items.  Each pass but the last brings in the first
item of a production. -/
def closure (ps : List Production) (kernel : List Item) : List Item :=
  iterateUntilStable (closurePass ps) (ps.length + 1) kernel

def gotoKernel (ps : List Production) (items : List Item) (s : Symbol) : List Item :=
  (items.filter fun item => item.next? ps = some s).map Item.advance

structure AutomatonState where
  kernel : List Item
  items : List Item
  transitions : OrderedMap Symbol Nat := ⟨[]⟩
  deriving DecidableEq, Repr, Inhabited

namespace AutomatonState

def ofKernel (ps : List Production) (kernel : List Item) : AutomatonState :=
  { kernel := kernel, items := closure ps kernel }

end AutomatonState

/-- The states of an automaton, numbered from 0, where it starts. -/
abbrev Automaton := List AutomatonState

namespace Automaton

/-- The number of the state with a kernel, and the states with that one. -/
def locate (ps : List Production) (states : Automaton) (kernel : List Item) : Nat × Automaton :=
  match List.findIdx? (fun state : AutomatonState => state.kernel = kernel) states with
  | some number => (number, states)
  | none => (states.length, states ++ [.ofKernel ps kernel])

/-- Enters the transition of the state with this number on a symbol. -/
def connect (ps : List Production) (number : Nat) (items : List Item) (states : Automaton)
    (s : Symbol) : Automaton :=
  let (target, states) := locate ps states (gotoKernel ps items s)
  List.modify states number fun state =>
    { state with transitions := state.transitions.insert s target }

/-- Enters the transitions of the states from `number` on, which may bring in
new states at the end. -/
def explore (ps : List Production) : Nat → Nat → Automaton → Automaton
  | 0, _, states => states
  | fuel + 1, number, states =>
    match states[number]? with
    | none => states
    | some state =>
      explore ps fuel (number + 1)
        ((nextSymbols ps state.items).foldl (connect ps number state.items) states)

/-- The automaton for numbered productions.  Different states have different
kernels, so there are no more states than sets of items. -/
def ofProductions (ps : List Production) : Automaton :=
  explore ps (Nat.pow 2 (allItems ps).length) 0 [.ofKernel ps [⟨0, 0⟩]]

def run (states : Automaton) : Nat → Form → Option Nat
  | number, [] => some number
  | number, s :: rest =>
    match (states[number]?).bind (·.transitions.get? s) with
    | none => none
    | some target => run states target rest

end Automaton

end FormalGrammars
