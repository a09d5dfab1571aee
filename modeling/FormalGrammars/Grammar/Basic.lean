import FormalGrammars.Fault
import FormalGrammars.Ordered

/-!
# Grammars

A grammar holds distinct productions in the order in which they were added, an
optional start variable, and for every symbol the number of its occurrences in
the productions.  The counts give the variables and the terminals in the order
of their first occurrence, and they let a removal drop exactly the symbols
that occur no more.

A grammar is plain data; that the counts are right is the predicate
`Grammar.Consistent`, which every operation keeps.
-/

namespace FormalGrammars

inductive Validity where
  /-- Only productions with a head. -/
  | contextFree
  /-- All with a non-empty left side. -/
  | unrestricted
  /-- All with a non-empty left side, except that the first needs a head. -/
  | firstRestricted
  deriving DecidableEq, Repr, Inhabited

/-! ## Counting occurrences -/

abbrev Tally := OrderedMap Symbol Nat

namespace Tally

def add (tally : Tally) (s : Symbol) : Tally :=
  OrderedMap.alter tally s 0 (· + 1)

/-- Counts one occurrence less, and drops the symbol with its last one. -/
def remove (tally : Tally) (s : Symbol) : Tally :=
  match OrderedMap.get? tally s with
  | none => tally
  | some count =>
    if count ≤ 1 then OrderedMap.erase tally s
    else OrderedMap.insert tally s (count - 1)

def addAll (tally : Tally) (form : Form) : Tally :=
  form.foldl add tally

def removeAll (tally : Tally) (form : Form) : Tally :=
  form.foldl remove tally

end Tally

structure Grammar where
  validity : Validity := .contextFree
  start : Option Symbol := none
  productions : List Production := []
  /-- The number of occurrences of each symbol in the productions. -/
  tally : Tally := ⟨[]⟩
  deriving DecidableEq, Repr, Inhabited

namespace Grammar

def empty (validity : Validity) : Grammar := ⟨validity, none, [], ⟨[]⟩⟩

/-! ## Queries -/

/-- The variables of the productions in the order of their first occurrence. -/
def «variables» (g : Grammar) : List Symbol :=
  g.tally.keys.filter Symbol.isVar

def terminals (g : Grammar) : List Symbol :=
  g.tally.keys.filter Symbol.isTerm

def contains (g : Grammar) (p : Production) : Bool :=
  decide (p ∈ g.productions)

def hasVariable (g : Grammar) (s : Symbol) : Bool :=
  decide (s ∈ g.variables)

def hasTerminal (g : Grammar) (s : Symbol) : Bool :=
  decide (s ∈ g.terminals)

def productionsOf (g : Grammar) (head : Symbol) : List Production :=
  g.productions.filter fun p => p.head? = some head

/-- The same start and the same productions, in any order. -/
def sameAs (g h : Grammar) : Bool :=
  g.start = h.start && g.productions.all h.contains && h.productions.all g.contains

def requireStart (g : Grammar) : Except Fault Symbol :=
  match g.start with
  | some start => .ok start
  | none => .error .missingStart

/-- The start of a grammar all of whose productions have a head. -/
def requireContextFree (g : Grammar) : Except Fault Symbol := do
  let start ← g.requireStart
  match g.productions.find? fun p => !p.hasHead with
  | some p => .error (.notContextFree p)
  | none => .ok start

/-! ## Changes -/

/-- The name of the end marker in look-aheads. -/
def endMarker : String := "$"

def isReserved (name : String) : Bool :=
  name.isEmpty || name == endMarker

def faultOf? (g : Grammar) (p : Production) : Option Fault :=
  if p.lhs.isEmpty then some (.emptyLeftSide p)
  else match p.symbols.find? fun s => isReserved s.name with
    | some s => some (.reservedName s.name)
    | none =>
      if p.hasHead then none
      else match g.validity with
        | .contextFree => some (.notContextFree p)
        | .unrestricted => none
        | .firstRestricted => if g.productions.isEmpty then some (.notContextFree p) else none

/-- Puts `p` at the end of the productions, unless it is one of them. -/
def insert (g : Grammar) (p : Production) : Grammar :=
  if g.contains p then g
  else { g with productions := g.productions ++ [p], tally := g.tally.addAll p.symbols }

/-- Adds a production that is allowed, and tells whether it was new. -/
def add (g : Grammar) (p : Production) : Except Fault (Bool × Grammar) :=
  match g.faultOf? p with
  | some fault => .error fault
  | none => .ok (!g.contains p, g.insert p)

def addAll (g : Grammar) (ps : List Production) : Except Fault Grammar :=
  ps.foldlM (fun g p => (g.add p).map Prod.snd) g

/-- Removes a production, and tells whether it was there. -/
def remove (g : Grammar) (p : Production) : Bool × Grammar :=
  if g.contains p then
    (true, { g with productions := g.productions.erase p, tally := g.tally.removeAll p.symbols })
  else (false, g)

def setStart (g : Grammar) (start : Symbol) : Except Fault Grammar :=
  if start.isVar then .ok { g with start := some start }
  else .error (.startNotVariable start)

/-- The same start and validity with other productions, which are not checked. -/
def withProductions (g : Grammar) (ps : List Production) : Grammar :=
  ps.foldl insert ⟨g.validity, g.start, [], ⟨[]⟩⟩

end Grammar

end FormalGrammars
