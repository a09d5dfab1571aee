import FormalGrammars.Elimination.Nullability
import FormalGrammars.Lookahead.Basic

/-!
# FIRST sets

FIRST of a form holds the terminals with which a string can begin that the form
derives, and the lambda mark if the form derives the empty string.  The sets of
the variables start from the nullable variables and grow in passes over the
productions.
-/

namespace FormalGrammars

abbrev FirstSets := OrderedMap Symbol (List Lookahead)

namespace FirstSets

/-- What is found on top of `found` in FIRST of a form.  The search ends at a
variable without a set. -/
def extend (sets : FirstSets) (found : List Lookahead) : Form → List Lookahead
  | [] => insertNew found .lambda
  | s :: rest =>
    if s.isTerm then insertNew found (.symbol s)
    else match OrderedMap.get? sets s with
      | none => found
      | some set =>
        let found := extendNew found (set.filter (· ≠ .lambda))
        if .lambda ∈ set then sets.extend found rest else found

def ofForm (sets : FirstSets) (form : Form) : List Lookahead :=
  sets.extend [] form

/-- Adds what a right side begins with to the set of its head. -/
def absorb (sets : FirstSets) (p : Production) : FirstSets :=
  match p.head? with
  | none => sets
  | some head =>
    OrderedMap.alter sets head [] (extendNew · ((sets.ofForm p.rhs).filter (· ≠ .lambda)))

/-- The sets before the first pass: which variables are nullable. -/
def seed (g : Grammar) : FirstSets :=
  g.nullability.variables.foldl
    (fun sets s => OrderedMap.alter sets s [] (insertNew · .lambda))
    ⟨g.variables.map fun s => (s, [])⟩

end FirstSets

/-- FIRST of the variables of a grammar.  Each pass but the last adds a
terminal to the set of a variable. -/
def Grammar.firstSets (g : Grammar) : FirstSets :=
  iterateUntilStable (fun sets => g.productions.foldl FirstSets.absorb sets)
    (g.variables.length * g.terminals.length) (FirstSets.seed g)

end FormalGrammars
