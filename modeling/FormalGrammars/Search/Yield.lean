import FormalGrammars.Grammar.Basic

/-!
# Shortest yields

The length of the shortest terminal string that a variable derives.  The
lengths are lowered in passes over the productions, until a pass lowers none.

Lengths are counted without bound or by numbers up to a greatest one.  A sum
that overflows starts again from zero, so a length that is counted by such
numbers may come out too small.

Without a bound, a shortest string has a derivation tree in which no variable
stands below itself, so there are never more passes that lower a length than
variables.  With a greatest number, no entry is lowered more often than there
are numbers below it.
-/

namespace FormalGrammars

/-- How lengths are counted. -/
inductive Counting where
  | unbounded
  | upTo (greatest : Nat)
  deriving DecidableEq, Repr

namespace Counting

def add : Counting → Nat → Nat → Nat
  | unbounded, m, n => m + n
  | upTo greatest, m, n => (m + n) % (greatest + 1)

/-- The length is less than the known one.  As long as none is known, the
greatest number stands for it. -/
def isLess : Counting → Nat → Option Nat → Bool
  | _, length, some known => length < known
  | unbounded, _, none => true
  | upTo greatest, length, none => length < greatest

/-- So many passes are enough for so many variables: the last of them lowers no
length. -/
def rounds : Counting → Nat → Nat
  | unbounded, count => count + 1
  | upTo greatest, count => count * greatest + 1

@[simp] theorem add_unbounded (m n : Nat) : unbounded.add m n = m + n := rfl

theorem add_upTo {greatest m n : Nat} (hle : m + n ≤ greatest) :
    (upTo greatest).add m n = m + n :=
  Nat.mod_eq_of_lt (Nat.lt_succ_of_le hle)

end Counting

/-- Lengths of derived strings; a variable without one has no entry. -/
abbrev Yields := OrderedMap Symbol Nat

namespace Yields

def ofSymbol? (yields : Yields) (s : Symbol) : Option Nat :=
  if s.isTerm then some 1 else OrderedMap.get? yields s

/-- The length that a form comes to when every variable is replaced by a string
of the length given for it. -/
def ofForm? (counting : Counting) (yields : Yields) : Form → Option Nat
  | [] => some 0
  | s :: rest =>
    match yields.ofSymbol? s, yields.ofForm? counting rest with
    | some length, some others => some (counting.add length others)
    | _, _ => none

/-- Adding up the lengths of the symbols to a total never comes to more than
the bound. -/
def fits (counting : Counting) (yields : Yields) (bound : Nat) : Nat → Form → Bool
  | _, [] => true
  | total, s :: rest =>
    match yields.ofSymbol? s with
    | some length =>
      let total := counting.add total length
      total ≤ bound && yields.fits counting bound total rest
    | none => false

/-- Lowers the length of a head to that of a right side. -/
def absorb (counting : Counting) (yields : Yields) (p : Production) : Yields :=
  match p.head?, yields.ofForm? counting p.rhs with
  | some head, some length => OrderedMap.alter yields head length (min length)
  | _, _ => yields

/-- The length of the head is greater than that of the right side. -/
def isLoweredBy (counting : Counting) (yields : Yields) (p : Production) : Bool :=
  match p.head?, yields.ofForm? counting p.rhs with
  | some head, some length => counting.isLess length (OrderedMap.get? yields head)
  | _, _ => false

/-- Goes through the productions once, and tells whether a length was
lowered. -/
def pass (counting : Counting) : List Production → Yields → Yields × Bool
  | [], yields => (yields, false)
  | p :: ps, yields =>
    let last := pass counting ps (yields.absorb counting p)
    (last.1, yields.isLoweredBy counting p || last.2)

/-- Passes until one of them lowers no length. -/
def settle (counting : Counting) (ps : List Production) : Nat → Yields → Yields
  | 0, yields => yields
  | rounds + 1, yields =>
    let last := pass counting ps yields
    if last.2 then settle counting ps rounds last.1 else last.1

end Yields

def Grammar.shortestYields (counting : Counting) (g : Grammar) : FormalGrammars.Yields :=
  .settle counting g.productions (counting.rounds g.variables.length) ⟨[]⟩

end FormalGrammars
