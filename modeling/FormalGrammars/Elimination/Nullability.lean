import FormalGrammars.Derivation.Tree
import FormalGrammars.Iteration

/-!
# Nullable variables

A variable is nullable when it derives the empty string.  The nullable
variables are collected in passes over the productions; each is stored with
the production that proved it nullable, all of whose right side was nullable
before.  Following these witnesses back gives a derivation of the empty string.
-/

namespace FormalGrammars

/-- Nullable variables with their witnesses, in the order of discovery. -/
structure Nullability where
  witnesses : OrderedMap Symbol Production
  deriving DecidableEq, Repr, Inhabited

namespace Nullability

def «variables» (n : Nullability) : List Symbol :=
  n.witnesses.keys

def contains (n : Nullability) (s : Symbol) : Bool :=
  n.witnesses.contains s

def derivesLambda (n : Nullability) (form : Form) : Bool :=
  form.all n.contains

def absorb (n : Nullability) (p : Production) : Nullability :=
  match p.head? with
  | none => n
  | some head =>
    if n.derivesLambda p.rhs then ⟨n.witnesses.insertIfNew head p⟩ else n

def pass (g : Grammar) (n : Nullability) : Nullability :=
  g.productions.foldl absorb n

/-- The tree that derives the empty string from `s` with the given witnesses,
the latest first. -/
def emptyTreeFrom : List (Symbol × Production) → Symbol → Option Tree
  | [], _ => none
  | (head, p) :: earlier, s =>
    if head = s then (p.rhs.mapM (emptyTreeFrom earlier)).map (Tree.node s p ·)
    else emptyTreeFrom earlier s

def emptyTree? (n : Nullability) (s : Symbol) : Option Tree :=
  emptyTreeFrom n.witnesses.entries.reverse s

end Nullability

/-- The nullable variables: first the heads of lambda productions, then those
that the passes find.  Each pass but the last finds a new head. -/
def Grammar.nullability (g : Grammar) : Nullability :=
  iterateUntilStable (Nullability.pass g) g.productions.length
    ((g.productions.filter Production.isLambda).foldl Nullability.absorb ⟨⟨[]⟩⟩)

end FormalGrammars
