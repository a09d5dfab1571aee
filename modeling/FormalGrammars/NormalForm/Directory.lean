import FormalGrammars.Grammar.Basic

/-!
# Directories of right sides

A directory tells which variables produce a given right side.  A variable that
alone produces a right side, and produces nothing else, can stand for it.
-/

namespace FormalGrammars

structure Directory where
  producers : OrderedMap Form (List Symbol) := ⟨[]⟩
  counts : OrderedMap Symbol Nat := ⟨[]⟩
  deriving Repr, Inhabited

namespace Directory

def producersOf (d : Directory) (rhs : Form) : List Symbol :=
  d.producers.getD rhs []

def contains (d : Directory) (p : Production) : Bool :=
  p.head?.any fun head => (d.producersOf p.rhs).contains head

/-- Takes up a production with a head. -/
def insert (d : Directory) (p : Production) : Directory :=
  match p.head? with
  | none => d
  | some head =>
    if d.contains p then d
    else {
      producers := d.producers.alter p.rhs [] (insertNew · head)
      counts := d.counts.alter head 0 (· + 1) }

def ofGrammar (g : Grammar) : Directory :=
  g.productions.foldl insert {}

def soleProducer? (d : Directory) (rhs : Form) : Option Symbol :=
  match d.producersOf rhs with
  | [head] => some head
  | _ => none

/-- The variable that can stand for a right side. -/
def standIn? (d : Directory) (rhs : Form) : Option Symbol :=
  (d.soleProducer? rhs).filter fun head => d.counts.getD head 0 == 1

end Directory

end FormalGrammars
