import FormalGrammars.Derivation.Step

/-!
# Histories of derivations

A history is a growing tree of sentential forms, in which every form but the
first remembers the step that made it from an earlier one.  Forms have
consecutive numbers from 0, in the order in which they were added, and none is
ever changed or removed.  A parent has a smaller number than its children, so
the way from a form up to the root ends.
-/

namespace FormalGrammars

namespace History

/-- How a form was made: from which form and by which step. -/
structure Origin where
  parent : Nat
  step : Step
  deriving DecidableEq, Repr, Inhabited

/-- A form in a history; only the root has no origin. -/
structure Entry where
  form : Form
  origin : Option Origin
  depth : Nat
  deriving DecidableEq, Repr, Inhabited

end History

structure History where
  entries : List History.Entry
  /-- The numbers of the children of each form. -/
  children : List (List Nat)
  deriving DecidableEq, Repr, Inhabited

namespace History

def ofRoot (form : Form) : History := ⟨[⟨form, none, 0⟩], [[]]⟩

def size (h : History) : Nat :=
  h.entries.length

def entry? (h : History) (id : Nat) : Option Entry :=
  h.entries[id]?

/-- The form with this number; the empty form if there is none. -/
def form (h : History) (id : Nat) : Form :=
  ((h.entry? id).map Entry.form).getD []

def parent? (h : History) (id : Nat) : Option Nat :=
  ((h.entry? id).bind Entry.origin).map Origin.parent

def depth (h : History) (id : Nat) : Nat :=
  ((h.entry? id).map Entry.depth).getD 0

def childrenOf (h : History) (id : Nat) : List Nat :=
  h.children[id]?.getD []

/-- Adds the form that a step makes from the form `parent`.  The new form has
the number `h.size`. -/
def addChild (h : History) (parent : Nat) (form : Form) (step : Step) : History where
  entries := h.entries ++ [⟨form, some ⟨parent, step⟩, h.depth parent + 1⟩]
  children := h.children.modify parent (· ++ [h.size]) ++ [[]]

def ascent (h : History) (id : Nat) : List Nat :=
  match h.parent? id with
  | none => [id]
  | some parent => if parent < id then id :: h.ascent parent else [id]
termination_by id

def path (h : History) (id : Nat) : List Nat :=
  (h.ascent id).reverse

def stepsTo (h : History) (id : Nat) : List Step :=
  (h.path id).filterMap fun number => ((h.entry? number).bind Entry.origin).map Origin.step

/-- Adds the forms that the steps run through from `form`, the form with the
number `parent`, each as the child of the one before. -/
def extendAlong (h : History) (parent : Nat) (form : Form) : List Step → History
  | [] => h
  | step :: steps =>
    match Form.rewrite? form step with
    | none => h
    | some next => (h.addChild parent next step).extendAlong h.size next steps

end History

end FormalGrammars
