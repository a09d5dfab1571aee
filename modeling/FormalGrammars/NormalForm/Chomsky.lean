import FormalGrammars.Derivation.Tree
import FormalGrammars.NormalForm.Splitting

/-!
# Chomsky normal form

The conversion splits every production of a grammar without lambda and unit
productions.  A derivation over the result is carried back by opening the
variables that stand for the rest of a right side.
-/

namespace FormalGrammars

structure ChomskyForm where
  grammar : Grammar
  directory : Directory
  helpers : OrderedMap Symbol Form
  origins : OrderedMap Production Production
  deriving Repr

namespace ChomskyForm

def isHelper (c : ChomskyForm) (s : Symbol) : Bool :=
  c.helpers.contains s

def expansion? (c : ChomskyForm) (helper : Symbol) : Option Form :=
  c.helpers.get? helper

mutual

def restore (c : ChomskyForm) : Tree → Tree
  | .leaf s => .leaf s
  | .node s p children =>
    match c.origins.get? p with
    | none => .node s p (c.restoreAll children)
    | some source => .node s source (c.restoreOnto source.rhs children)

def restoreAll (c : ChomskyForm) : List Tree → List Tree
  | [] => []
  | tree :: trees => c.restore tree :: c.restoreAll trees

/-- One tree for each symbol of a right side.  When there are fewer trees than
symbols, the last tree stands for all the symbols that are left. -/
def restoreOnto (c : ChomskyForm) : Form → List Tree → List Tree
  | [], _ => []
  | _ :: _, [] => []
  | s :: next :: rest, [last] => c.restoreInside (s :: next :: rest) last
  | s :: rest, tree :: trees =>
    (if s.isTerm then .leaf s else c.restore tree) :: c.restoreOnto rest trees

/-- The trees for several symbols inside the one that stands for them. -/
def restoreInside (c : ChomskyForm) (form : Form) : Tree → List Tree
  | .leaf _ => []
  | .node _ _ children => c.restoreOnto form children

end

end ChomskyForm

namespace Splitting

/-- What was split so far, as a grammar with the start of `template`. -/
def finish (c : Splitting) (template : Grammar) : Except Fault ChomskyForm :=
  if c.names.missing > 0 then .error (.lettersExhausted c.names.missing)
  else .ok {
    grammar := template.withProductions c.output
    directory := c.directory
    helpers := c.helpers
    origins := c.origins }

theorem finish_eq_ok_iff {c : Splitting} {template : Grammar} {form : ChomskyForm} :
    c.finish template = .ok form ↔ c.names.missing = 0 ∧
      ⟨template.withProductions c.output, c.directory, c.helpers, c.origins⟩ = form := by
  unfold finish
  split
  next hmissing =>
    constructor
    · intro hrefused
      cases hrefused
    · intro hfinished
      exact absurd hfinished.1 (Nat.ne_of_gt hmissing)
  next hnone =>
    rw [Except.ok.injEq]
    constructor
    · intro hform
      exact ⟨Nat.eq_zero_of_not_pos hnone, hform⟩
    · intro hfinished
      exact hfinished.2

theorem finish_of_missing {c : Splitting} (hmissing : 0 < c.names.missing) (template : Grammar) :
    c.finish template = .error (.lettersExhausted c.names.missing) :=
  if_pos hmissing

end Splitting

/-- Converts a context-free grammar without lambda and unit productions. -/
def Grammar.toChomskyForm (g : Grammar) (naming : Naming) : Except Fault ChomskyForm := do
  let _ ← g.requireContextFree
  let c ← g.productions.foldlM (fun c p => (c.split p).map Prod.snd) (Splitting.ofGrammar g naming)
  c.finish g

end FormalGrammars
