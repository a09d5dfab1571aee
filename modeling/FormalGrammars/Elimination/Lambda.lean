import FormalGrammars.Elimination.Nullability

/-!
# Elimination of lambda productions

Each production is replaced by its variants: what is left of it when some of
the nullable symbols on its right are dropped, but not everything.  The result
derives the same strings except the empty one.  Every production of the result
remembers a production that it was cut from and the positions that were kept,
so a derivation over the result can be carried back.
-/

namespace FormalGrammars

/-! ## Variants -/

/-- The symbols of a form at the positions that are kept. -/
def Form.select : List Bool → Form → Form
  | true :: kept, s :: form => s :: select kept form
  | false :: kept, _ :: form => select kept form
  | _, _ => []

namespace Nullability

/-- The choices for one more symbol: it is kept in all the old choices, and
then, if it is nullable, dropped in all of them. -/
def extendMasks (n : Nullability) (masks : List (List Bool)) (s : Symbol) :
    List (List Bool) :=
  let kept := masks.map (· ++ [true])
  if n.contains s then kept ++ masks.map (· ++ [false]) else kept

/-- All choices of positions of a form, where only nullable symbols may be
dropped.  The first choice keeps everything. -/
def masks (n : Nullability) (form : Form) : List (List Bool) :=
  form.foldl n.extendMasks [[]]

/-- The non-empty right sides that are left of a production, each with the
first choice of positions that gives it. -/
def variants (n : Nullability) (p : Production) : List (Production × List Bool) :=
  match p.head? with
  | none => []
  | some head =>
    let cuts := ((n.masks p.rhs).filter fun kept => !(Form.select kept p.rhs).isEmpty).foldl
      (fun cuts kept => cuts.insertIfNew (Form.select kept p.rhs) kept)
      (⟨[]⟩ : OrderedMap Form (List Bool))
    cuts.entries.map fun (rhs, kept) => (.rule head rhs, kept)

end Nullability

/-! ## The elimination -/

/-- The production that another was cut from, and the positions that were kept. -/
structure Cut where
  source : Production
  kept : List Bool
  deriving DecidableEq, Repr

structure LambdaElimination where
  nullability : Nullability
  grammar : Grammar
  /-- The empty string was in the language. -/
  startDerivesLambda : Bool
  origins : OrderedMap Production Cut
  deriving Repr

namespace LambdaElimination

/-- The origins of the variants of all productions.  A production that is kept
as it is comes from itself. -/
def originsOf (g : Grammar) (n : Nullability) : OrderedMap Production Cut :=
  let unchanged := (g.productions.filter fun p => !p.isLambda).foldl
    (fun origins p => origins.insert p ⟨p, p.rhs.map fun _ => true⟩)
    (⟨[]⟩ : OrderedMap Production Cut)
  g.productions.foldl
    (fun origins p => (n.variants p).foldl
      (fun origins (variant, kept) => origins.insertIfNew variant ⟨p, kept⟩) origins)
    unchanged

/-- The children of a node before the cut: the kept ones, and a derivation of
the empty string for each dropped one. -/
def refill (n : Nullability) : List (Symbol × Bool) → List Tree → List Tree
  | [], _ => []
  | (s, true) :: rest, [] => .leaf s :: refill n rest []
  | (_, true) :: rest, child :: children => child :: refill n rest children
  | (s, false) :: rest, children => (n.emptyTree? s).getD (.leaf s) :: refill n rest children

mutual

def restore (e : LambdaElimination) : Tree → Tree
  | .leaf s => .leaf s
  | .node s p children =>
    match e.origins.get? p with
    | none => .node s p (e.restoreAll children)
    | some cut =>
      .node s cut.source
        (refill e.nullability (cut.source.rhs.zip cut.kept) (e.restoreAll children))

def restoreAll (e : LambdaElimination) : List Tree → List Tree
  | [] => []
  | tree :: trees => e.restore tree :: e.restoreAll trees

end

end LambdaElimination

def Grammar.eliminateLambda (g : Grammar) : Except Fault LambdaElimination := do
  let start ← g.requireContextFree
  let nullability := g.nullability
  let origins := LambdaElimination.originsOf g nullability
  return ⟨nullability, g.withProductions origins.keys, nullability.contains start, origins⟩

end FormalGrammars
