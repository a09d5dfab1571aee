import FormalGrammars.NormalForm.Directory
import FormalGrammars.NormalForm.HelperName

/-!
# Splitting productions for Chomsky normal form

A production is split in two moves.  Terminals beside other symbols give way
to variables that stand for them, and a right side `X₁ X₂ … Xₙ` of three or
more variables becomes `X₁ R` with a variable `R` that stands for the rest.

A variable stands for a form when it produces that form and nothing else.  A
splitting looks for one among its own helpers, then among the variables of the
grammar, and mints a helper otherwise, so equal forms share one stand-in.
-/

namespace FormalGrammars

/-- The state of splitting the productions of a grammar one after the other. -/
structure Splitting where
  names : NameSource
  directory : Directory
  /-- The helpers and what each of them stands for, in the order of minting. -/
  helpers : OrderedMap Symbol Form := ⟨[]⟩
  /-- The production that was split into each new first production. -/
  origins : OrderedMap Production Production := ⟨[]⟩
  /-- All productions that came out. -/
  output : List Production := []
  deriving Repr

namespace Splitting

def ofGrammar (g : Grammar) (naming : Naming) : Splitting where
  names := .ofGrammar g naming
  directory := .ofGrammar g

def helperFor? (c : Splitting) (form : Form) : Option Symbol :=
  (c.helpers.entries.find? fun entry => entry.2 = form).map Prod.fst

def mint (c : Splitting) (form : Form) : Symbol × Splitting :=
  let (name, names) := c.names.mint
  let helper := Symbol.var name
  (helper, { c with
    names := names
    directory := c.directory.insert (.rule helper form)
    helpers := c.helpers.insert helper form })

/-- A variable for a form, and whether it was minted for it just now. -/
def standIn (c : Splitting) (form : Form) : (Symbol × Bool) × Splitting :=
  match c.helperFor? form <|> c.directory.standIn? form with
  | some s => ((s, false), c)
  | none =>
    let (helper, c) := c.mint form
    ((helper, true), c)

/-- Replaces the terminals of a right side by stand-ins.  The productions of
the helpers that were minted come first. -/
def replaceTerminals (c : Splitting) : Form → (List Production × Form) × Splitting
  | [] => (([], []), c)
  | s :: rest =>
    if s.isVar then
      let ((minted, heads), c) := c.replaceTerminals rest
      ((minted, s :: heads), c)
    else
      let ((helper, fresh), c) := c.standIn [s]
      let ((minted, heads), c) := c.replaceTerminals rest
      ((if fresh then .rule helper [s] :: minted else minted, helper :: heads), c)

/-- Notes where a first production comes from, unless the directory has it. -/
def noteOrigin (c : Splitting) (source? : Option Production) (p : Production) : Splitting :=
  match source? with
  | none => c
  | some source =>
    if c.directory.contains p then c
    else { c with origins := c.origins.insertIfNew p source }

/-- Cuts a right side of variables into pairs.  The chain ends early when the
rest has a stand-in, whose productions are out already. -/
def cutIntoPairs (c : Splitting) (source? : Option Production) (head : Symbol) :
    Form → List Production × Splitting
  | first :: second :: third :: rest =>
    let ((helper, fresh), c) := c.standIn (second :: third :: rest)
    let p := Production.rule head [first, helper]
    let c := c.noteOrigin source? p
    if fresh then
      let (ps, c) := c.cutIntoPairs none helper (second :: third :: rest)
      (p :: ps, c)
    else ([p], c)
  | short =>
    let p := Production.rule head short
    ([p], c.noteOrigin source? p)

/-- The productions in normal form that replace a production, with those of
the helpers minted for it. -/
def split (c : Splitting) (p : Production) : Except Fault (List Production × Splitting) :=
  match p.shape, p.head? with
  | .lambda, some _ => .error (.outsideNormalForm p)
  | .unit, some _ => .error (.outsideNormalForm p)
  | .chomsky, some _ => .ok ([p], { c with output := insertNew c.output p })
  | _, some head =>
    let ((minted, heads), c) := c.replaceTerminals p.rhs
    let (ps, c) := c.cutIntoPairs (some p) head heads
    .ok (minted ++ ps, { c with output := extendNew c.output (minted ++ ps) })
  | _, none => .error (.notContextFree p)

end Splitting

end FormalGrammars
