import FormalGrammars.Grammar.Basic

/-!
# Names for helper variables

Helpers are numbered `H1`, `H2`, ... or, on request, named by single letters.
Either way the names of the grammar's symbols are taken, and so is each name
once it is given out.  When the letters run out, numbered names follow and the
shortage is counted.
-/

namespace FormalGrammars

inductive Naming where
  | numbered
  | letters
  deriving DecidableEq, Repr, Inhabited

structure NameSource where
  naming : Naming
  taken : List String
  /-- The last number given out or passed over. -/
  counter : Nat := 0
  /-- How many names found no letter. -/
  missing : Nat := 0
  deriving DecidableEq, Repr

def helperLetters : List String :=
  "ABCDEFGHIJKLMNOPQRSTUVWXYZ".toList.map String.singleton

def numberedName (number : Nat) : String :=
  "H" ++ toString number

namespace NameSource

def ofGrammar (g : Grammar) (naming : Naming) : NameSource where
  naming := naming
  taken := (g.variables ++ g.terminals).map Symbol.name

/-- The next number whose name is not taken.  Fewer than all of the next
`taken.length + 1` names can be taken. -/
def nextNumber (source : NameSource) : Nat :=
  ((List.range (source.taken.length + 1)).map (source.counter + 1 + ·)).find?
    (fun number => numberedName number ∉ source.taken) |>.getD (source.counter + 1)

def mintNumbered (source : NameSource) : String × NameSource :=
  let number := source.nextNumber
  (numberedName number,
    { source with taken := numberedName number :: source.taken, counter := number })

def mint (source : NameSource) : String × NameSource :=
  match source.naming with
  | .numbered => source.mintNumbered
  | .letters =>
    match helperLetters.find? fun letter => letter ∉ source.taken with
    | some letter => (letter, { source with taken := letter :: source.taken })
    | none => { source with missing := source.missing + 1 }.mintNumbered

end NameSource

end FormalGrammars
