import FormalGrammars.Symbol.Basic

/-!
# How a table-driven parse ends

A parser that is driven by a table accepts its input, rejects it at the first
symbol for which the table has no move, or is stopped from outside.
-/

namespace FormalGrammars

/-- The reason of a rejection, where the absence of a symbol means the end of
the input. -/
structure Mismatch where
  /-- The next symbol of the input. -/
  found : Option Symbol
  /-- What the table has a move for. -/
  expected : List (Option Symbol)
  deriving DecidableEq, Repr

def Mismatch.message (m : Mismatch) : String :=
  let found := match m.found with
    | some s => "unexpected `" ++ s.name ++ "`"
    | none => "unexpected end of input"
  let expected := m.expected.map fun
    | some s => " `" ++ s.name ++ "`"
    | none => " $"
  if expected.isEmpty then found
  else found ++ ", expected one of:" ++ String.join expected

inductive Outcome where
  | accept
  | reject (mismatch : Mismatch)
  /-- Cancelled, or stopped by the checkpoint. -/
  | abandoned
  deriving DecidableEq, Repr

end FormalGrammars
