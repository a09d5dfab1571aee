import FormalGrammars.Production

/-!
# Faults

A fault is the reason why a request about a grammar has no answer.  That a
string is rejected, that a language is empty or that a table has conflicts is
an answer and no fault.
-/

namespace FormalGrammars

inductive Fault where
  | missingStart
  | startNotVariable (start : Symbol)
  | emptyLeftSide (production : Production)
  /-- A single variable is required on the left. -/
  | notContextFree (production : Production)
  | reservedName (name : String)
  /-- A line of grammar text without an arrow. -/
  | unreadableLine (line : String)
  /-- A production that is outside the domain of the conversion to, or of the
  work in, Chomsky normal form. -/
  | outsideNormalForm (production : Production)
  /-- So many helper variables found no letter. -/
  | lettersExhausted (missing : Nat)
  | notApplicable (production : Production) (position : Nat)
  deriving DecidableEq, Repr

def Fault.message : Fault → String
  | missingStart => "the grammar has no start variable"
  | startNotVariable start => "start symbol `" ++ start.name ++ "` is not a variable"
  | emptyLeftSide p => "production `" ++ p.text ++ "` has an empty left side"
  | notContextFree p =>
    "production `" ++ p.text ++ "` must have a single variable on its left side"
  | reservedName name => "`" ++ name ++ "` is a reserved symbol"
  | unreadableLine line => "cannot read production line `" ++ line ++ "`"
  | outsideNormalForm p =>
    "production `" ++ p.text ++ "` must be removed before converting to Chomsky normal form"
  | lettersExhausted missing =>
    "conversion needs " ++ toString missing ++ " more variable(s) than single letters allow"
  | notApplicable p position =>
    "`" ++ p.text ++ "` cannot be applied at position " ++ toString position

end FormalGrammars
