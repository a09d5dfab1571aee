import FormalGrammars.Grammar.Basic

/-!
# Grammar text

Each line of a grammar text gives productions with one left side: the left
side, an arrow, and the right sides with bars between them.  The first left
side that is a single variable becomes the start.  A grammar is written with
one production to a line.
-/

namespace FormalGrammars

open Text

/-- The left side of a line and its right sides.  An ASCII arrow anywhere in
the line is preferred to the arrow character. -/
def splitProductionLine? (line : List Char) : Option (List Char × List (List Char)) :=
  let parts := splitAtFirst? ['-', '>'] line <|> splitAtFirst? ['→'] line
  parts.map fun (left, right) => (left, splitWhere (· = '|') right)

namespace Grammar

/-- Makes the left side of a line the start, if it can be and none is set. -/
def adoptStart (g : Grammar) (lhs : Form) : Grammar :=
  match g.start, Form.soleVariable? lhs with
  | none, some head => { g with start := some head }
  | _, _ => g

def readLine (convention : Convention) (g : Grammar) (line : List Char) :
    Except Fault Grammar :=
  match splitProductionLine? line with
  | none => .error (.unreadableLine (String.ofList line))
  | some (left, alternatives) => do
    let lhs := convention.readForm left
    let g ← g.addAll (alternatives.map fun rhs => ⟨lhs, convention.readRightSide rhs⟩)
    return g.adoptStart lhs

def read (convention : Convention) (text : String) (validity : Validity := .contextFree) :
    Except Fault Grammar :=
  (contentLines text.toList).foldlM (readLine convention) (empty validity)

def text (g : Grammar) : String :=
  String.join (g.productions.map fun p => p.text ++ "\n")

end Grammar

end FormalGrammars
