import FormalGrammars.Symbol.Basic
import FormalGrammars.Text.Capital
import FormalGrammars.Text.Splitting

/-!
# Reading symbols from text

A convention says how text is cut into tokens.  Under either convention a
token that opens with an uppercase character is a variable, and any other a
terminal, so the kind of a symbol is decided once, where text is read.

Under the convention of capitals each character is a token, except that an
uppercase character takes the bracket group directly behind it, as in
`V(q0aq1)`.  The group ends at its matching bracket or, when that is missing,
with the text.
-/

namespace FormalGrammars

open Text

inductive Convention where
  /-- One character for each symbol, with compound variables. -/
  | capitals
  /-- Symbols are separated by white space. -/
  | words
  deriving DecidableEq, Repr

/-! ## Bracket groups -/

/-- The rest of a bracket group and the text behind it, where `depth` brackets
are open inside the outermost one. -/
def bracketGroup : Nat → List Char → List Char × List Char
  | _, [] => ([], [])
  | depth, c :: rest =>
    if c = ')' then
      match depth with
      | 0 => ([c], rest)
      | depth + 1 =>
        let group := bracketGroup depth rest
        (c :: group.1, group.2)
    else
      let group := bracketGroup (if c = '(' then depth + 1 else depth) rest
      (c :: group.1, group.2)

/-- A group and the text behind it make up the text. -/
theorem bracketGroup_append (depth : Nat) (text : List Char) :
    (bracketGroup depth text).1 ++ (bracketGroup depth text).2 = text := by
  induction text generalizing depth with
  | nil => rfl
  | cons c rest ih =>
    simp only [bracketGroup]
    split
    · cases depth with
      | zero => rfl
      | succ depth => simp [ih]
    · simp [ih]

theorem length_bracketGroup_snd_le (depth : Nat) (text : List Char) :
    (bracketGroup depth text).2.length ≤ text.length := by
  have hlength := congrArg List.length (bracketGroup_append depth text)
  simp only [List.length_append] at hlength
  omega

/-! ## Tokens -/

def capitalTokens (text : List Char) : List (List Char) :=
  match text with
  | [] => []
  | c :: rest =>
    if isBlank c then capitalTokens rest
    else if isCapital c && rest.head? == some '(' then
      let group := bracketGroup 0 rest.tail
      (c :: '(' :: group.1) :: capitalTokens group.2
    else [c] :: capitalTokens rest
termination_by text.length
decreasing_by
  · simp
  · have hle := length_bracketGroup_snd_le 0 rest.tail
    simp only [List.length_tail] at hle
    simp only [List.length_cons]
    omega
  · simp

def wordTokens (text : List Char) : List (List Char) :=
  (splitWhere isBlank text).filter fun word => !word.isEmpty

/-- A token names a variable when it opens with an uppercase character. -/
def namesVariable (token : List Char) : Bool :=
  token.head?.any isCapital

def symbolOfToken (token : List Char) : Symbol :=
  if namesVariable token then .var (String.ofList token) else .term (String.ofList token)

namespace Convention

def tokens : Convention → List Char → List (List Char)
  | capitals => capitalTokens
  | words => wordTokens

def readForm (convention : Convention) (text : List Char) : Form :=
  (convention.tokens text).map symbolOfToken

/-- The spellings of an empty right side. -/
def lambdaSpellings : List (List Char) := [[], ['λ'], ['ε']]

/-- The right side that a text spells, where a lambda stands for the empty one. -/
def readRightSide (convention : Convention) (text : List Char) : Form :=
  if trim text ∈ lambdaSpellings then [] else convention.readForm (trim text)

end Convention

end FormalGrammars
