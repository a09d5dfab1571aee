import FormalGrammars.Grammar.Basic
import FormalGrammars.Text.Blank

/-!
# Cutting an input into terminals

At each place the longest terminal name of the grammar that the text goes on
with is taken.  Where there is none, a single character becomes a terminal of
its own, which no grammar knows.  White space between tokens is skipped.
-/

namespace FormalGrammars

open Text

/-- The number of characters of the next token: the length of the longest name
that the text starts with, or one if there is none.  A terminal without a name,
which the checks of productions refuse, counts as none. -/
def tokenLength (names : List (List Char)) (text : List Char) : Nat :=
  ((names.filter fun name => name.isPrefixOf text).map List.length).foldl max 1

theorem le_foldl_max (start : Nat) (lengths : List Nat) : start ≤ lengths.foldl max start := by
  induction lengths generalizing start with
  | nil => exact Nat.le_refl start
  | cons length lengths ih => exact Nat.le_trans (Nat.le_max_left start length) (ih _)

theorem tokenLength_pos (names : List (List Char)) (text : List Char) :
    0 < tokenLength names text :=
  le_foldl_max 1 _

def lexTokens (names : List (List Char)) (text : List Char) : List (List Char) :=
  let rest := skipBlanks text
  if rest.isEmpty then []
  else
    rest.take (tokenLength names rest) :: lexTokens names (rest.drop (tokenLength names rest))
termination_by text.length
decreasing_by
  next hrest =>
    have hle := length_skipBlanks_le text
    have hpos := tokenLength_pos names (skipBlanks text)
    have hne : 0 < (skipBlanks text).length :=
      List.length_pos_iff.mpr (by simpa [List.isEmpty_iff] using hrest)
    simp only [List.length_drop]
    omega

def Grammar.lex (g : Grammar) (input : String) : Form :=
  (lexTokens (g.terminals.map fun s => s.name.toList) input.toList).map
    fun token => .term (String.ofList token)

end FormalGrammars
