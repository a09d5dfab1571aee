/-!
# White space

Text is cut at characters with the Unicode property `White_Space`.  The
property has 25 members in ten ranges, more than the four ASCII blanks, so it
is given here as a table.
-/

namespace FormalGrammars.Text

/-- The ranges of the property `White_Space`, both ends included. -/
def blankRanges : List (Nat × Nat) := [
    (0x9, 0xD), (0x20, 0x20), (0x85, 0x85), (0xA0, 0xA0), (0x1680, 0x1680),
    (0x2000, 0x200A), (0x2028, 0x2029), (0x202F, 0x202F), (0x205F, 0x205F),
    (0x3000, 0x3000)]

def isBlank (c : Char) : Bool :=
  blankRanges.any fun range => range.1 ≤ c.toNat && c.toNat ≤ range.2

theorem isBlank_space : isBlank ' ' = true := by decide

def skipBlanks (text : List Char) : List Char :=
  text.dropWhile isBlank

def trim (text : List Char) : List Char :=
  (skipBlanks (skipBlanks text).reverse).reverse

theorem length_dropWhile_le {α : Type} (p : α → Bool) (xs : List α) :
    (xs.dropWhile p).length ≤ xs.length :=
  (List.dropWhile_sublist p).length_le

theorem length_skipBlanks_le (text : List Char) :
    (skipBlanks text).length ≤ text.length :=
  length_dropWhile_le isBlank text

end FormalGrammars.Text
