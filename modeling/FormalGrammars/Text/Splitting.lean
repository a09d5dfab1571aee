import FormalGrammars.Text.Blank

/-!
# Cutting text into pieces

Grammar text is cut into lines, a line at its arrow, and the right part at
its bars.  All cuts work on lists of characters: what a cut drops is exactly
the separator, so joining the pieces with the separator gives the text back.
-/

namespace FormalGrammars.Text

/-- The pieces between the characters that satisfy `isMark`: always at least one. -/
def splitWhere (isMark : Char → Bool) : List Char → List (List Char)
  | [] => [[]]
  | c :: rest =>
    if isMark c then [] :: splitWhere isMark rest
    else match splitWhere isMark rest with
      | [] => [[c]]
      | piece :: pieces => (c :: piece) :: pieces

theorem splitWhere_ne_nil (isMark : Char → Bool) (text : List Char) :
    splitWhere isMark text ≠ [] := by
  cases text with
  | nil => simp [splitWhere]
  | cons c rest =>
    simp only [splitWhere]
    split
    · simp
    · split <;> simp

theorem not_isMark_of_mem_splitWhere {isMark : Char → Bool} {text : List Char} :
    ∀ piece ∈ splitWhere isMark text, ∀ c ∈ piece, isMark c = false := by
  induction text with
  | nil => simp [splitWhere]
  | cons c rest ih =>
    simp only [splitWhere]
    split
    next => simpa using ih
    next hmark =>
      split
      next => simpa using hmark
      next first others hsplit =>
        rw [hsplit] at ih
        simp only [List.mem_cons, forall_eq_or_imp] at ih ⊢
        exact ⟨⟨by simpa using hmark, ih.1⟩, ih.2⟩

/-- The parts before and after the first occurrence of `mark`. -/
def splitAtFirst? (mark : List Char) (text : List Char) :
    Option (List Char × List Char) :=
  if mark.isPrefixOf text then some ([], text.drop mark.length)
  else match text with
    | [] => none
    | c :: rest => (splitAtFirst? mark rest).map fun parts => (c :: parts.1, parts.2)

theorem eq_append_of_splitAtFirst? {mark text before after : List Char}
    (hcut : splitAtFirst? mark text = some (before, after)) :
    text = before ++ mark ++ after := by
  induction text generalizing before with
  | nil =>
    unfold splitAtFirst? at hcut
    split at hcut
    next hmark =>
      obtain ⟨rest, hrest⟩ := List.isPrefixOf_iff_prefix.mp hmark
      simp only [Option.some.injEq, Prod.mk.injEq] at hcut
      obtain ⟨rfl, rfl⟩ := hcut
      simp [← hrest]
    next => simp at hcut
  | cons c rest ih =>
    unfold splitAtFirst? at hcut
    split at hcut
    next hmark =>
      obtain ⟨tail, htail⟩ := List.isPrefixOf_iff_prefix.mp hmark
      simp only [Option.some.injEq, Prod.mk.injEq] at hcut
      obtain ⟨rfl, rfl⟩ := hcut
      simp [← htail]
    next =>
      simp only [Option.map_eq_some_iff, Prod.exists, Prod.mk.injEq] at hcut
      obtain ⟨before, after, hrest, rfl, rfl⟩ := hcut
      simp [ih hrest]

/-- The lines of a text, trimmed, without the blank ones. -/
def contentLines (text : List Char) : List (List Char) :=
  ((splitWhere (· = '\n') text).map trim).filter fun line => !line.isEmpty

end FormalGrammars.Text
