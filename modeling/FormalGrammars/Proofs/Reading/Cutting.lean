import FormalGrammars.Text.Splitting
import Mathlib.Data.List.Infix

/-!
# Where text is cut

A text is cut at the first occurrence of a mark, or at every character of a
kind.  What stands before the cut determines the cut: text in front that has no
mark in it, and does not end in the middle of one, stays in the first piece.
Trimming takes white space off both ends, so text whose ends are solid stays as
it is.
-/

namespace FormalGrammars.Text

variable {mark text before after front behind : List Char} {c : Char}

/-- A beginning that does not contain a character ends before it. -/
theorem prefix_of_prefix_append_cons {α : Type} {xs front behind : List α}
    {x : α} (hbegins : xs <+: front ++ x :: behind) (hmem : x ∉ xs) :
    xs <+: front := by
  have hfront : front ++ [x] <+: front ++ x :: behind := ⟨behind, by simp⟩
  rcases Nat.lt_or_ge front.length xs.length with hlt | hge
  · have hbelow := List.prefix_of_prefix_length_le hfront hbegins
      (by simpa using Nat.succ_le_of_lt hlt)
    exact absurd (hbelow.subset (by simp)) hmem
  · exact List.prefix_of_prefix_length_le hbegins
      (List.prefix_append front _) hge

/-! ## The first occurrence of a mark -/

theorem splitAtFirst?_of_isPrefix (hmark : mark <+: text) :
    splitAtFirst? mark text = some ([], text.drop mark.length) := by
  rw [splitAtFirst?.eq_def, if_pos (List.isPrefixOf_iff_prefix.mpr hmark)]

theorem splitAtFirst?_cons (hmark : ¬ mark <+: c :: text) :
    splitAtFirst? mark (c :: text) =
      (splitAtFirst? mark text).map fun parts => (c :: parts.1, parts.2) := by
  rw [splitAtFirst?, if_neg (mt List.isPrefixOf_iff_prefix.mp hmark)]

theorem splitAtFirst?_eq_none_iff :
    splitAtFirst? mark text = none ↔ ¬ mark <:+: text := by
  induction text with
  | nil =>
      rw [List.infix_nil]
      by_cases hmark : mark = []
      · rw [splitAtFirst?_of_isPrefix (List.prefix_nil.mpr hmark)]
        simp [hmark]
      · simp [splitAtFirst?, hmark]
  | cons c text ih =>
      rw [List.infix_cons_iff]
      by_cases hmark : mark <+: c :: text
      · simp [splitAtFirst?_of_isPrefix hmark, hmark]
      · rw [splitAtFirst?_cons hmark, Option.map_eq_none_iff, ih]
        simp [hmark]

/-- Text without the mark stays in front of the cut, when it ends in a character
that the mark does not contain. -/
theorem splitAtFirst?_append_cons (hmem : c ∉ mark) (hmark : ¬ mark <:+: front)
    (hne : mark ≠ []) :
    splitAtFirst? mark (front ++ c :: behind) =
      (splitAtFirst? mark behind).map fun parts =>
        (front ++ c :: parts.1, parts.2) := by
  induction front with
  | nil =>
      refine splitAtFirst?_cons fun hbegins => hne ?_
      rw [← List.nil_append (c :: behind)] at hbegins
      exact List.prefix_nil.mp (prefix_of_prefix_append_cons hbegins hmem)
  | cons d front ih =>
      rw [List.infix_cons_iff, not_or] at hmark
      have hnot : ¬ mark <+: d :: (front ++ c :: behind) := by
        rw [← List.cons_append]
        exact fun hbegins =>
          hmark.1 (prefix_of_prefix_append_cons hbegins hmem)
      rw [List.cons_append, splitAtFirst?_cons hnot, ih hmark.2, Option.map_map]
      rfl

theorem splitAtFirst?_singleton (hmem : c ∉ front) :
    splitAtFirst? [c] (front ++ c :: behind) = some (front, behind) := by
  induction front with
  | nil => exact splitAtFirst?_of_isPrefix ⟨behind, rfl⟩
  | cons d front ih =>
      obtain ⟨hne, hrest⟩ := List.ne_and_not_mem_of_not_mem_cons hmem
      have hnot : ¬ [c] <+: d :: (front ++ c :: behind) := by
        simpa using hne
      rw [List.cons_append, splitAtFirst?_cons hnot, ih hrest]
      rfl

/-- The mark does not occur before its first occurrence. -/
theorem not_infix_of_splitAtFirst? (hne : mark ≠ [])
    (hcut : splitAtFirst? mark text = some (before, after)) :
    ¬ mark <:+: before := by
  induction text generalizing before with
  | nil => simp [splitAtFirst?, hne] at hcut
  | cons c text ih =>
      by_cases hmark : mark <+: c :: text
      · rw [splitAtFirst?_of_isPrefix hmark] at hcut
        cases hcut
        exact mt List.infix_nil.mp hne
      · have htext := eq_append_of_splitAtFirst? hcut
        rw [splitAtFirst?_cons hmark] at hcut
        obtain ⟨⟨inner, rest⟩, hrest, heq⟩ := Option.map_eq_some_iff.mp hcut
        cases heq
        rw [List.infix_cons_iff, not_or]
        refine ⟨fun hbegins => hmark ?_, ih hrest⟩
        rw [htext, List.append_assoc]
        exact hbegins.trans (List.prefix_append _ _)

/-! ## All characters of a kind -/

theorem splitWhere_eq_splitOnP (isMark : Char → Bool) (text : List Char) :
    splitWhere isMark text = text.splitOnP isMark := by
  induction text with
  | nil => exact List.splitOnP_nil.symm
  | cons c text ih =>
      rw [List.splitOnP_cons_eq_if_modifyHead, splitWhere, ih]
      cases hsplit : text.splitOnP isMark with
      | nil =>
          rw [← ih] at hsplit
          exact absurd hsplit (splitWhere_ne_nil isMark text)
      | cons piece pieces => rfl

theorem splitWhere_eq_singleton {isMark : Char → Bool}
    (hnone : ∀ c ∈ text, isMark c = false) : splitWhere isMark text = [text] := by
  rw [splitWhere_eq_splitOnP]
  exact List.splitOnP_eq_singleton hnone

/-- The pieces are made of the characters of the text. -/
theorem subset_of_mem_splitWhere {isMark : Char → Bool} {piece : List Char}
    (hpiece : piece ∈ splitWhere isMark text) : piece ⊆ text := by
  induction text generalizing piece with
  | nil =>
      rw [splitWhere, List.mem_singleton] at hpiece
      rw [hpiece]
      exact List.Subset.refl []
  | cons c text ih =>
      rw [splitWhere] at hpiece
      split at hpiece
      next =>
        rcases List.mem_cons.mp hpiece with rfl | hrest
        · exact List.nil_subset _
        · exact List.subset_cons_of_subset c (ih hrest)
      next =>
        cases hsplit : splitWhere isMark text with
        | nil => exact absurd hsplit (splitWhere_ne_nil isMark text)
        | cons first others =>
            simp only [hsplit, List.mem_cons] at hpiece ih
            rcases hpiece with rfl | hrest
            · exact List.cons_subset_cons c (ih (.inl rfl))
            · exact List.subset_cons_of_subset c (ih (.inr hrest))

/-- Lines that are each ended by a newline, with an empty piece behind them. -/
theorem splitWhere_lines {lines : List (List Char)}
    (hlines : ∀ line ∈ lines, '\n' ∉ line) :
    splitWhere (· = '\n') (lines.flatMap (· ++ ['\n'])) = lines ++ [[]] := by
  rw [splitWhere_eq_splitOnP]
  induction lines with
  | nil => exact List.splitOnP_nil
  | cons line lines ih =>
      obtain ⟨hline, hrest⟩ := List.forall_mem_cons.mp hlines
      have hnone : ∀ c ∈ line, decide (c = '\n') = false := by
        intro c hc
        exact decide_eq_false (by rintro rfl; exact hline hc)
      rw [List.flatMap_cons, List.append_assoc, List.singleton_append,
        List.splitOnP_append_cons_of_forall_mem hnone '\n' (by simp), ih hrest]
      rfl

/-! ## Trimming -/

theorem skipBlanks_append {blanks : List Char}
    (hblanks : ∀ c ∈ blanks, isBlank c = true)
    (hsolid : ∀ c, text.head? = some c → isBlank c = false) :
    skipBlanks (blanks ++ text) = text := by
  rw [skipBlanks, List.dropWhile_append_of_pos hblanks]
  cases text with
  | nil => rfl
  | cons c rest =>
      exact List.dropWhile_cons_of_neg (by simp [hsolid c rfl])

theorem isBlank_head_skipBlanks (text : List Char) (c : Char)
    (hhead : (skipBlanks text).head? = some c) : isBlank c = false := by
  have hnot := List.head?_dropWhile_not isBlank text
  rw [skipBlanks] at hhead
  rw [hhead] at hnot
  exact hnot

/-- No white space stands at either end. -/
structure SolidEnds (text : List Char) : Prop where
  first : ∀ c, text.head? = some c → isBlank c = false
  last : ∀ c, text.getLast? = some c → isBlank c = false

theorem solidEnds_singleton (hsolid : isBlank c = false) : SolidEnds [c] := by
  constructor <;> simpa using hsolid

theorem solidEnds_trim (text : List Char) : SolidEnds (trim text) := by
  constructor
  · intro c hc
    have hbegins : trim text <+: skipBlanks text := by
      rw [trim, ← List.reverse_suffix, List.reverse_reverse]
      exact List.dropWhile_suffix isBlank
    obtain ⟨rest, hrest⟩ := hbegins
    apply isBlank_head_skipBlanks text c
    rw [← hrest, List.head?_append, hc]
    rfl
  · intro c hc
    rw [trim, List.getLast?_reverse] at hc
    exact isBlank_head_skipBlanks _ c hc

theorem trim_subset (text : List Char) : trim text ⊆ text := by
  intro c hc
  rw [trim, List.mem_reverse] at hc
  have hskip := (List.dropWhile_sublist isBlank).subset hc
  rw [List.mem_reverse] at hskip
  exact (List.dropWhile_sublist isBlank).subset hskip

/-- Of text with solid ends only the white space around it is taken off. -/
theorem SolidEnds.trim_append (hends : SolidEnds text)
    (hblanks : ∀ c ∈ before, isBlank c = true) :
    trim (before ++ text) = text := by
  have hlast : ∀ c, text.reverse.head? = some c → isBlank c = false := by
    intro c hc
    rw [List.head?_reverse] at hc
    exact hends.last c hc
  rw [trim, skipBlanks_append hblanks hends.first,
    ← List.nil_append text.reverse, skipBlanks_append (by simp) hlast,
    List.reverse_reverse]

/-- The lines of a written text are read back. -/
theorem contentLines_lines {lines : List (List Char)}
    (hlines : ∀ line ∈ lines, '\n' ∉ line ∧ line ≠ [] ∧ SolidEnds line) :
    contentLines (lines.flatMap (· ++ ['\n'])) = lines := by
  have hlast : trim [] = [] := rfl
  rw [contentLines, splitWhere_lines fun line hline => (hlines line hline).1,
    List.map_append, List.filter_append]
  have htrim : lines.map trim = lines := by
    conv_rhs => rw [← List.map_id lines]
    refine List.map_congr_left fun line hline => ?_
    exact (hlines line hline).2.2.trim_append (List.forall_mem_nil _)
  have hfilter : (lines.filter fun line => !line.isEmpty) = lines :=
    List.filter_eq_self.mpr fun line hline => by
      simpa using (hlines line hline).2.1
  rw [htrim, hfilter]
  simp [hlast]

theorem not_newline_of_mem_contentLines {line : List Char}
    (hline : line ∈ contentLines text) : '\n' ∉ line := by
  rw [contentLines, List.mem_filter, List.mem_map] at hline
  obtain ⟨⟨piece, hpiece, rfl⟩, -⟩ := hline
  intro hmem
  have hmark := not_isMark_of_mem_splitWhere piece hpiece '\n'
    (trim_subset piece hmem)
  simp at hmark

end FormalGrammars.Text
