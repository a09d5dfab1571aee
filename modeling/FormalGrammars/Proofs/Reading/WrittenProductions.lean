import FormalGrammars.Proofs.Reading.GrammarText
import FormalGrammars.Proofs.Reading.WrittenForms

/-!
# Productions written and read back

A production that was read is written on a line of its own, and the line is cut
again where its first arrow stands.  This is the arrow that was written, unless
there is one in the name of the head or an ASCII arrow in the right side.  A head
whose brackets do not match takes in what is written behind it.  A line that is
cut in another place is refused, or gives productions with other heads, and these
would be misread in their turn.
-/

namespace FormalGrammars

open Text Convention

variable {name token text spelled left rest front behind line : List Char}
  {tokens alternatives : List (List Char)} {c : Char}

/-! ## Names of heads -/

/-- A capital with a bracket group that has not ended. -/
inductive OpenGroup : List Char → Prop where
  | mk {c : Char} {inner : List Char} (hsolid : isBlank c = false)
      (hcapital : isCapital c = true) (hopen : StaysOpen 0 inner) :
      OpenGroup (c :: '(' :: inner)

/-- A token that names a variable. -/
inductive HeadName : List Char → Prop where
  | letter {c : Char} (hsolid : isBlank c = false)
      (hcapital : isCapital c = true) : HeadName [c]
  | closed {c : Char} {inner : List Char} (hsolid : isBlank c = false)
      (hcapital : isCapital c = true) (hinner : Closes 0 inner) :
      HeadName (c :: '(' :: (inner ++ [')']))
  | unclosed {name : List Char} (hopen : OpenGroup name) : HeadName name

/-- The brackets of the name match, and no arrow is part of it. -/
def LegibleName (name : List Char) : Prop :=
  name.count '(' = name.count ')' ∧ '→' ∉ name

instance (name : List Char) : Decidable (LegibleName name) :=
  inferInstanceAs (Decidable (_ ∧ _))

theorem ne_of_isCapital (hcapital : isCapital c = true) :
    c ≠ '(' ∧ c ≠ ')' ∧ c ≠ '→' := by
  refine ⟨?_, ?_, ?_⟩ <;>
  · rintro rfl
    revert hcapital
    decide +kernel

namespace OpenGroup

theorem capitalTokens_eq (hopen : OpenGroup name) : capitalTokens name = [name] := by
  obtain ⟨hsolid, hcapital, hinner⟩ := hopen
  exact (CapitalCut.unclosed hsolid hcapital hinner).eq

theorem concat (hopen : OpenGroup name) (hc : c ≠ ')') : OpenGroup (name ++ [c]) := by
  obtain ⟨hsolid, hcapital, hinner⟩ := hopen
  exact .mk hsolid hcapital (hinner.concat hc)

/-- There is an opening bracket too many. -/
theorem count_lt (hopen : OpenGroup name) : name.count ')' < name.count '(' := by
  obtain ⟨-, hcapital, hinner⟩ := hopen
  have hle := hinner _ (List.prefix_refl _)
  obtain ⟨hbracket, hclose, -⟩ := ne_of_isCapital hcapital
  rw [List.count_cons_of_ne hclose, List.count_cons_of_ne hbracket,
    List.count_cons_self, List.count_cons_of_ne (by decide)]
  omega

theorem not_legibleName (hopen : OpenGroup name) : ¬ LegibleName name :=
  fun hlegible => Nat.ne_of_gt hopen.count_lt hlegible.1

end OpenGroup

theorem CapitalCut.headName_of_mem (hcut : CapitalCut text tokens) :
    ∀ token ∈ tokens, namesVariable token = true → HeadName token := by
  induction hcut with
  | nil => simp
  | blank _ _ ih => exact ih
  | single hsolid _ _ ih =>
      refine List.forall_mem_cons.mpr ⟨fun hcapital => .letter hsolid ?_, ih⟩
      simpa [namesVariable] using hcapital
  | closed hsolid hcapital hinner _ ih =>
      exact List.forall_mem_cons.mpr ⟨fun _ => .closed hsolid hcapital hinner, ih⟩
  | unclosed hsolid hcapital hopen =>
      exact List.forall_mem_singleton.mpr fun _ =>
        .unclosed (.mk hsolid hcapital hopen)

namespace HeadName

theorem head_solid (hname : HeadName name) :
    name ≠ [] ∧ ∀ c, name.head? = some c → isBlank c = false := by
  cases hname with
  | letter hsolid _ => simpa using hsolid
  | closed hsolid _ _ => simpa using hsolid
  | unclosed hopen =>
      obtain ⟨hsolid, -, -⟩ := hopen
      simpa using hsolid

theorem matched_or_open (hname : HeadName name) :
    name.count '(' = name.count ')' ∨ OpenGroup name := by
  cases hname with
  | letter _ hcapital =>
      obtain ⟨hopen, hclose, -⟩ := ne_of_isCapital hcapital
      rw [List.count_cons_of_ne hopen, List.count_cons_of_ne hclose]
      exact .inl rfl
  | closed _ hcapital hinner =>
      obtain ⟨hopen, hclose, -⟩ := ne_of_isCapital hcapital
      have hbalanced := hinner.balanced
      refine .inl ?_
      rw [List.count_cons_of_ne hopen, List.count_cons_of_ne hclose]
      simp
      omega
  | unclosed hopen => exact .inr hopen

/-- A head whose brackets match is read in front of a space. -/
theorem capitalTokens_append (hname : HeadName name)
    (hmatch : name.count '(' = name.count ')') (rest : List Char) :
    capitalTokens (name ++ ' ' :: rest) = name :: capitalTokens rest := by
  have hbehind : CapitalCut (' ' :: rest) (capitalTokens rest) :=
    .blank isBlank_space (capitalCut_capitalTokens rest)
  cases hname with
  | letter hsolid _ => exact (CapitalCut.single hsolid (by simp) hbehind).eq
  | closed hsolid hcapital hinner =>
      simpa using (CapitalCut.closed hsolid hcapital hinner hbehind).eq
  | unclosed hopen => exact absurd hmatch (Nat.ne_of_gt hopen.count_lt)

/-- An arrow in a name stands behind the bracket that opens its group. -/
theorem eq_of_arrow {body : List Char} (hcapital : isCapital c = true)
    (heq : front ++ '→' :: behind = c :: '(' :: body) :
    ∃ inner, front = c :: '(' :: inner ∧ inner ++ '→' :: behind = body := by
  have harrow := (ne_of_isCapital hcapital).2.2
  match front with
  | [] => exact absurd (List.cons.inj heq).1.symm harrow
  | [d] => simp at heq
  | d :: e :: inner =>
      simp only [List.cons_append, List.cons.injEq] at heq
      obtain ⟨rfl, rfl, hbody⟩ := heq
      exact ⟨inner, rfl, hbody⟩

/-- In front of an arrow inside a name the group has not ended. -/
theorem open_before_arrow (hname : HeadName (front ++ '→' :: behind)) :
    OpenGroup front := by
  generalize hwhole : front ++ '→' :: behind = whole at hname
  cases hname with
  | letter _ hcapital =>
      have harrow := (ne_of_isCapital hcapital).2.2
      cases front with
      | nil => exact absurd (List.cons.inj hwhole).1.symm harrow
      | cons d front => simp at hwhole
  | closed hsolid hcapital hinner =>
      obtain ⟨inner, rfl, hbody⟩ := eq_of_arrow hcapital hwhole
      rcases List.prefix_concat_iff.mp ⟨_, hbody⟩ with rfl | hinside
      · simp at hbody
      · exact .mk hsolid hcapital (hinner.staysOpen.of_isPrefix hinside)
  | unclosed hopen =>
      obtain ⟨hsolid, hcapital, hinner⟩ := hopen
      obtain ⟨inner, rfl, hbody⟩ := eq_of_arrow hcapital hwhole
      exact .mk hsolid hcapital (hinner.of_isPrefix ⟨_, hbody⟩)

end HeadName

/-! ## Where a line is cut -/

def asciiArrow : List Char := ['-', '>']

/-- A production with the name of its head and the text of its right side. -/
def writtenLine (name spelled : List Char) : List Char :=
  name ++ ' ' :: '→' :: ' ' :: spelled

theorem splitAtFirst?_writtenLine (hname : ¬ asciiArrow <:+: name)
    (spelled : List Char) :
    splitAtFirst? asciiArrow (writtenLine name spelled) =
      (splitAtFirst? asciiArrow spelled).map fun parts =>
        (writtenLine name parts.1, parts.2) := by
  have hne : asciiArrow ≠ [] := List.cons_ne_nil _ _
  have hnil : ¬ asciiArrow <:+: [] := mt List.infix_nil.mp hne
  have harrow : splitAtFirst? asciiArrow ('→' :: ' ' :: spelled) =
      (splitAtFirst? asciiArrow spelled).map fun parts =>
        ('→' :: ' ' :: parts.1, parts.2) := by
    rw [← List.nil_append ('→' :: ' ' :: spelled),
      splitAtFirst?_append_cons (by decide) hnil hne,
      ← List.nil_append (' ' :: spelled),
      splitAtFirst?_append_cons (by decide) hnil hne, Option.map_map]
    rfl
  rw [writtenLine, splitAtFirst?_append_cons (by decide) hname hne, harrow,
    Option.map_map]
  rfl

theorem splitProductionLine?_eq (line : List Char) :
    splitProductionLine? line =
      (splitAtFirst? asciiArrow line <|> splitAtFirst? ['→'] line).map
        fun (left, right) => (left, splitWhere (· = '|') right) :=
  rfl

theorem splitProductionLine?_of_asciiArrow (hname : ¬ asciiArrow <:+: name)
    (hspelled : asciiArrow <:+: spelled) :
    ∃ more alternatives, splitProductionLine? (writtenLine name spelled) =
      some (writtenLine name more, alternatives) := by
  obtain ⟨⟨more, right⟩, hsplit⟩ := Option.ne_none_iff_exists'.mp
    (mt splitAtFirst?_eq_none_iff.mp (not_not.mpr hspelled))
  refine ⟨more, splitWhere (· = '|') right, ?_⟩
  have hcut := splitAtFirst?_writtenLine hname spelled
  rw [hsplit] at hcut
  rw [splitProductionLine?_eq, hcut]
  rfl

theorem splitProductionLine?_of_arrow (hname : ¬ asciiArrow <:+: name)
    (hspelled : ¬ asciiArrow <:+: spelled) (hfront : '→' ∉ front)
    (hline : writtenLine name spelled = front ++ '→' :: behind) :
    splitProductionLine? (writtenLine name spelled) =
      some (front, splitWhere (· = '|') behind) := by
  have hcut := splitAtFirst?_writtenLine hname spelled
  rw [splitAtFirst?_eq_none_iff.mpr hspelled] at hcut
  rw [splitProductionLine?_eq, hcut, hline, splitAtFirst?_singleton hfront]
  rfl

theorem splitProductionLine?_of_legible (hname : ¬ asciiArrow <:+: name)
    (hspelled : ¬ asciiArrow <:+: spelled) (harrow : '→' ∉ name) :
    splitProductionLine? (writtenLine name spelled) =
      some (name ++ [' '], splitWhere (· = '|') (' ' :: spelled)) := by
  refine splitProductionLine?_of_arrow hname hspelled ?_ ?_
  · simpa using harrow
  · simp [writtenLine]

/-- What stands before the arrow of a line, and between the bars behind it. -/
theorem splitProductionLine?_parts
    (hsplit : splitProductionLine? line = some (left, alternatives)) :
    left ⊆ line ∧ ¬ asciiArrow <:+: left ∧
      ∀ alternative ∈ alternatives, alternative ⊆ line ∧ '|' ∉ alternative := by
  rw [splitProductionLine?_eq] at hsplit
  obtain ⟨⟨before, right⟩, hparts, heq⟩ := Option.map_eq_some_iff.mp hsplit
  obtain ⟨rfl, rfl⟩ := Prod.mk.inj heq
  have hpieces : right ⊆ line → ∀ alternative ∈ splitWhere (· = '|') right,
      alternative ⊆ line ∧ '|' ∉ alternative := by
    intro hright alternative hmem
    refine ⟨List.Subset.trans (subset_of_mem_splitWhere hmem) hright, fun hbar => ?_⟩
    have hnot := not_isMark_of_mem_splitWhere alternative hmem '|' hbar
    simp at hnot
  cases hascii : splitAtFirst? asciiArrow line with
  | some parts =>
      rw [hascii] at hparts
      obtain rfl : parts = (before, right) := Option.some.inj hparts
      have hline := eq_append_of_splitAtFirst? hascii
      refine ⟨?_, not_infix_of_splitAtFirst? (List.cons_ne_nil _ _) hascii,
        hpieces ?_⟩
      · rw [hline]
        simp
      · rw [hline]
        simp
  | none =>
      rw [hascii] at hparts
      have hline := eq_append_of_splitAtFirst? hparts
      have hleft : before <:+: line := ⟨[], ['→'] ++ right, by simp [hline]⟩
      refine ⟨hleft.subset, fun hbefore => ?_, hpieces ?_⟩
      · exact splitAtFirst?_eq_none_iff.mp hascii (hbefore.trans hleft)
      · rw [hline]
        simp

/-! ## What a line is read as -/

/-- Without another token behind it, the head takes in the arrow. -/
theorem HeadName.token_of_writtenLine (hname : HeadName name)
    (htoken : capitalTokens (writtenLine name rest) = [token]) :
    ∃ more, token = name ++ ' ' :: '→' :: more := by
  have hcut := htoken ▸ capitalCut_capitalTokens (writtenLine name rest)
  obtain ⟨hne, hsolid⟩ := hname.head_solid
  obtain ⟨blanks, hblanks, htext⟩ := hcut.exists_blanks fun c hc =>
    hsolid c (by rwa [writtenLine, List.head?_append_of_ne_nil _ hne] at hc)
  have harrow : '→' ∉ blanks := fun hmem => by
    have hblank : isBlank '→' = false := by decide +kernel
    rw [hblanks _ hmem] at hblank
    cases hblank
  rcases List.append_eq_append_iff.mp htext with
    ⟨inside, htoken, hrest⟩ | ⟨outside, -, hrest⟩
  · match inside with
    | [] =>
        rw [List.nil_append] at hrest
        exact (harrow (by simp [← hrest])).elim
    | [d] =>
        simp only [List.cons_append, List.nil_append, List.cons.injEq] at hrest
        exact (harrow (by simp [← hrest.2])).elim
    | d :: e :: more =>
        simp only [List.cons_append, List.cons.injEq] at hrest
        obtain ⟨rfl, rfl, -⟩ := hrest
        exact ⟨more, htoken⟩
  · exact (harrow (by simp [hrest])).elim

/-- A head that is not legible is read as another one that is not. -/
theorem HeadName.misread (hname : HeadName name) (hascii : ¬ asciiArrow <:+: name)
    (hbad : ¬ LegibleName name)
    (hsplit : splitProductionLine? (writtenLine name spelled) =
      some (left, alternatives))
    (htoken : capitalTokens left = [token]) :
    ¬ LegibleName token ∧ token ≠ name := by
  by_cases hspelled : asciiArrow <:+: spelled
  · -- The cut is behind the written arrow, which becomes part of the name.
    obtain ⟨more, others, hline⟩ :=
      splitProductionLine?_of_asciiArrow hascii hspelled
    rw [hsplit] at hline
    cases hline
    obtain ⟨inside, rfl⟩ := hname.token_of_writtenLine htoken
    exact ⟨fun hlegible => hlegible.2 (by simp), by simp⟩
  by_cases harrow : '→' ∈ name
  · -- The cut is inside the name, where its group is still open.
    obtain ⟨front, behind, rfl, hfront⟩ := List.eq_append_cons_of_mem harrow
    have hopen := hname.open_before_arrow
    have hwritten : writtenLine (front ++ '→' :: behind) spelled =
        front ++ '→' :: writtenLine behind spelled := by
      simp [writtenLine]
    have hline := splitProductionLine?_of_arrow hascii hspelled hfront hwritten
    rw [hsplit] at hline
    cases hline
    rw [hopen.capitalTokens_eq] at htoken
    cases htoken
    exact ⟨hopen.not_legibleName, by simp⟩
  · -- The cut is at the written arrow, and the space in front of it is in the
    -- group that is not closed.
    have hunmatched : name.count '(' ≠ name.count ')' :=
      fun hmatch => hbad ⟨hmatch, harrow⟩
    have hopen := hname.matched_or_open.resolve_left hunmatched
    have hlonger : OpenGroup (name ++ [' ']) := hopen.concat (by decide)
    have hline := splitProductionLine?_of_legible hascii hspelled harrow
    rw [hsplit] at hline
    cases hline
    rw [hlonger.capitalTokens_eq] at htoken
    cases htoken
    exact ⟨hlonger.not_legibleName, by simp⟩

/-! ## Productions -/

namespace Production

variable {p q : Production} {alternative : List Char}

/-- The production was read from a line: its head is named by a token in front
of the arrow, and its right side is spelled between two bars. -/
structure ReadFrom (p : Production) (name alternative : List Char) : Prop where
  lhs_eq : p.lhs = [symbolOfToken name]
  rhs_eq : p.rhs = readRightSide .capitals alternative
  headName : HeadName name
  no_arrow : ¬ asciiArrow <:+: name
  no_newline : '\n' ∉ name ∧ '\n' ∉ alternative
  no_bar : '|' ∉ alternative

/-- The name of the head can be told from what is written behind it. -/
def HeadLegible (p : Production) : Prop :=
  ∀ s ∈ p.lhs, LegibleName s.name.toList

/-- Written on a line, the production is not taken for another one. -/
structure Legible (p : Production) : Prop where
  head : p.HeadLegible
  no_arrow : ¬ asciiArrow <:+: (Form.text p.rhs).toList
  rhs : Form.Legible p.rhs

/-- The production that is read when the line is cut where it should be. -/
def reread (p : Production) : Production :=
  ⟨p.lhs, readRightSide .capitals (' ' :: (Form.text p.rhs).toList)⟩

instance (p : Production) : Decidable p.HeadLegible :=
  inferInstanceAs (Decidable (∀ s ∈ p.lhs, _))

theorem legible_iff : p.Legible ↔ p.HeadLegible ∧
    ¬ asciiArrow <:+: (Form.text p.rhs).toList ∧ Form.Legible p.rhs :=
  ⟨fun hp => ⟨hp.head, hp.no_arrow, hp.rhs⟩,
    fun ⟨hhead, harrow, hrhs⟩ => ⟨hhead, harrow, hrhs⟩⟩

instance (p : Production) : Decidable p.Legible :=
  decidable_of_iff _ legible_iff.symm

/-- A variable on the left is read as the only token there. -/
theorem token_of_hasHead (hhead : p.hasHead = true)
    (hlhs : p.lhs = capitals.readForm left) :
    ∃ token, capitalTokens left = [token] ∧ p.lhs = [symbolOfToken token] ∧
      namesVariable token = true := by
  obtain ⟨s, hs⟩ := Option.isSome_iff_exists.mp hhead
  obtain ⟨hsingle, hvar⟩ := head?_eq_some_iff.mp hs
  rw [hlhs] at hsingle
  obtain ⟨token, htoken, rfl⟩ := List.map_eq_singleton_iff.mp hsingle
  rw [isVar_symbolOfToken] at hvar
  exact ⟨token, htoken, hlhs.trans hsingle, hvar⟩

theorem exists_readFrom (hline : '\n' ∉ line)
    (hp : p ∈ Grammar.lineProductions .capitals line) (hallowed : p.Allowed) :
    ∃ name alternative, p.ReadFrom name alternative := by
  rw [Grammar.lineProductions] at hp
  split at hp
  next => cases hp
  next left alternatives hsplit =>
    obtain ⟨alternative, hmem, rfl⟩ := List.mem_map.mp hp
    obtain ⟨hleft, hascii, hpieces⟩ := splitProductionLine?_parts hsplit
    obtain ⟨hinside, hbar⟩ := hpieces alternative hmem
    obtain ⟨token, htoken, hlhs, hvar⟩ :=
      token_of_hasHead hallowed.1 (p := .read .capitals left alternative) rfl
    have hcut := htoken ▸ capitalCut_capitalTokens left
    have hwithin := hcut.infix_of_mem token List.mem_cons_self
    exact ⟨token, alternative, hlhs, rfl,
      hcut.headName_of_mem token List.mem_cons_self hvar,
      fun harrow => hascii (harrow.trans hwithin),
      ⟨fun hmem => hline (hleft (hwithin.subset hmem)),
        fun hmem => hline (hinside hmem)⟩, hbar⟩

namespace ReadFrom

theorem toList_text (hp : p.ReadFrom name alternative) :
    p.text.toList = writtenLine name (spelling alternative) := by
  have hleft : (Form.text [symbolOfToken name]).toList = name := by
    simp [Form.text, name_symbolOfToken]
  rw [Production.text, String.toList_append, String.toList_append, hp.lhs_eq,
    hp.rhs_eq, hleft, writtenLine, spelling]
  simp

theorem headLegible_iff (hp : p.ReadFrom name alternative) :
    p.HeadLegible ↔ LegibleName name := by
  rw [HeadLegible, hp.lhs_eq, List.forall_mem_singleton, name_symbolOfToken,
    String.toList_ofList]

/-- The line of a production is one line, and trimming leaves it as it is. -/
theorem line_text (hp : p.ReadFrom name alternative) :
    '\n' ∉ p.text.toList ∧ p.text.toList ≠ [] ∧ SolidEnds p.text.toList := by
  obtain ⟨hne, hsolid⟩ := hp.headName.head_solid
  obtain ⟨hsome, hends⟩ := solidEnds_spelling alternative
  have hspelled := not_mem_spelling hp.no_newline.2 (by decide) (by decide)
  rw [hp.toList_text, writtenLine]
  refine ⟨?_, by simp, fun c hc => hsolid c ?_, fun c hc => hends.last c ?_⟩
  · simp [hp.no_newline.1, hspelled]
  · rwa [List.head?_append_of_ne_nil _ hne] at hc
  · rw [List.getLast?_append_of_ne_nil _ (by simp)] at hc
    simpa [List.getLast?_cons, List.getLast?_eq_some_getLast hsome] using hc

theorem spelling_eq (hp : p.ReadFrom name alternative) :
    spelling alternative = (Form.text p.rhs).toList := by
  rw [spelling, hp.rhs_eq]

theorem reread_eq_iff (hp : p.ReadFrom name alternative) :
    p.reread = p ↔ Form.Legible p.rhs := by
  have hiff := readRightSide_spelling_iff alternative
  rw [hp.spelling_eq, ← hp.rhs_eq] at hiff
  rw [← hiff, reread]
  exact ⟨fun heq => congrArg Production.rhs heq,
    fun heq => congrArg (Production.mk p.lhs) heq⟩

/-- With a legible head and no ASCII arrow, the line gives one production with
this head. -/
theorem lineProductions_eq (hp : p.ReadFrom name alternative)
    (hhead : p.HeadLegible)
    (harrow : ¬ asciiArrow <:+: (Form.text p.rhs).toList) :
    Grammar.lineProductions .capitals p.text.toList = [p.reread] := by
  rw [← hp.spelling_eq] at harrow
  have hlegible := hp.headLegible_iff.mp hhead
  have hbar := not_mem_spelling hp.no_bar (by decide) (by decide)
  have hpieces : splitWhere (· = '|') (' ' :: spelling alternative) =
      [' ' :: spelling alternative] := by
    refine splitWhere_eq_singleton fun c hc => decide_eq_false ?_
    rintro rfl
    simp [hbar] at hc
  have htokens := hp.headName.capitalTokens_append hlegible.1 []
  rw [capitalTokens] at htokens
  rw [Grammar.lineProductions, hp.toList_text,
    splitProductionLine?_of_legible hp.no_arrow harrow hlegible.2, hpieces]
  simp [Production.read, reread, readForm, Convention.tokens, htokens, hp.lhs_eq,
    hp.spelling_eq]

/-- With a legible head, an ASCII arrow in the right side makes a line that is
refused. -/
theorem not_readable (hp : p.ReadFrom name alternative) (hhead : p.HeadLegible)
    (harrow : asciiArrow <:+: (Form.text p.rhs).toList) :
    ¬ Grammar.Readable .capitals p.text.toList := by
  intro hline
  rw [← hp.spelling_eq] at harrow
  obtain ⟨q, qs, hcons⟩ := List.exists_cons_of_ne_nil
    (Grammar.lineProductions_ne_nil .capitals hline.hasArrow)
  have hq : q ∈ Grammar.lineProductions .capitals p.text.toList :=
    hcons ▸ List.mem_cons_self
  obtain ⟨more, alternatives, hsplit⟩ :=
    splitProductionLine?_of_asciiArrow hp.no_arrow harrow
  rw [← hp.toList_text] at hsplit
  obtain ⟨token, htoken, -, -⟩ := token_of_hasHead (hline.allowed q hq).1
    (Grammar.lhs_of_mem_lineProductions hsplit hq)
  obtain ⟨inside, hname⟩ := hp.headName.token_of_writtenLine htoken
  rw [writtenLine, hp.headName.capitalTokens_append
    (hp.headLegible_iff.mp hhead).1] at htoken
  rw [(List.cons.inj htoken).1] at hname
  simp at hname

/-- A head that is not legible is not read, and neither is a legible one in its
place. -/
theorem misread (hp : p.ReadFrom name alternative) (hhead : ¬ p.HeadLegible)
    (hline : Grammar.Readable .capitals p.text.toList)
    (hq : q ∈ Grammar.lineProductions .capitals p.text.toList) :
    ¬ q.HeadLegible ∧ q.lhs ≠ p.lhs := by
  obtain ⟨⟨left, alternatives⟩, hsplit⟩ :=
    Option.isSome_iff_exists.mp hline.hasArrow
  obtain ⟨token, htoken, hlhs, -⟩ := token_of_hasHead (hline.allowed q hq).1
    (Grammar.lhs_of_mem_lineProductions hsplit hq)
  rw [hp.toList_text] at hsplit
  obtain ⟨hbad, hne⟩ := hp.headName.misread hp.no_arrow
    (mt hp.headLegible_iff.mpr hhead) hsplit htoken
  constructor
  · rw [HeadLegible, hlhs, List.forall_mem_singleton, name_symbolOfToken,
      String.toList_ofList]
    exact hbad
  · rw [hlhs, hp.lhs_eq]
    exact fun heq => hne (symbolOfToken_injective (List.cons.inj heq).1)

end ReadFrom

end Production

end FormalGrammars
