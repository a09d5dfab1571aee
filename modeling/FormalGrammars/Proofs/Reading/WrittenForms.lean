import FormalGrammars.Proofs.Reading.CapitalTokens

/-!
# Forms written and read back

A form is written with spaces between its symbols, or without them when all
names are single characters.  With spaces its tokens are read back.  Without
them they are, unless a variable comes to stand directly in front of an opening
bracket, which then opens a group.  A right side is read back behind a space
exactly when this is not so: the empty one as a lambda, and no other is spelled
like a lambda.
-/

namespace FormalGrammars

open Text

variable {text body separator token : List Char} {tokens : List (List Char)}
  {c : Char}

/-- When the names are written without spaces, no variable stands directly in
front of an opening bracket. -/
def Form.Legible (form : Form) : Prop :=
  Form.isCompact form = true →
    form.IsChain fun s t => t = .term "(" → s.isVar = false

instance (form : Form) : Decidable (Form.Legible form) :=
  inferInstanceAs (Decidable (_ → List.IsChain _ form))

/-! ## Symbols and their tokens -/

theorem name_symbolOfToken (token : List Char) :
    (symbolOfToken token).name = String.ofList token := by
  unfold symbolOfToken
  split <;> rfl

theorem isVar_symbolOfToken (token : List Char) :
    (symbolOfToken token).isVar = namesVariable token := by
  unfold symbolOfToken
  split
  next hvar => exact hvar.symm
  next hvar => exact (Bool.eq_false_iff.mpr hvar).symm

theorem symbolOfToken_injective : Function.Injective symbolOfToken := by
  intro first second heq
  have hname := congrArg Symbol.name heq
  rw [name_symbolOfToken, name_symbolOfToken] at hname
  exact String.ofList_injective hname

theorem symbolOfToken_eq_openBracket_iff :
    symbolOfToken [c] = .term "(" ↔ c = '(' := by
  have hbracket : symbolOfToken ['('] = .term "(" := by decide +kernel
  rw [← hbracket, symbolOfToken_injective.eq_iff, List.cons.injEq,
    and_iff_left rfl]

/-! ## The written text -/

theorem intercalate_ne_nil (hne : tokens ≠ [])
    (hsome : ∀ token ∈ tokens, token ≠ []) :
    separator.intercalate tokens ≠ [] := by
  cases tokens with
  | nil => exact absurd rfl hne
  | cons token tokens =>
      rw [intercalate_cons]
      exact List.append_ne_nil_of_left_ne_nil (hsome token List.mem_cons_self) _

theorem eq_singleton_of_intercalate (hsome : ∀ token ∈ tokens, token ≠ [])
    (hsingle : separator.intercalate tokens = [c]) : tokens = [[c]] := by
  cases tokens with
  | nil => simp at hsingle
  | cons token tokens =>
      obtain ⟨htoken, hrest⟩ := List.forall_mem_cons.mp hsome
      obtain ⟨d, inner, rfl⟩ := List.exists_cons_of_ne_nil htoken
      rw [intercalate_cons, List.cons_append, List.cons.injEq,
        List.append_eq_nil_iff] at hsingle
      obtain ⟨rfl, rfl, hbehind⟩ := hsingle
      split at hbehind
      next hnil => rw [hnil]
      next hmore =>
        have hnil := (List.append_eq_nil_iff.mp hbehind).2
        exact absurd hnil (intercalate_ne_nil hmore hrest)

theorem not_mem_intercalate (hseparator : c ∉ separator)
    (htokens : ∀ token ∈ tokens, c ∉ token) :
    c ∉ separator.intercalate tokens := by
  induction tokens with
  | nil => simp
  | cons token tokens ih =>
      obtain ⟨htoken, hrest⟩ := List.forall_mem_cons.mp htokens
      rw [intercalate_cons]
      split
      next => simpa using htoken
      next => simpa [htoken, hseparator] using ih hrest

theorem solidEnds_intercalate
    (htokens : ∀ token ∈ tokens, token ≠ [] ∧ SolidEnds token) :
    SolidEnds (separator.intercalate tokens) := by
  induction tokens with
  | nil => exact ⟨by simp, by simp⟩
  | cons token tokens ih =>
      obtain ⟨⟨hne, hends⟩, hrest⟩ := List.forall_mem_cons.mp htokens
      rw [intercalate_cons]
      split
      next => simpa using hends
      next hmore =>
        have hsome : separator.intercalate tokens ≠ [] :=
          intercalate_ne_nil hmore fun token htoken => (hrest token htoken).1
        refine ⟨fun c hc => hends.first c ?_, fun c hc => (ih hrest).last c ?_⟩
        · rwa [List.head?_append_of_ne_nil _ hne] at hc
        · rwa [List.getLast?_append_of_ne_nil _ (by simp [hsome]),
            List.getLast?_append_of_ne_nil _ hsome] at hc

theorem intercalate_map_singleton (text : List Char) :
    [].intercalate (text.map fun c => [c]) = text := by
  induction text with
  | nil => rfl
  | cons c text ih =>
      rw [List.map_cons, intercalate_cons, ih]
      split
      next hnil => rw [List.map_eq_nil_iff.mp hnil]; rfl
      next => rfl

/-- The text between the names. -/
def Form.gap (form : Form) : List Char :=
  if Form.isCompact form then [] else [' ']

theorem toList_text_map (hne : tokens ≠ []) :
    (Form.text (tokens.map symbolOfToken)).toList =
      (Form.gap (tokens.map symbolOfToken)).intercalate tokens := by
  have hnames : (tokens.map symbolOfToken).map (String.toList ∘ Symbol.name) =
      tokens := by
    rw [List.map_map]
    conv_rhs => rw [← List.map_id tokens]
    refine List.map_congr_left fun token _ => ?_
    simp [name_symbolOfToken]
  rw [Form.text, if_neg (by simpa using hne), String.toList_intercalate,
    List.map_map, hnames, Form.gap]
  congr 1
  split <;> rfl

theorem exists_eq_map_singleton
    (hcompact : Form.isCompact (tokens.map symbolOfToken) = true) :
    ∃ names : List Char, tokens = names.map fun c => [c] := by
  induction tokens with
  | nil => exact ⟨[], rfl⟩
  | cons token tokens ih =>
      rw [List.map_cons, Form.isCompact, List.all_cons, Bool.and_eq_true] at hcompact
      obtain ⟨hlength, hrest⟩ := hcompact
      obtain ⟨names, rfl⟩ := ih hrest
      rw [name_symbolOfToken, String.length_ofList, beq_iff_eq,
        List.length_eq_one_iff] at hlength
      obtain ⟨c, rfl⟩ := hlength
      exact ⟨c :: names, rfl⟩

/-- Tokens are read back from their written form exactly when it is legible. -/
theorem CapitalCut.capitalTokens_text_iff (hcut : CapitalCut text tokens)
    (hne : tokens ≠ []) (hends : SolidEnds text) :
    capitalTokens (Form.text (tokens.map symbolOfToken)).toList = tokens ↔
      Form.Legible (tokens.map symbolOfToken) := by
  rw [toList_text_map hne, Form.gap, Form.Legible]
  by_cases hcompact : Form.isCompact (tokens.map symbolOfToken) = true
  · have hsolid := hcut.solidEnds hends.last
    obtain ⟨names, rfl⟩ := exists_eq_map_singleton hcompact
    have hsolid : ∀ c ∈ names, isBlank c = false := fun c hc =>
      (hsolid [c] (List.mem_map_of_mem hc)).first c rfl
    rw [imp_iff_right hcompact, if_pos hcompact, intercalate_map_singleton,
      capitalTokens_eq_map_singleton_iff hsolid, List.map_map, List.isChain_map]
    simp only [Function.comp_apply, symbolOfToken_eq_openBracket_iff,
      isVar_symbolOfToken]
    rfl
  · rw [if_neg hcompact]
    simp [hcompact, hcut.intercalate.eq]

/-! ## Right sides -/

open Convention

/-- What is read as a single character is this character. -/
theorem CapitalCut.eq_singleton (hcut : CapitalCut text [[c]])
    (hends : SolidEnds text) : text = [c] := by
  obtain ⟨blanks, hblanks, rfl⟩ := hcut.exists_blanks hends.first
  cases hlast : blanks.getLast? with
  | none => rw [List.getLast?_eq_none_iff.mp hlast, List.append_nil]
  | some d =>
      have hsolid := hends.last d (by rw [List.getLast?_append, hlast]; rfl)
      rw [hblanks d (List.mem_of_getLast? hlast)] at hsolid
      cases hsolid

/-- A right side is empty, or it has the tokens of a text that does not spell a
lambda. -/
theorem readRightSide_cases (alternative : List Char) :
    readRightSide .capitals alternative = [] ∨
      ∃ tokens, tokens ≠ [] ∧ CapitalCut (trim alternative) tokens ∧
        trim alternative ∉ lambdaSpellings ∧
        readRightSide .capitals alternative = tokens.map symbolOfToken := by
  by_cases hlambda : trim alternative ∈ lambdaSpellings
  · exact .inl (if_pos hlambda)
  · have hcut := capitalCut_capitalTokens (trim alternative)
    have heq : readRightSide .capitals alternative =
        (capitalTokens (trim alternative)).map symbolOfToken := by
      rw [readRightSide, if_neg hlambda, readForm, Convention.tokens]
    have hne : capitalTokens (trim alternative) ≠ [] := by
      intro hnil
      rw [hnil] at hcut
      have hempty : trim alternative = [] := by
        cases htrim : trim alternative with
        | nil => rfl
        | cons c rest =>
            have hsolid := (solidEnds_trim alternative).first c (by rw [htrim]; rfl)
            rw [htrim] at hcut
            rw [hcut.forall_isBlank c List.mem_cons_self] at hsolid
            cases hsolid
      rw [hempty] at hlambda
      exact hlambda List.mem_cons_self
    exact .inr ⟨_, hne, hcut, hlambda, heq⟩

/-- The written text of the right side that an alternative spells. -/
def spelling (alternative : List Char) : List Char :=
  (Form.text (readRightSide .capitals alternative)).toList

theorem spelling_of_nil {alternative : List Char}
    (hnil : readRightSide .capitals alternative = []) :
    spelling alternative = ['λ'] := by
  rw [spelling, hnil]
  rfl

theorem solidEnds_spelling (alternative : List Char) :
    spelling alternative ≠ [] ∧ SolidEnds (spelling alternative) := by
  rcases readRightSide_cases alternative with hnil | ⟨tokens, hne, hcut, -, heq⟩
  · rw [spelling_of_nil hnil]
    exact ⟨List.cons_ne_nil _ _, solidEnds_singleton (by decide +kernel)⟩
  · have hsolid := hcut.solidEnds (solidEnds_trim alternative).last
    rw [spelling, heq, toList_text_map hne]
    exact ⟨intercalate_ne_nil hne hcut.ne_nil, solidEnds_intercalate
      fun token htoken => ⟨hcut.ne_nil token htoken, hsolid token htoken⟩⟩

theorem not_mem_spelling {alternative : List Char} (hc : c ∉ alternative)
    (hspace : c ≠ ' ') (hlambda : c ≠ 'λ') : c ∉ spelling alternative := by
  rcases readRightSide_cases alternative with hnil | ⟨tokens, hne, hcut, -, heq⟩
  · rw [spelling_of_nil hnil]
    simpa using hlambda
  · rw [spelling, heq, toList_text_map hne]
    refine not_mem_intercalate ?_ fun token htoken hmem => hc ?_
    · unfold Form.gap
      split
      next => simp
      next => simpa using hspace
    · exact trim_subset alternative ((hcut.infix_of_mem token htoken).subset hmem)

theorem spelling_not_mem_lambdaSpellings {alternative : List Char}
    (hcut : CapitalCut (trim alternative) tokens) (hne : tokens ≠ [])
    (hlambda : trim alternative ∉ lambdaSpellings)
    (heq : readRightSide .capitals alternative = tokens.map symbolOfToken) :
    spelling alternative ∉ lambdaSpellings := by
  intro hmem
  have hsome := (solidEnds_spelling alternative).1
  obtain ⟨c, hc, hspelled⟩ :
      ∃ c, [c] ∈ lambdaSpellings ∧ spelling alternative = [c] := by
    simp only [lambdaSpellings, List.mem_cons, List.not_mem_nil, or_false] at hmem ⊢
    rcases hmem with hnil | hc | hc
    · exact absurd hnil hsome
    · exact ⟨'λ', by simp, hc⟩
    · exact ⟨'ε', by simp, hc⟩
  rw [spelling, heq, toList_text_map hne] at hspelled
  rw [eq_singleton_of_intercalate hcut.ne_nil hspelled] at hcut
  rw [hcut.eq_singleton (solidEnds_trim alternative)] at hlambda
  exact hlambda hc

/-- A right side is read back from its text, behind a space, exactly when it is
legible. -/
theorem readRightSide_spelling_iff (alternative : List Char) :
    readRightSide .capitals (' ' :: spelling alternative) =
        readRightSide .capitals alternative ↔
      Form.Legible (readRightSide .capitals alternative) := by
  have hends := (solidEnds_spelling alternative).2
  have hspace : ∀ c ∈ [' '], isBlank c = true :=
    List.forall_mem_singleton.mpr isBlank_space
  have htrim := hends.trim_append hspace
  rw [List.singleton_append] at htrim
  rcases readRightSide_cases alternative with
    hnil | ⟨tokens, hne, hcut, hlambda, heq⟩
  · rw [hnil, readRightSide, htrim, spelling_of_nil hnil]
    simp [lambdaSpellings, Form.Legible]
  · have hnot := spelling_not_mem_lambdaSpellings hcut hne hlambda heq
    rw [readRightSide, htrim, if_neg hnot, readForm, heq, spelling, heq,
      symbolOfToken_injective.list_map.eq_iff]
    exact hcut.capitalTokens_text_iff hne (solidEnds_trim alternative)

end FormalGrammars
