import FormalGrammars.Grammar.Lexing
import FormalGrammars.Iteration
import FormalGrammars.Proofs.Editing
import FormalGrammars.Proofs.Reading.Cutting
import Mathlib.Data.List.MinMax
import Mathlib.Data.List.TakeWhile

/-!
# Cutting takes the longest name

An input is cut from the left.  Behind the white space at each place stands the
next token: the longest name that the text goes on with or, where there is none,
a single character.  This determines the tokens.  A lexer that looks for the
longest name in rounds comes to its end, because no name is empty, and it finds
the same tokens.

When no name contains white space, a name between blanks is the longest one at
its place even if others begin with it or are its beginnings.  So names that are
written with spaces between them are read back.
-/

namespace FormalGrammars

open Text

variable {names tokens : List (List Char)} {text rest token other : List Char}
  {c : Char}

/-! ## The next token -/

/-- The longest name that the text goes on with, or a single character where
there is none. -/
inductive NextToken (names : List (List Char)) (text : List Char) :
    List Char → Prop where
  | known {name : List Char} (hmem : name ∈ names) (hbegins : name <+: text)
      (hlongest : ∀ other ∈ names, other <+: text →
        other.length ≤ name.length) : NextToken names text name
  | single {c : Char} {rest : List Char} (htext : text = c :: rest)
      (hnone : ∀ name ∈ names, ¬ name <+: text) : NextToken names text [c]

namespace NextToken

theorem ne_nil (hnames : [] ∉ names) (htoken : NextToken names text token) :
    token ≠ [] := by
  cases htoken with
  | known hmem _ _ => exact fun hnil => hnames (hnil ▸ hmem)
  | single _ _ => exact List.cons_ne_nil _ _

theorem unique (hfirst : NextToken names text token)
    (hsecond : NextToken names text other) : token = other := by
  cases hfirst with
  | known hmem hbegins hlongest =>
      cases hsecond with
      | known hmem' hbegins' hlongest' =>
          have hle := hlongest' _ hmem hbegins
          have hge := hlongest _ hmem' hbegins'
          exact (List.prefix_of_prefix_length_le hbegins hbegins' hle).eq_of_length
            (Nat.le_antisymm hle hge)
      | single _ hnone => exact absurd hbegins (hnone _ hmem)
  | single htext hnone =>
      cases hsecond with
      | known hmem hbegins _ => exact absurd hbegins (hnone _ hmem)
      | single htext' _ =>
          rw [htext] at htext'
          cases htext'
          rfl

end NextToken

/-- The beginning of a text with the length of its next token is this token,
unless a name is empty. -/
theorem nextToken_take (hnames : [] ∉ names) (htext : text ≠ []) :
    NextToken names text (text.take (tokenLength names text)) := by
  unfold tokenLength
  rw [List.foldl_max]
  cases hmax : ((names.filter
      fun name => name.isPrefixOf text).map List.length).max? with
  | none =>
      rw [List.max?_eq_none_iff, List.map_eq_nil_iff,
        List.filter_eq_nil_iff] at hmax
      obtain ⟨c, rest, rfl⟩ := List.exists_cons_of_ne_nil htext
      refine .single rfl fun name hname hbegins => ?_
      exact hmax name hname (List.isPrefixOf_iff_prefix.mpr hbegins)
  | some longest =>
      obtain ⟨hlongest, hall⟩ := List.max?_eq_some_iff.mp hmax
      obtain ⟨name, hfound, rfl⟩ := List.mem_map.mp hlongest
      obtain ⟨hname, hbegins⟩ := List.mem_filter.mp hfound
      have hbegins := List.isPrefixOf_iff_prefix.mp hbegins
      have hpos : 0 < name.length :=
        List.length_pos_iff.mpr fun hnil => hnames (hnil ▸ hname)
      rw [Option.getD_some, Nat.max_eq_right hpos,
        ← List.prefix_iff_eq_take.mp hbegins]
      refine .known hname hbegins fun other hother hstarts => ?_
      exact hall _ (List.mem_map_of_mem (List.mem_filter.mpr
        ⟨hother, List.isPrefixOf_iff_prefix.mpr hstarts⟩))

/-! ## The tokens of a text -/

/-- The text is white space and, behind more of it, the next token and a text
that is cut in turn. -/
inductive LexCut (names : List (List Char)) :
    List Char → List (List Char) → Prop where
  | nil {blanks : List Char} (hblanks : ∀ c ∈ blanks, isBlank c = true) :
      LexCut names blanks []
  | cons {blanks token rest : List Char} {tokens : List (List Char)}
      (hblanks : ∀ c ∈ blanks, isBlank c = true)
      (hsolid : ∀ c, (token ++ rest).head? = some c → isBlank c = false)
      (htoken : NextToken names (token ++ rest) token)
      (hrest : LexCut names rest tokens) :
      LexCut names (blanks ++ token ++ rest) (token :: tokens)

theorem lexCut_lexTokens (hnames : [] ∉ names) (text : List Char) :
    LexCut names text (lexTokens names text) := by
  fun_induction lexTokens names text with
  | case1 text rest hrest =>
      have hnone : skipBlanks text = [] := List.isEmpty_iff.mp hrest
      exact .nil (List.dropWhile_eq_nil_iff.mp hnone)
  | case2 text rest hrest ih =>
      have hrest : rest ≠ [] := fun hnil => hrest (List.isEmpty_iff.mpr hnil)
      have hsplit := List.take_append_drop (tokenLength names rest) rest
      have hblanks : ∀ c ∈ text.takeWhile isBlank, isBlank c = true :=
        fun c hc => List.mem_takeWhile_imp hc
      have hsolid : ∀ c, (rest.take (tokenLength names rest) ++
          rest.drop (tokenLength names rest)).head? = some c →
            isBlank c = false := by
        rw [hsplit]
        exact isBlank_head_skipBlanks text
      have htoken : NextToken names (rest.take (tokenLength names rest) ++
          rest.drop (tokenLength names rest))
            (rest.take (tokenLength names rest)) := by
        rw [hsplit]
        exact nextToken_take hnames hrest
      have htext : text.takeWhile isBlank ++
          rest.take (tokenLength names rest) ++
            rest.drop (tokenLength names rest) = text := by
        rw [List.append_assoc, hsplit]
        exact List.takeWhile_append_dropWhile
      rw [← htext]
      exact .cons hblanks hsolid htoken ih

/-- The cut of a text is determined. -/
theorem lexTokens_eq_iff (hnames : [] ∉ names) :
    lexTokens names text = tokens ↔ LexCut names text tokens := by
  constructor
  · rintro rfl
    exact lexCut_lexTokens hnames text
  · intro hcut
    induction hcut with
    | nil hblanks =>
        have hnone : skipBlanks _ = [] := List.dropWhile_eq_nil_iff.mpr hblanks
        rw [lexTokens, hnone]
        rfl
    | @cons blanks token rest tokens hblanks hsolid htoken _ ih =>
        have hne : token ++ rest ≠ [] := by
          simp [htoken.ne_nil hnames]
        have htake := (nextToken_take hnames hne).unique htoken
        have hsplit := List.take_append_drop
          (tokenLength names (token ++ rest)) (token ++ rest)
        rw [htake, List.append_cancel_left_eq] at hsplit
        rw [lexTokens, List.append_assoc, skipBlanks_append hblanks hsolid]
        simp only [List.isEmpty_iff, hne, if_false]
        rw [htake, hsplit, ih]

/-! ## Rounds of a lexer -/

/-- What is left of a text, and the tokens that were cut off. -/
structure Lexer where
  rest : List Char
  tokens : List (List Char)
  deriving DecidableEq, Repr

/-- The longest of the names that the text goes on with. -/
def longestName? (names : List (List Char)) (text : List Char) :
    Option (List Char) :=
  (names.filter fun name => name.isPrefixOf text).argmax List.length

theorem nextToken_longestName? (names : List (List Char)) (c : Char)
    (rest : List Char) :
    NextToken names (c :: rest)
      ((longestName? names (c :: rest)).getD [c]) := by
  cases hlongest : longestName? names (c :: rest) with
  | none =>
      have hnone := List.argmax_eq_none.mp hlongest
      rw [List.filter_eq_nil_iff] at hnone
      refine .single rfl fun name hname hbegins => ?_
      exact hnone name hname (List.isPrefixOf_iff_prefix.mpr hbegins)
  | some name =>
      obtain ⟨hname, hbegins⟩ :=
        List.mem_filter.mp (List.argmax_mem hlongest)
      refine .known hname (List.isPrefixOf_iff_prefix.mp hbegins)
        fun other hother hstarts => ?_
      have hfound : other ∈ names.filter
          fun name => name.isPrefixOf (c :: rest) :=
        List.mem_filter.mpr ⟨hother, List.isPrefixOf_iff_prefix.mpr hstarts⟩
      exact List.le_of_mem_argmax hfound hlongest

namespace Lexer

def start (text : List Char) : Lexer := ⟨skipBlanks text, []⟩

/-- Cuts one token off, and the white space behind it.  An empty name would
leave the text as it is. -/
def round (names : List (List Char)) (lexer : Lexer) : Lexer :=
  match lexer.rest with
  | [] => lexer
  | c :: rest =>
    let token := (longestName? names (c :: rest)).getD [c]
    ⟨skipBlanks ((c :: rest).drop token.length), lexer.tokens ++ [token]⟩

theorem round_of_nextToken (hnames : [] ∉ names)
    (htoken : NextToken names (token ++ text) token)
    (taken : List (List Char)) :
    round names ⟨token ++ text, taken⟩ =
      ⟨skipBlanks text, taken ++ [token]⟩ := by
  cases hrest : token ++ text with
  | nil =>
      have hnil := (List.append_eq_nil_iff.mp hrest).1
      exact absurd hnil (htoken.ne_nil hnames)
  | cons c rest =>
      rw [hrest] at htoken
      have hlongest := (nextToken_longestName? names c rest).unique htoken
      simp only [round, hlongest]
      rw [← hrest, List.drop_left]

/-- One round for each token, and nothing is left. -/
theorem rounds_of_cut (hnames : [] ∉ names) (hcut : LexCut names text tokens)
    (taken : List (List Char)) :
    stepTimes (round names) tokens.length ⟨skipBlanks text, taken⟩ =
      ⟨[], taken ++ tokens⟩ := by
  induction hcut generalizing taken with
  | nil hblanks =>
      have hnone : skipBlanks _ = [] := List.dropWhile_eq_nil_iff.mpr hblanks
      rw [hnone, List.append_nil]
      rfl
  | cons hblanks hsolid htoken _ ih =>
      rw [List.append_assoc, skipBlanks_append hblanks hsolid,
        List.length_cons, stepTimes, round_of_nextToken hnames htoken, ih]
      simp

end Lexer

/-! ## Names with spaces between them -/

theorem LexCut.blank_cons (hblank : isBlank c = true)
    (hcut : LexCut names text tokens) :
    LexCut names (c :: text) tokens := by
  cases hcut with
  | nil hblanks => exact .nil (List.forall_mem_cons.mpr ⟨hblank, hblanks⟩)
  | cons hblanks hsolid htoken hrest =>
      exact .cons (List.forall_mem_cons.mpr ⟨hblank, hblanks⟩) hsolid htoken
        hrest

/-- A name without white space is the longest one in front of a blank. -/
theorem nextToken_of_blank (hsolid : ∀ name ∈ names, c ∉ name)
    (hmem : token ∈ names) : NextToken names (token ++ c :: rest) token :=
  .known hmem (List.prefix_append token _) fun other hother hbegins =>
    (prefix_of_prefix_append_cons hbegins (hsolid other hother)).length_le

theorem nextToken_of_end (hmem : token ∈ names) :
    NextToken names token token :=
  .known hmem (List.prefix_refl token) fun _ _ hbegins => hbegins.length_le

theorem lexCut_intercalate (hnames : [] ∉ names)
    (hsolid : ∀ name ∈ names, ∀ c ∈ name, isBlank c = false)
    (htokens : ∀ token ∈ tokens, token ∈ names) :
    LexCut names ([' '].intercalate tokens) tokens := by
  induction tokens with
  | nil => exact .nil (by simp)
  | cons token tokens ih =>
      obtain ⟨hmem, hrest⟩ := List.forall_mem_cons.mp htokens
      have hne : token ≠ [] := fun hnil => hnames (hnil ▸ hmem)
      obtain ⟨first, inner, rfl⟩ := List.exists_cons_of_ne_nil hne
      have hfirst := hsolid _ hmem first List.mem_cons_self
      cases tokens with
      | nil =>
          have hcut : LexCut names ([] ++ (first :: inner) ++ [])
              [first :: inner] := by
            refine .cons (by simp) ?_ ?_ (.nil (by simp))
            · intro c hc
              cases hc
              exact hfirst
            · rw [List.append_nil]
              exact nextToken_of_end hmem
          simpa using hcut
      | cons second tokens =>
          have hspace : ∀ name ∈ names, ' ' ∉ name := fun name hname hin => by
            have hnot := hsolid name hname ' ' hin
            rw [isBlank_space] at hnot
            cases hnot
          have hbehind := (ih hrest).blank_cons isBlank_space
          have hnone : ∀ c ∈ ([] : List Char), isBlank c = true := by simp
          have hcut := LexCut.cons hnone (fun c hc => by cases hc; exact hfirst)
            (nextToken_of_blank hspace hmem) hbehind
          rw [List.intercalate_cons_cons]
          simpa using hcut

/-- The skipped white space and the tokens make up the text. -/
theorem LexCut.exists_gaps (hcut : LexCut names text tokens) :
    ∃ gaps last, gaps.length = tokens.length ∧
      (∀ gap ∈ gaps, ∀ c ∈ gap, isBlank c = true) ∧
      (∀ c ∈ last, isBlank c = true) ∧
      (List.zipWith (· ++ ·) gaps tokens).flatten ++ last = text := by
  induction hcut with
  | nil hblanks => exact ⟨[], _, rfl, by simp, hblanks, rfl⟩
  | @cons blanks token rest tokens hblanks _ _ _ ih =>
      obtain ⟨gaps, last, hlength, hgaps, hlast, htext⟩ := ih
      refine ⟨blanks :: gaps, last, congrArg (· + 1) hlength,
        List.forall_mem_cons.mpr ⟨hblanks, hgaps⟩, hlast, ?_⟩
      rw [← htext]
      simp

/-! ## Terminals of a grammar -/

namespace Grammar

variable {g : Grammar}

def terminalNames (g : Grammar) : List (List Char) :=
  g.terminals.map fun s => s.name.toList

theorem lex_eq (g : Grammar) (input : String) :
    g.lex input = (lexTokens g.terminalNames input.toList).map
      fun token => .term (String.ofList token) :=
  rfl

theorem nil_not_mem_terminalNames (hg : g.Consistent) (hallowed : g.Admissible) :
    [] ∉ g.terminalNames := by
  intro hnil
  obtain ⟨s, hs, hname⟩ := List.mem_map.mp hnil
  obtain ⟨_, p, hp, hsymbol⟩ := hg.mem_terminals_iff.mp hs
  have hreserved := hallowed.name_allowed p hp s hsymbol
  have hempty : s.name = "" := String.toList_eq_nil_iff.mp hname
  rw [hempty] at hreserved
  exact absurd hreserved (by decide)

/-- Terminals whose names have no white space are read back from their names
with spaces between them. -/
theorem lex_intercalate (hnames : [] ∉ g.terminalNames)
    (hsolid : ∀ s ∈ g.terminals, ∀ c ∈ s.name.toList, isBlank c = false)
    {form : Form} (hform : ∀ s ∈ form, s ∈ g.terminals) :
    g.lex (String.intercalate " " (form.map Symbol.name)) = form := by
  have hcut : LexCut g.terminalNames
      ([' '].intercalate (form.map fun s => s.name.toList))
      (form.map fun s => s.name.toList) := by
    apply lexCut_intercalate hnames
    · rintro name hname
      obtain ⟨s, hs, rfl⟩ := List.mem_map.mp hname
      exact hsolid s hs
    · rintro token htoken
      obtain ⟨s, hs, rfl⟩ := List.mem_map.mp htoken
      exact List.mem_map_of_mem (hform s hs)
  have hread : lexTokens g.terminalNames
      (String.intercalate " " (form.map Symbol.name)).toList =
        form.map fun s => s.name.toList := by
    rw [String.toList_intercalate, List.map_map]
    exact (lexTokens_eq_iff hnames).mpr hcut
  rw [lex_eq, hread, List.map_map]
  nth_rewrite 2 [← List.map_id form]
  apply List.map_congr_left
  intro s hs
  have hterm : s.isTerm = true := (List.mem_filter.mp (hform s hs)).2
  cases s with
  | var name => cases hterm
  | term name => simp [Symbol.name]

/-- Whatever edits have made a grammar, an input is cut into the longest names
of its terminals, and where there is none into single characters.  Names without
white space are read back. -/
theorem lex_longestFirst (validity : Validity) (edits : List Edit) :
    let g := Edit.performAll edits (empty validity)
    (∀ input : String, ∃ tokens,
      g.lex input = tokens.map (fun token => .term (String.ofList token)) ∧
      stepTimes (Lexer.round g.terminalNames) tokens.length
          (.start input.toList) = ⟨[], tokens⟩ ∧
      LexCut g.terminalNames input.toList tokens ∧
      ∃ gaps last, gaps.length = tokens.length ∧
        (∀ gap ∈ gaps, ∀ c ∈ gap, isBlank c = true) ∧
        (∀ c ∈ last, isBlank c = true) ∧
        (List.zipWith (· ++ ·) gaps tokens).flatten ++ last =
          input.toList) ∧
    ((∀ s ∈ g.terminals, ∀ c ∈ s.name.toList, isBlank c = false) →
      ∀ form : Form, (∀ s ∈ form, s ∈ g.terminals) →
        g.lex (String.intercalate " " (form.map Symbol.name)) = form) := by
  intro g
  have hg : g.Kept validity := (kept_empty validity).performAll edits
  have hnames := nil_not_mem_terminalNames hg.consistent hg.admissible
  constructor
  · intro input
    have hcut := lexCut_lexTokens hnames input.toList
    exact ⟨_, g.lex_eq input, Lexer.rounds_of_cut hnames hcut [], hcut,
      hcut.exists_gaps⟩
  · intro hsolid form hform
    exact lex_intercalate hnames hsolid hform

/-- The edits that make `F → (E) | id | i`. -/
def nestedNames : List Edit :=
  [.addAll
    [.rule (.var "F") [.term "(", .var "E", .term ")"],
      .rule (.var "F") [.term "id"], .rule (.var "F") [.term "i"]]]

theorem lex_longestFirst_nestedNames :
    let g := Edit.performAll nestedNames (empty .contextFree)
    g.terminals = [.term "(", .term ")", .term "id", .term "i"] ∧
    (∀ s ∈ g.terminals, ∀ c ∈ s.name.toList, isBlank c = false) ∧
    g.lex " idi* (i " = [.term "id", .term "i", .term "*", .term "(",
      .term "i"] ∧
    (∃ tokens, tokens.length = 5 ∧
      LexCut g.terminalNames " idi* (i ".toList tokens ∧
      stepTimes (Lexer.round g.terminalNames) tokens.length
        (.start " idi* (i ".toList) = ⟨[], tokens⟩) ∧
    g.lex "i id i ) id" =
      [.term "i", .term "id", .term "i", .term ")", .term "id"] := by
  intro g
  have hterminals :
      g.terminals = [.term "(", .term ")", .term "id", .term "i"] := by
    decide +kernel
  have hsolid : ∀ s ∈ g.terminals, ∀ c ∈ s.name.toList,
      isBlank c = false := by
    have hall : g.terminals.all
        (fun s => s.name.toList.all fun c => !isBlank c) = true := by
      rw [hterminals]
      decide +kernel
    simpa only [List.all_eq_true, Bool.not_eq_true'] using hall
  obtain ⟨hcuts, hreads⟩ := lex_longestFirst .contextFree nestedNames
  obtain ⟨tokens, hlex, hrounds, hcut, _⟩ := hcuts " idi* (i "
  have hfound : g.lex " idi* (i " =
      [.term "id", .term "i", .term "*", .term "(", .term "i"] := by
    decide +kernel
  have hlength : tokens.length = 5 := by
    have heq := congrArg List.length (hlex.symm.trans hfound)
    simpa using heq
  have hback := hreads hsolid
    [.term "i", .term "id", .term "i", .term ")", .term "id"]
    (by rw [hterminals]; decide)
  exact ⟨hterminals, hsolid, hfound, ⟨tokens, hlength, hcut, hrounds⟩, hback⟩

end Grammar

end FormalGrammars
