import FormalGrammars.Proofs.Reading.Cutting
import FormalGrammars.Symbol.Reading
import Mathlib.Data.List.Chain

/-!
# Tokens with bracket groups

A bracket group ends at the first bracket that closes more than was opened, so
no beginning of what stands inside it closes more.  With this the tokens of a
text under the convention of capitals are described: solid characters, and
capitals with their groups, of which only the last can lack its closing bracket.
The description determines the tokens, and it holds again when the tokens are
written with spaces between them.
-/

namespace FormalGrammars

open Text

variable {text inner rest front token : List Char} {tokens : List (List Char)}
  {c : Char} {depth : Nat}

/-! ## Bracket groups -/

/-- With `depth` more brackets open inside a group, the text does not end it. -/
def StaysOpen (depth : Nat) (text : List Char) : Prop :=
  ∀ front, front <+: text → front.count ')' ≤ depth + front.count '('

/-- The text does not end the group, and a closing bracket behind it does. -/
structure Closes (depth : Nat) (text : List Char) : Prop where
  staysOpen : StaysOpen depth text
  balanced : text.count ')' = depth + text.count '('

theorem staysOpen_nil (depth : Nat) : StaysOpen depth [] := by
  intro front hfront
  simp [List.prefix_nil.mp hfront]

theorem StaysOpen.of_isPrefix (hopen : StaysOpen depth text)
    (hbegins : front <+: text) : StaysOpen depth front :=
  fun _ hfront => hopen _ (hfront.trans hbegins)

theorem StaysOpen.concat (hopen : StaysOpen depth text) (hc : c ≠ ')') :
    StaysOpen depth (text ++ [c]) := by
  intro front hfront
  rcases List.prefix_concat_iff.mp hfront with rfl | hinner
  · have hle := hopen text (List.prefix_refl text)
    have hnone : [c].count ')' = 0 :=
      List.count_eq_zero.mpr (by simpa using Ne.symm hc)
    rw [List.count_append, List.count_append]
    omega
  · exact hopen front hinner

theorem closes_zero_nil : Closes 0 [] :=
  ⟨staysOpen_nil 0, rfl⟩

/-- The brackets that are open behind a character. -/
def depthBehind (depth : Nat) (c : Char) : Nat :=
  if c = ')' then depth - 1 else if c = '(' then depth + 1 else depth

theorem depthBehind_add_count (hc : c = ')' → 0 < depth) (text : List Char) :
    depthBehind depth c + (c :: text).count ')' + text.count '(' =
      depth + (c :: text).count '(' + text.count ')' := by
  rw [depthBehind, List.count_cons, List.count_cons]
  by_cases hclose : c = ')'
  · have hpos := hc hclose
    simp [hclose]
    omega
  · by_cases hopen : c = '('
    · simp [hopen]
      omega
    · simp [hclose, hopen]
      omega

theorem staysOpen_cons : StaysOpen depth (c :: rest) ↔
    (c = ')' → 0 < depth) ∧ StaysOpen (depthBehind depth c) rest := by
  constructor
  · intro hopen
    have hc : c = ')' → 0 < depth := by
      rintro rfl
      have hle := hopen [')'] ⟨rest, rfl⟩
      simp only [List.count_singleton] at hle
      simpa using Nat.lt_of_succ_le hle
    refine ⟨hc, fun front hfront => ?_⟩
    have hle := hopen (c :: front) (List.cons_prefix_cons.mpr ⟨rfl, hfront⟩)
    have hcount := depthBehind_add_count hc front
    omega
  · rintro ⟨hc, hrest⟩ front hfront
    cases front with
    | nil => simp
    | cons d front =>
        obtain ⟨rfl, hbehind⟩ := List.cons_prefix_cons.mp hfront
        have hle := hrest front hbehind
        have hcount := depthBehind_add_count hc front
        omega

theorem closes_cons : Closes depth (c :: rest) ↔
    (c = ')' → 0 < depth) ∧ Closes (depthBehind depth c) rest := by
  constructor
  · rintro ⟨hopen, hbalanced⟩
    obtain ⟨hc, hrest⟩ := staysOpen_cons.mp hopen
    have hcount := depthBehind_add_count hc rest
    exact ⟨hc, hrest, by omega⟩
  · rintro ⟨hc, hrest, hbalanced⟩
    have hcount := depthBehind_add_count hc rest
    exact ⟨staysOpen_cons.mpr ⟨hc, hrest⟩, by omega⟩

/-- A character ends the group, or more brackets are open when it closes one. -/
theorem ends_or_stays (depth : Nat) (c : Char) :
    (c = ')' ∧ depth = 0) ∨ (c = ')' → 0 < depth) := by
  by_cases hends : c = ')' ∧ depth = 0
  · exact .inl hends
  · exact .inr fun hclose => Nat.pos_of_ne_zero fun hzero => hends ⟨hclose, hzero⟩

/-- A text is inside the group as a whole, or up to the bracket that ends it. -/
theorem staysOpen_or_closes (depth : Nat) (text : List Char) :
    StaysOpen depth text ∨
      ∃ inner rest, text = inner ++ ')' :: rest ∧ Closes depth inner := by
  induction text generalizing depth with
  | nil => exact .inl (staysOpen_nil depth)
  | cons c text ih =>
      rcases ends_or_stays depth c with ⟨rfl, rfl⟩ | hc
      · exact .inr ⟨[], text, rfl, closes_zero_nil⟩
      · rcases ih (depthBehind depth c) with hopen | ⟨inner, rest, rfl, hinner⟩
        · exact .inl (staysOpen_cons.mpr ⟨hc, hopen⟩)
        · exact .inr ⟨c :: inner, rest, rfl, closes_cons.mpr ⟨hc, hinner⟩⟩

theorem bracketGroup_cons (hc : c = ')' → 0 < depth) (rest : List Char) :
    bracketGroup depth (c :: rest) =
      (c :: (bracketGroup (depthBehind depth c) rest).1,
        (bracketGroup (depthBehind depth c) rest).2) := by
  by_cases hclose : c = ')'
  · obtain ⟨below, rfl⟩ :=
      Nat.exists_eq_succ_of_ne_zero (Nat.ne_of_gt (hc hclose))
    simp [bracketGroup, depthBehind, hclose]
  · simp [bracketGroup, depthBehind, hclose]

theorem bracketGroup_of_staysOpen (hopen : StaysOpen depth text) :
    bracketGroup depth text = (text, []) := by
  induction text generalizing depth with
  | nil => rfl
  | cons c text ih =>
      obtain ⟨hc, hrest⟩ := staysOpen_cons.mp hopen
      rw [bracketGroup_cons hc, ih hrest]

theorem bracketGroup_of_closes (hinner : Closes depth inner) (rest : List Char) :
    bracketGroup depth (inner ++ ')' :: rest) = (inner ++ [')'], rest) := by
  induction inner generalizing depth with
  | nil =>
      have hzero : depth = 0 := by simpa using hinner.balanced.symm
      rw [hzero]
      rfl
  | cons c inner ih =>
      obtain ⟨hc, hrest⟩ := closes_cons.mp hinner
      rw [List.cons_append, bracketGroup_cons hc, ih hrest]
      rfl

/-! ## The tokens of a text -/

/-- The tokens of a text: white space is left out, and a capital has the bracket
group behind it, up to the end of the text when the group does not end. -/
inductive CapitalCut : List Char → List (List Char) → Prop where
  | nil : CapitalCut [] []
  | blank {c : Char} {rest : List Char} {tokens : List (List Char)}
      (hblank : isBlank c = true) (hrest : CapitalCut rest tokens) :
      CapitalCut (c :: rest) tokens
  | single {c : Char} {rest : List Char} {tokens : List (List Char)}
      (hsolid : isBlank c = false)
      (halone : isCapital c = true → rest.head? ≠ some '(')
      (hrest : CapitalCut rest tokens) : CapitalCut (c :: rest) ([c] :: tokens)
  | closed {c : Char} {inner rest : List Char} {tokens : List (List Char)}
      (hsolid : isBlank c = false) (hcapital : isCapital c = true)
      (hinner : Closes 0 inner) (hrest : CapitalCut rest tokens) :
      CapitalCut (c :: '(' :: (inner ++ ')' :: rest))
        ((c :: '(' :: (inner ++ [')'])) :: tokens)
  | unclosed {c : Char} {inner : List Char}
      (hsolid : isBlank c = false) (hcapital : isCapital c = true)
      (hopen : StaysOpen 0 inner) :
      CapitalCut (c :: '(' :: inner) [c :: '(' :: inner]

/-- A character stands alone, or it is a capital with a group behind it. -/
theorem alone_or_opens (c : Char) (rest : List Char) :
    (isCapital c = true → rest.head? ≠ some '(') ∨
      isCapital c = true ∧ ∃ inner, rest = '(' :: inner := by
  by_cases hopens : isCapital c = true ∧ rest.head? = some '('
  · exact .inr ⟨hopens.1, List.head?_eq_some_iff.mp hopens.2⟩
  · exact .inl fun hcapital hhead => hopens ⟨hcapital, hhead⟩

theorem capitalTokens_blank (hblank : isBlank c = true) (rest : List Char) :
    capitalTokens (c :: rest) = capitalTokens rest := by
  rw [capitalTokens, if_pos hblank]

theorem capitalTokens_single (hsolid : isBlank c = false)
    (halone : isCapital c = true → rest.head? ≠ some '(') :
    capitalTokens (c :: rest) = [c] :: capitalTokens rest := by
  rw [capitalTokens, if_neg (by simp [hsolid]), if_neg]
  rw [Bool.and_eq_true, beq_iff_eq]
  exact fun hgroup => halone hgroup.1 hgroup.2

theorem capitalTokens_group (hsolid : isBlank c = false)
    (hcapital : isCapital c = true) (rest : List Char) :
    capitalTokens (c :: '(' :: rest) =
      (c :: '(' :: (bracketGroup 0 rest).1) ::
        capitalTokens (bracketGroup 0 rest).2 := by
  rw [capitalTokens, if_neg (by simp [hsolid]), if_pos (by simp [hcapital])]
  rfl

theorem capitalCut_capitalTokens (text : List Char) :
    CapitalCut text (capitalTokens text) := by
  fun_induction capitalTokens text with
  | case1 => exact .nil
  | case2 c rest hblank ih => exact .blank hblank ih
  | case3 c rest hsolid hgroup group ih =>
      simp only [Bool.not_eq_true] at hsolid
      rw [Bool.and_eq_true, beq_iff_eq] at hgroup
      obtain ⟨inner, rfl⟩ := List.head?_eq_some_iff.mp hgroup.2
      simp only [group, List.tail_cons] at ih ⊢
      rcases staysOpen_or_closes 0 inner with hopen | ⟨inner, rest, rfl, hinner⟩
      · rw [bracketGroup_of_staysOpen hopen, capitalTokens]
        exact .unclosed hsolid hgroup.1 hopen
      · rw [bracketGroup_of_closes hinner] at ih ⊢
        exact .closed hsolid hgroup.1 hinner ih
  | case4 c rest hsolid hgroup ih =>
      simp only [Bool.not_eq_true] at hsolid
      refine .single hsolid (fun hcapital hhead => ?_) ih
      simp [hcapital, hhead] at hgroup

/-- The cut of a text is determined. -/
theorem CapitalCut.eq (hcut : CapitalCut text tokens) :
    capitalTokens text = tokens := by
  induction hcut with
  | nil => rw [capitalTokens]
  | blank hblank _ ih => rw [capitalTokens_blank hblank, ih]
  | single hsolid halone _ ih => rw [capitalTokens_single hsolid halone, ih]
  | closed hsolid hcapital hinner _ ih =>
      rw [capitalTokens_group hsolid hcapital, bracketGroup_of_closes hinner, ih]
  | unclosed hsolid hcapital hopen =>
      rw [capitalTokens_group hsolid hcapital, bracketGroup_of_staysOpen hopen,
        capitalTokens]

theorem CapitalCut.infix_of_mem (hcut : CapitalCut text tokens) :
    ∀ token ∈ tokens, token <:+: text := by
  induction hcut with
  | nil => simp
  | blank _ _ ih => exact fun token htoken => List.infix_cons (ih token htoken)
  | @single c rest _ _ _ _ ih =>
      refine List.forall_mem_cons.mpr ⟨⟨[], rest, rfl⟩, fun token htoken => ?_⟩
      exact List.infix_cons (ih token htoken)
  | @closed c inner rest _ _ _ _ _ ih =>
      refine List.forall_mem_cons.mpr
        ⟨⟨[], rest, by simp⟩, fun token htoken => ?_⟩
      refine (ih token htoken).trans (List.IsSuffix.isInfix ?_)
      exact ⟨c :: '(' :: (inner ++ [')']), by simp⟩
  | unclosed _ _ _ => simp

theorem CapitalCut.ne_nil (hcut : CapitalCut text tokens) :
    ∀ token ∈ tokens, token ≠ [] := by
  induction hcut with
  | nil => simp
  | blank _ _ ih => exact ih
  | single _ _ _ ih => simpa using ih
  | closed _ _ _ _ ih => simpa using ih
  | unclosed _ _ _ => simp

theorem CapitalCut.forall_isBlank (hcut : CapitalCut text []) :
    ∀ c ∈ text, isBlank c = true := by
  generalize htokens : ([] : List (List Char)) = tokens at hcut
  induction hcut with
  | nil => simp
  | blank hblank _ ih => exact List.forall_mem_cons.mpr ⟨hblank, ih htokens⟩
  | single _ _ _ _ => cases htokens
  | closed _ _ _ _ _ => cases htokens
  | unclosed _ _ _ => cases htokens

/-- Only a token that reaches to the end of the text can end in white space. -/
theorem CapitalCut.solidEnds (hcut : CapitalCut text tokens)
    (hlast : ∀ c, text.getLast? = some c → isBlank c = false) :
    ∀ token ∈ tokens, SolidEnds token := by
  have hbehind : ∀ (front : List Char) {rest : List Char},
      (∀ c, (front ++ rest).getLast? = some c → isBlank c = false) →
        ∀ c, rest.getLast? = some c → isBlank c = false := by
    intro front rest hends c hc
    apply hends c
    rw [List.getLast?_append, hc]
    rfl
  induction hcut with
  | nil => simp
  | blank _ _ ih => exact ih (hbehind [_] hlast)
  | single hsolid _ _ ih =>
      exact List.forall_mem_cons.mpr
        ⟨solidEnds_singleton hsolid, ih (hbehind [_] hlast)⟩
  | @closed c inner rest _ hsolid _ _ _ ih =>
      refine List.forall_mem_cons.mpr ⟨⟨by simpa using hsolid, ?_⟩, ih ?_⟩
      · have hclose : isBlank ')' = false := by decide
        rw [← List.cons_append, ← List.cons_append, List.getLast?_concat]
        simpa using hclose
      · exact hbehind (c :: '(' :: (inner ++ [')'])) (by simpa using hlast)
  | unclosed hsolid _ _ =>
      exact List.forall_mem_singleton.mpr ⟨by simpa using hsolid, hlast⟩

/-- Behind a token that is the only one stands white space. -/
theorem CapitalCut.exists_blanks (hcut : CapitalCut text [token])
    (hfirst : ∀ c, text.head? = some c → isBlank c = false) :
    ∃ blanks, (∀ c ∈ blanks, isBlank c = true) ∧ text = token ++ blanks := by
  cases hcut with
  | blank hblank _ =>
      have hsolid := hfirst _ rfl
      rw [hblank] at hsolid
      cases hsolid
  | @single _ rest _ _ _ hrest => exact ⟨rest, hrest.forall_isBlank, rfl⟩
  | @closed _ _ rest _ _ _ _ hrest =>
      exact ⟨rest, hrest.forall_isBlank, by simp⟩
  | unclosed _ _ _ => exact ⟨[], by simp, by simp⟩

/-! ## Tokens with spaces between them -/

theorem intercalate_cons (separator token : List Char) (tokens : List (List Char)) :
    separator.intercalate (token :: tokens) =
      token ++ if tokens = [] then []
        else separator ++ separator.intercalate tokens := by
  by_cases hnil : tokens = []
  · simp [hnil]
  · rw [List.intercalate_cons_of_ne_nil hnil, if_neg hnil, List.append_assoc]

/-- The tokens of a text are read back when they are written with spaces. -/
theorem CapitalCut.intercalate (hcut : CapitalCut text tokens) :
    CapitalCut ([' '].intercalate tokens) tokens := by
  have hbehind : ∀ {tokens : List (List Char)},
      CapitalCut ([' '].intercalate tokens) tokens →
        CapitalCut (if tokens = [] then []
          else [' '] ++ [' '].intercalate tokens) tokens := by
    intro tokens htokens
    split
    next hnil => exact hnil ▸ .nil
    next => exact .blank isBlank_space htokens
  induction hcut with
  | nil => exact .nil
  | blank _ _ ih => exact ih
  | single hsolid _ _ ih =>
      rw [intercalate_cons]
      refine .single hsolid (fun _ => ?_) (hbehind ih)
      split <;> simp
  | closed hsolid hcapital hinner _ ih =>
      rw [intercalate_cons]
      simpa using CapitalCut.closed hsolid hcapital hinner (hbehind ih)
  | unclosed hsolid hcapital hopen =>
      simpa using CapitalCut.unclosed hsolid hcapital hopen

/-! ## Characters without spaces between them -/

/-- Solid characters are read back one by one exactly when no opening bracket
stands directly behind a capital. -/
theorem capitalTokens_eq_map_singleton_iff
    (hsolid : ∀ c ∈ text, isBlank c = false) :
    capitalTokens text = text.map (fun c => [c]) ↔
      text.IsChain fun c d => d = '(' → isCapital c = false := by
  induction text with
  | nil => simp [capitalTokens]
  | cons c text ih =>
      obtain ⟨hc, hrest⟩ := List.forall_mem_cons.mp hsolid
      rcases alone_or_opens c text with halone | ⟨hcapital, rest, rfl⟩
      · rw [capitalTokens_single hc halone, List.map_cons, List.cons.injEq,
          ih hrest]
        cases text with
        | nil => simp
        | cons d text =>
            rw [List.isChain_cons_cons]
            have hfirst : d = '(' → isCapital c = false := by
              rintro rfl
              exact Bool.eq_false_iff.mpr fun hcapital => halone hcapital rfl
            simp only [true_and]
            exact (and_iff_right hfirst).symm
      · rw [capitalTokens_group hc hcapital, List.isChain_cons_cons]
        simp [hcapital]

end FormalGrammars
