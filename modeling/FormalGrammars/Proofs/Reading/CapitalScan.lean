import FormalGrammars.Iteration
import FormalGrammars.Proofs.Reading.CapitalTokens

/-!
# The scan for tokens and bracket groups

The tokens under the convention of capitals are found in one pass over the text.
Each round reads one character, and inside a bracket group it keeps a count of
the open brackets.  The count starts at zero in front of the bracket that opens
the group, and from the round that reads this bracket on it is one above the
brackets that are open inside the group, so a closing bracket always finds an open
one.

When the pass is over it has the tokens of the text.  What stands between them is
white space, and every token is a solid character or a capital with its group,
which lacks the closing bracket only where the text ends in it.
-/

namespace FormalGrammars

open Text

/-- A scan of a text: what is still to be read, the tokens so far, and the token
whose bracket group is being read, with the count of its open brackets. -/
structure CapitalScan where
  rest : List Char
  tokens : List (List Char)
  group : Option (List Char × Int)
  deriving DecidableEq

namespace CapitalScan

def start (text : List Char) : CapitalScan :=
  ⟨text, [], none⟩

/-- The count of open brackets behind a character of a group. -/
def countBehind (count : Int) (c : Char) : Int :=
  if c = '(' then count + 1 else if c = ')' then count - 1 else count

/-- Reads one character.  The text can end in a group, which is a token then. -/
def round (scan : CapitalScan) : CapitalScan :=
  match scan.rest, scan.group with
  | [], none => scan
  | [], some (token, _) => ⟨[], scan.tokens ++ [token], none⟩
  | c :: rest, none =>
    if isBlank c then ⟨rest, scan.tokens, none⟩
    else if isCapital c && rest.head? == some '(' then ⟨rest, scan.tokens, some ([c], 0)⟩
    else ⟨rest, scan.tokens ++ [[c]], none⟩
  | c :: rest, some (token, count) =>
    if c = ')' ∧ countBehind count c = 0 then ⟨rest, scan.tokens ++ [token ++ [c]], none⟩
    else ⟨rest, scan.tokens, some (token ++ [c], countBehind count c)⟩

variable {scan : CapitalScan} {text rest token : List Char} {tokens all : List (List Char)}
  {c : Char} {depth : Nat}

/-! ## Rounds -/

theorem round_blank (hblank : isBlank c = true) :
    round ⟨c :: rest, tokens, none⟩ = ⟨rest, tokens, none⟩ := by
  simp [round, hblank]

theorem round_single (hsolid : isBlank c = false)
    (halone : isCapital c = true → rest.head? ≠ some '(') :
    round ⟨c :: rest, tokens, none⟩ = ⟨rest, tokens ++ [[c]], none⟩ := by
  simpa [round, hsolid] using halone

theorem round_capital (hsolid : isBlank c = false) (hcapital : isCapital c = true) :
    round ⟨c :: '(' :: rest, tokens, none⟩ = ⟨'(' :: rest, tokens, some ([c], 0)⟩ := by
  simp [round, hsolid, hcapital]

theorem round_opening (rest token : List Char) (tokens : List (List Char)) :
    round ⟨'(' :: rest, tokens, some (token, 0)⟩ =
      ⟨rest, tokens, some (token ++ ['('], ((0 : Nat) : Int) + 1)⟩ := by
  simp [round, countBehind]

theorem round_closing (rest token : List Char) (tokens : List (List Char)) :
    round ⟨')' :: rest, tokens, some (token, ((0 : Nat) : Int) + 1)⟩ =
      ⟨rest, tokens ++ [token ++ [')']], none⟩ := by
  simp [round, countBehind]

/-- Inside a group the count is one above the brackets that are open in it. -/
theorem round_inside (hc : c = ')' → 0 < depth) :
    round ⟨c :: rest, tokens, some (token, (depth : Int) + 1)⟩ =
      ⟨rest, tokens, some (token ++ [c], (depthBehind depth c : Int) + 1)⟩ := by
  by_cases hclose : c = ')'
  · subst hclose
    have hpos := hc rfl
    have hcount : ((depth - 1 : Nat) : Int) + 1 = depth := by omega
    simp [round, countBehind, depthBehind, hcount, Nat.ne_of_gt hpos]
  · by_cases hopen : c = '('
    · simp [round, countBehind, depthBehind, hopen]
    · simp [round, countBehind, depthBehind, hclose, hopen]

theorem round_rest (scan : CapitalScan) : scan.round.rest = scan.rest.tail := by
  obtain ⟨rest, tokens, group⟩ := scan
  cases rest with
  | nil => cases group <;> rfl
  | cons c rest =>
      cases group with
      | none => simp only [round]; split <;> [rfl; split <;> rfl]
      | some group => simp only [round]; split <;> rfl

theorem rest_stepTimes (rounds : Nat) (scan : CapitalScan) :
    (stepTimes round rounds scan).rest = scan.rest.drop rounds := by
  induction rounds generalizing scan with
  | zero => rfl
  | succ rounds ih => rw [stepTimes, ih, round_rest, List.drop_tail]

/-! ## The tokens that a scan leads to -/

/-- The tokens so far, the group that is being read and the rest of the text make
up `all`. -/
inductive Leads (all : List (List Char)) : CapitalScan → Prop where
  | between {rest : List Char} {tokens : List (List Char)}
      (hall : tokens ++ capitalTokens rest = all) : Leads all ⟨rest, tokens, none⟩
  | opening {c : Char} {inner : List Char} {tokens : List (List Char)}
      (hall : tokens ++ (c :: '(' :: (bracketGroup 0 inner).1) ::
        capitalTokens (bracketGroup 0 inner).2 = all) :
      Leads all ⟨'(' :: inner, tokens, some ([c], 0)⟩
  | inside {rest token : List Char} {tokens : List (List Char)} {depth : Nat}
      (hall : tokens ++ (token ++ (bracketGroup depth rest).1) ::
        capitalTokens (bracketGroup depth rest).2 = all) :
      Leads all ⟨rest, tokens, some (token, (depth : Int) + 1)⟩

theorem leads_start (text : List Char) : Leads (capitalTokens text) (start text) :=
  .between (List.nil_append _)

theorem Leads.round (hleads : Leads all scan) : Leads all scan.round := by
  cases hleads with
  | @between rest tokens hall =>
      cases rest with
      | nil => exact .between hall
      | cons c rest =>
          by_cases hblank : isBlank c = true
          · rw [capitalTokens_blank hblank] at hall
            rw [round_blank hblank]
            exact .between hall
          have hsolid := Bool.eq_false_iff.mpr hblank
          rcases alone_or_opens c rest with halone | ⟨hcapital, inner, rfl⟩
          · rw [capitalTokens_single hsolid halone] at hall
            rw [round_single hsolid halone]
            exact .between (by simpa using hall)
          · rw [capitalTokens_group hsolid hcapital] at hall
            rw [round_capital hsolid hcapital]
            exact .opening hall
  | @opening c inner tokens hall =>
      rw [round_opening]
      exact .inside hall
  | @inside rest token tokens depth hall =>
      cases rest with
      | nil => exact .between (by simpa [bracketGroup, capitalTokens] using hall)
      | cons c rest =>
          rcases ends_or_stays depth c with ⟨rfl, rfl⟩ | hc
          · rw [round_closing]
            exact .between (by simpa [bracketGroup] using hall)
          · rw [bracketGroup_cons hc] at hall
            rw [round_inside hc]
            exact .inside (by simpa using hall)

/-- A scan that has read the text has its tokens after one more round. -/
theorem Leads.round_of_rest_eq_nil (hleads : Leads all scan) (hrest : scan.rest = []) :
    scan.round = ⟨[], all, none⟩ := by
  cases hleads with
  | between hall =>
      cases hrest
      rw [← hall, capitalTokens, List.append_nil]
      rfl
  | opening _ => cases hrest
  | inside hall =>
      cases hrest
      rw [← hall, bracketGroup, capitalTokens, List.append_nil]
      rfl

theorem Leads.count_nonneg {count : Int} (hleads : Leads all scan)
    (hgroup : scan.group = some (token, count)) : 0 ≤ count := by
  cases hleads with
  | between _ => cases hgroup
  | opening _ => cases hgroup; exact Int.le_refl 0
  | inside _ => cases hgroup; exact Int.natCast_nonneg _

theorem leads_stepTimes (text : List Char) (rounds : Nat) :
    Leads (capitalTokens text) (stepTimes round rounds (start text)) :=
  stepTimes_induct (fun _ hleads => hleads.round) rounds (leads_start text)

/-- One round for each character and one for the end of the text are enough. -/
theorem stepTimes_start (text : List Char) :
    stepTimes round (text.length + 1) (start text) = ⟨[], capitalTokens text, none⟩ := by
  rw [stepTimes_succ_eq_step]
  refine (leads_stepTimes text text.length).round_of_rest_eq_nil ?_
  rw [rest_stepTimes]
  exact List.drop_length

end CapitalScan

/-! ## The tokens and what stands between them -/

variable {text token : List Char} {tokens ahead behind : List (List Char)} {c : Char}

/-- The tokens are cut out of the text one behind the other, and every character
in front of them, between them and behind them is white space. -/
def LeavesBlanks (text : List Char) (tokens : List (List Char)) : Prop :=
  ∃ (gaps : List (List Char)) (last : List Char), gaps.length = tokens.length ∧
    (∀ gap ∈ last :: gaps, ∀ c ∈ gap, isBlank c = true) ∧
    (List.zipWith (· ++ ·) gaps tokens).flatten ++ last = text

theorem leavesBlanks_nil : LeavesBlanks [] [] :=
  ⟨[], [], rfl, by simp, rfl⟩

/-- A blank goes in front of the first gap, or of the last one when there is no
token. -/
theorem LeavesBlanks.blank (hblank : isBlank c = true) (htext : LeavesBlanks text tokens) :
    LeavesBlanks (c :: text) tokens := by
  obtain ⟨gaps, last, hlength, hblanks, rfl⟩ := htext
  cases gaps with
  | nil => exact ⟨[], c :: last, hlength, by simpa [hblank] using hblanks, by simp⟩
  | cons gap gaps =>
      cases tokens with
      | nil => cases hlength
      | cons token tokens =>
          exact ⟨(c :: gap) :: gaps, last, hlength, by simpa [hblank] using hblanks, by simp⟩

theorem LeavesBlanks.cons (htext : LeavesBlanks text tokens) (token : List Char) :
    LeavesBlanks (token ++ text) (token :: tokens) := by
  obtain ⟨gaps, last, hlength, hblanks, rfl⟩ := htext
  exact ⟨[] :: gaps, last, by simp [hlength], by simpa using hblanks, by simp⟩

theorem CapitalCut.leavesBlanks (hcut : CapitalCut text tokens) :
    LeavesBlanks text tokens := by
  induction hcut with
  | nil => exact leavesBlanks_nil
  | blank hblank _ ih => exact ih.blank hblank
  | @single c _ _ _ _ _ ih => exact ih.cons [c]
  | @closed c inner _ _ _ _ _ _ ih =>
      simpa using ih.cons (c :: '(' :: (inner ++ [')']))
  | @unclosed c inner _ _ _ =>
      simpa using leavesBlanks_nil.cons (c :: '(' :: inner)

/-- A token of a text with these tokens behind it: a solid character, a capital
with the bracket group directly behind it, or a capital whose group is not closed
when the text ends. -/
inductive CapitalToken (text : List Char) (behind : List (List Char)) : List Char → Prop where
  | single {c : Char} (hsolid : isBlank c = false) : CapitalToken text behind [c]
  | closed {c : Char} {inner : List Char} (hcapital : isCapital c = true)
      (hinner : Closes 0 inner) : CapitalToken text behind (c :: '(' :: (inner ++ [')']))
  | unclosed {c : Char} {inner : List Char} (hcapital : isCapital c = true)
      (hopen : StaysOpen 0 inner) (hlast : behind = [])
      (hend : c :: '(' :: inner <:+ text) : CapitalToken text behind (c :: '(' :: inner)

theorem CapitalToken.append (htoken : CapitalToken text behind token) (front : List Char) :
    CapitalToken (front ++ text) behind token := by
  cases htoken with
  | single hsolid => exact .single hsolid
  | closed hcapital hinner => exact .closed hcapital hinner
  | unclosed hcapital hopen hlast hend =>
      exact .unclosed hcapital hopen hlast (hend.trans (List.suffix_append front text))

theorem CapitalCut.capitalToken (hcut : CapitalCut text tokens)
    (htokens : tokens = ahead ++ token :: behind) : CapitalToken text behind token := by
  induction hcut generalizing ahead with
  | nil => simp at htokens
  | @blank c _ _ _ _ ih => exact (ih htokens).append [c]
  | @single c rest tokens hsolid _ _ ih =>
      rcases List.cons_eq_append_iff.mp htokens with ⟨rfl, hcons⟩ | ⟨ahead, rfl, hcons⟩
      · obtain ⟨rfl, rfl⟩ := List.cons.inj hcons
        exact .single hsolid
      · exact (ih hcons).append [c]
  | @closed c inner rest tokens _ hcapital hinner _ ih =>
      rcases List.cons_eq_append_iff.mp htokens with ⟨rfl, hcons⟩ | ⟨ahead, rfl, hcons⟩
      · obtain ⟨rfl, rfl⟩ := List.cons.inj hcons
        exact .closed hcapital hinner
      · simpa using (ih hcons).append (c :: '(' :: (inner ++ [')']))
  | unclosed _ hcapital hopen =>
      obtain ⟨rfl, htoken⟩ | ⟨ahead, -, hcons⟩ := List.cons_eq_append_iff.mp htokens
      · obtain ⟨rfl, rfl⟩ := List.cons.inj htoken
        exact .unclosed hcapital hopen rfl (List.suffix_refl _)
      · simp at hcons

/-! ## What the scan does -/

/-- For every text the scan ends with the tokens of the text, and its count of
open brackets is never below zero.  The tokens are not empty and are cut out of the
text in order, with only white space left; each is a solid character or a capital
with its bracket group; and they are found again when spaces are written between
them. -/
theorem CapitalScan.cuts_text (text : List Char) :
    (∀ rounds token count,
      (stepTimes round rounds (start text)).group = some (token, count) → 0 ≤ count) ∧
    stepTimes round (text.length + 1) (start text) = ⟨[], capitalTokens text, none⟩ ∧
    (∀ token ∈ capitalTokens text, token ≠ []) ∧
    LeavesBlanks text (capitalTokens text) ∧
    (∀ ahead token behind, capitalTokens text = ahead ++ token :: behind →
      CapitalToken text behind token) ∧
    capitalTokens ([' '].intercalate (capitalTokens text)) = capitalTokens text := by
  have hcut := capitalCut_capitalTokens text
  exact ⟨fun rounds _ _ => (leads_stepTimes text rounds).count_nonneg, stepTimes_start text,
    hcut.ne_nil, hcut.leavesBlanks, fun _ _ _ => hcut.capitalToken, hcut.intercalate.eq⟩

/-- Nested brackets, white space inside and outside groups, a bracket that no
capital stands before, and a group that is not closed. -/
theorem CapitalScan.cuts_text_nestedGroups :
    let text := "V(a (b))c B (U(d e".toList
    let groups := ["V(a (b))", "c", "B", "(", "U(d e"].map String.toList
    (stepTimes round 7 (start text)).group = some ("V(a (b)".toList, 1) ∧ (0 : Int) ≤ 1 ∧
    (stepTimes round 19 (start text)).tokens = groups ∧
    CapitalToken text [] "U(d e".toList ∧
    capitalTokens ([' '].intercalate groups) = groups := by
  intro text groups
  obtain ⟨hcount, hrun, -, -, htoken, hagain⟩ := CapitalScan.cuts_text text
  have hgroup : (stepTimes round 7 (start text)).group = some ("V(a (b)".toList, 1) := by
    decide +kernel
  have htokens : (stepTimes round 19 (start text)).tokens = groups := by decide +kernel
  have hcapitals : capitalTokens text = groups := by
    rw [← htokens]
    exact (congrArg CapitalScan.tokens hrun).symm
  rw [hcapitals] at hagain
  exact ⟨hgroup, hcount _ _ _ hgroup, htokens, htoken (groups.take 4) _ [] hcapitals, hagain⟩

end FormalGrammars
