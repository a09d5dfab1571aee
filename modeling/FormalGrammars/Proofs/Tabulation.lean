import FormalGrammars.Proofs.Chart
import Mathlib.Tactic.ByContra

/-!
# The chart row by row

Every step of a chart parser fills the row of one more length.  After any
number of steps the cells that are filled list the variables that derive their
spans and no others, each with the first reason that the order of the splits
and of the productions gives.  The parser ends with the row of the whole input,
or at once when the input cannot be a string of the language.
-/

namespace FormalGrammars

/-- What is found in a range is found at the least index that has something. -/
theorem exists_least_of_findSome?_range {α : Type} {f : Nat → Option α}
    {count : Nat} {a : α} (hfind : (List.range count).findSome? f = some a) :
    ∃ i, i < count ∧ f i = some a ∧ ∀ j, j < i → f j = none := by
  rcases List.findSome?_eq_some_iff.mp hfind with
    ⟨before, i, after, hsplit, hat, hbefore⟩
  have hi : i < count := by
    rw [← List.mem_range, hsplit]
    exact List.mem_append_right before List.mem_cons_self
  refine ⟨i, hi, hat, ?_⟩
  intro j hj
  apply hbefore
  have hmem : j ∈ before ++ i :: after := by
    rw [← hsplit, List.mem_range]
    omega
  have hsorted : (before ++ i :: after).Pairwise (· < ·) := by
    rw [← hsplit]
    exact List.pairwise_lt_range
  rcases List.mem_append.mp hmem with hin | hin
  · exact hin
  · have hle : i ≤ j := by
      rcases List.mem_cons.mp hin with heq | hin
      · exact Nat.le_of_eq heq.symm
      · exact Nat.le_of_lt
          ((List.pairwise_cons.mp (List.pairwise_append.mp hsorted).2.1).1 j hin)
    omega

/-! ## The first production with a property -/

namespace Grammar

variable {g : Grammar}

def Earliest (g : Grammar) (fits : Production → Prop) (p : Production) : Prop :=
  fits p ∧ ∃ before after, g.productions = before ++ p :: after ∧
    ∀ q ∈ before, ¬ fits q

theorem Earliest.mem {fits : Production → Prop} {p : Production}
    (hp : g.Earliest fits p) : p ∈ g.productions := by
  rcases hp.2 with ⟨before, after, hsplit, _⟩
  rw [hsplit]
  exact List.mem_append_right before List.mem_cons_self

theorem Earliest.congr {fits others : Production → Prop} {p : Production}
    (hsame : ∀ q ∈ g.productions, fits q ↔ others q)
    (hp : g.Earliest fits p) : g.Earliest others p := by
  have hmem := hp.mem
  rcases hp with ⟨hfits, before, after, hsplit, hbefore⟩
  refine ⟨(hsame p hmem).mp hfits, before, after, hsplit, ?_⟩
  intro q hq hother
  have hq' : q ∈ g.productions := by
    rw [hsplit]
    exact List.mem_append_left _ hq
  exact hbefore q hq ((hsame q hq').mpr hother)

end Grammar

namespace Chart

variable {g : Grammar} {input : Form} {chart : Chart}

section Candidates

variable {candidate? : Production → Option (Symbol × Reason)} {s : Symbol}

/-- When each production has one candidate at most, the first production with
a candidate for the variable gives its reason. -/
theorem earliest_of_get? {reason : Reason}
    (hget : OrderedMap.get? ⟨g.productions.filterMap candidate?⟩ s =
      some reason) :
    ∃ p, candidate? p = some (s, reason) ∧
      g.Earliest (fun q => ∃ other, candidate? q = some (s, other)) p := by
  rcases Option.map_eq_some_iff.mp hget with ⟨entry, hfind, hreason⟩
  have hkey : entry.1 = s := by simpa using List.find?_some hfind
  rw [List.find?_filterMap, Option.bind_eq_some_iff] at hfind
  rcases hfind with ⟨p, hfind, hcandidate⟩
  rcases List.find?_eq_some_iff_append.mp hfind with
    ⟨_, before, after, hsplit, hbefore⟩
  have hentry : entry = (s, reason) := Prod.ext hkey hreason
  rw [hentry] at hcandidate
  refine ⟨p, hcandidate, ⟨reason, hcandidate⟩, before, after, hsplit, ?_⟩
  intro q hq hother
  rcases hother with ⟨other, hother⟩
  have hnot := hbefore q hq
  rw [hother] at hnot
  simp at hnot

theorem not_candidate_of_get? (hget :
    OrderedMap.get? ⟨g.productions.filterMap candidate?⟩ s = none)
    {p : Production} (hp : p ∈ g.productions) :
    ¬ ∃ reason, candidate? p = some (s, reason) := by
  intro hcandidate
  rcases hcandidate with ⟨reason, hcandidate⟩
  apply OrderedMap.get?_eq_none_iff.mp hget
  have hmem : (s, reason) ∈ g.productions.filterMap candidate? :=
    List.mem_filterMap.mpr ⟨p, hp, hcandidate⟩
  exact List.mem_map.mpr ⟨(s, reason), hmem, rfl⟩

end Candidates

/-! ## The first reason of a variable -/

/-- The two variables of the production derive the two parts of the span. -/
structure Fits (g : Grammar) (input : Form) (s : Symbol)
    (start length split : Nat) (p : Production) : Prop where
  head_eq : p.head? = some s
  pos : 0 < split
  lt : split < length
  derives : ∃ first second, p.rhs = [first, second] ∧
    g.Derives [first] (span input start split) ∧
    g.Derives [second] (span input (start + split) (length - split))

/-- The first production that writes the span, or the first one that fits at
the smallest split at which there is any. -/
inductive Chosen (g : Grammar) (input : Form) (s : Symbol) (start : Nat) :
    Nat → Reason → Prop where
  | word {p : Production}
      (hfirst : g.Earliest
        (fun q => q.head? = some s ∧ q.rhs = span input start 1) p) :
      Chosen g input s start 1 (.word p)
  | split {p : Production} {split length : Nat}
      (hfirst : g.Earliest (Fits g input s start length split) p)
      (hleast : ∀ i, i < split → ∀ q ∈ g.productions,
        ¬ Fits g input s start length i q) :
      Chosen g input s start length (.split p split)

theorem Fits.derives_span {s : Symbol} {start length split : Nat}
    {p : Production} (hfits : Fits g input s start length split p)
    (hmem : p ∈ g.productions) : g.Derives [s] (span input start length) := by
  rcases hfits.derives with ⟨first, second, hrhs, hleft, hright⟩
  have hstep := Grammar.Derives.of_production hmem hfits.head_eq
  rw [hrhs] at hstep
  rw [span_split input start (Nat.le_of_lt hfits.lt)]
  exact hstep.trans (hleft.append hright)

theorem Chosen.derives {s : Symbol} {start length : Nat} {reason : Reason}
    (hchosen : Chosen g input s start length reason) :
    g.Derives [s] (span input start length) := by
  cases hchosen with
  | @word p hfirst =>
      have hstep := Grammar.Derives.of_production hfirst.mem hfirst.1.1
      rwa [hfirst.1.2] at hstep
  | split hfirst _ => exact hfirst.1.derives_span hfirst.mem

theorem Chosen.isVar {s : Symbol} {start length : Nat} {reason : Reason}
    (hchosen : Chosen g input s start length reason) : s.isVar = true := by
  cases hchosen with
  | word hfirst => exact Grammar.isVar_of_head? hfirst.1.1
  | split hfirst _ => exact Grammar.isVar_of_head? hfirst.1.head_eq

/-! ## Exact charts -/

/-- The cell of a span. -/
structure CellExact (g : Grammar) (input : Form) (start length : Nat)
    (cell : Cell) : Prop where
  keys_nodup : cell.keys.Nodup
  mem_keys_iff : ∀ s, s ∈ cell.keys ↔
    s.isVar = true ∧ g.Derives [s] (span input start length)
  chosen : ∀ s reason, cell.get? s = some reason →
    Chosen g input s start length reason

/-- There is a row for each length up to a count, with a cell for each span of
that length. -/
structure Exact (g : Grammar) (input : Form) (count : Nat) (chart : Chart) :
    Prop where
  filled_eq : chart.filled = count
  row_length : ∀ length row, 0 < length →
    chart.rows[length - 1]? = some row → row.length = input.length + 1 - length
  cells : ∀ start length, 0 < length → length ≤ count →
    start + length ≤ input.length →
      ∃ cell, chart.cell? start length = some cell ∧
        CellExact g input start length cell

theorem exact_zero (g : Grammar) (input : Form) : Exact g input 0 {} := by
  constructor
  · rfl
  · intro length row _ hrow
    cases hrow
  · intro start length hpos hle _
    omega

theorem InNormalForm.contextFree (hg : InNormalForm g) : g.ContextFree :=
  fun p hp => Production.hasHead_of_isChomsky (hg p hp)

/-- The reasons of a cell say what derives the span, and a filled chart misses
nothing that does. -/
theorem Filled.cellExact_last (hg : InNormalForm g) {count : Nat}
    {row : List Cell} (hrows : chart.rows.length = count)
    (hfilled : Filled g input (count + 1) ⟨chart.rows ++ [row]⟩) {start : Nat}
    {cell : Cell} (hbound : start + (count + 1) ≤ input.length)
    (hcell : row[start]? = some cell) (hnodup : cell.keys.Nodup)
    (hchosen : ∀ s reason, cell.get? s = some reason →
      Chosen g input s start (count + 1) reason) :
    CellExact g input start (count + 1) cell := by
  refine ⟨hnodup, ?_, hchosen⟩
  intro s
  constructor
  · intro hs
    rcases OrderedMap.get?_of_mem_keys hs with ⟨reason, hget⟩
    have hreason := hchosen s reason hget
    exact ⟨hreason.isVar, hreason.derives⟩
  · intro hs
    rw [← Grammar.yields_iff_derives hg.contextFree] at hs
    rcases hfilled.complete start (count + 1) s (Nat.succ_pos count)
      (Nat.le_refl _) hbound hs.1 hs.2 with ⟨found, hfound, hmem⟩
    rw [← hrows, cell?_last, hcell, Option.some.injEq] at hfound
    rwa [hfound]

/-- A row of the next length, whose cells have the first reasons. -/
theorem Exact.append (hg : InNormalForm g) {count : Nat}
    (hchart : Exact g input count chart) {row : List Cell}
    (hfilled : Filled g input (count + 1) ⟨chart.rows ++ [row]⟩)
    (hlength : row.length = input.length + 1 - (count + 1))
    (hnodup : ∀ cell ∈ row, cell.keys.Nodup)
    (hchosen : ∀ start cell s reason, row[start]? = some cell →
      cell.get? s = some reason →
        Chosen g input s start (count + 1) reason) :
    Exact g input (count + 1) ⟨chart.rows ++ [row]⟩ := by
  have hrows : chart.rows.length = count := hchart.filled_eq
  -- a length up to the count is read from the old rows, the next one from the
  -- new row
  constructor
  · exact hfilled.rows_length
  · intro length other hpos hother
    by_cases hold : length ≤ count
    · rw [List.getElem?_append_left (by omega)] at hother
      exact hchart.row_length length other hpos hother
    · rcases List.getElem?_eq_some_iff.mp hother with ⟨hlt, _⟩
      rw [List.length_append, List.length_singleton] at hlt
      have hlast : length = count + 1 := by omega
      rw [hlast, Nat.add_sub_cancel, ← hrows, List.getElem?_concat_length,
        Option.some.injEq] at hother
      rw [← hother, hlast, hlength]
  · intro start length hpos hle hbound
    by_cases hold : length ≤ count
    · rcases hchart.cells start length hpos hold hbound with
        ⟨cell, hcell, hexact⟩
      exact ⟨cell, (cell?_append (by omega)).trans hcell, hexact⟩
    · have hlast : length = count + 1 := by omega
      subst hlast
      have hexists : ∃ cell, row[start]? = some cell :=
        ⟨_, List.getElem?_eq_getElem (by omega)⟩
      rcases hexists with ⟨cell, hcell⟩
      refine ⟨cell, ?_, ?_⟩
      · rw [← hrows, cell?_last, hcell]
      · exact hfilled.cellExact_last hg hrows hbound hcell
          (hnodup cell (List.mem_of_getElem? hcell))
          fun s reason => hchosen start cell s reason hcell

/-! ## Filling a row -/

theorem chosen_of_wordCell {start : Nat} {s t : Symbol} {reason : Reason}
    (ht : input[start]? = some t)
    (hget : (wordCell g t).get? s = some reason) :
    Chosen g input s start 1 reason := by
  rw [wordCell_eq, get?_ofCandidates] at hget
  rcases earliest_of_get? hget with ⟨p, hcandidate, hfirst⟩
  rcases wordCandidate?_eq_some_iff.mp hcandidate with ⟨_, _, hreason⟩
  rw [hreason]
  apply Chosen.word
  apply hfirst.congr
  intro q _
  simp only [wordCandidate?_eq_some_iff, span_one ht]
  constructor
  · intro hq
    rcases hq with ⟨_, hhead, hrhs, _⟩
    exact ⟨hhead, hrhs⟩
  · intro hq
    exact ⟨.word q, hq.1, hq.2, rfl⟩

theorem exact_fillWords (hg : InNormalForm g)
    (hinput : Form.isTerminal input = true) :
    Exact g input 1 (({} : Chart).fillWords g input) := by
  apply (exact_zero g input).append hg (filled_fillWords hg hinput)
  · rw [List.length_map]
    omega
  · intro cell hcell
    rcases List.mem_map.mp hcell with ⟨t, _, ht⟩
    rw [← ht, wordCell_eq]
    exact keys_nodup_ofCandidates _
  · intro start cell s reason hcell hget
    rw [List.getElem?_map, Option.map_eq_some_iff] at hcell
    rcases hcell with ⟨t, ht, hcell⟩
    rw [← hcell] at hget
    exact chosen_of_wordCell ht hget

/-- The cells of both parts are there, and a production has a candidate at the
split when it fits. -/
theorem Exact.exists_parts (hg : InNormalForm g) {count : Nat}
    (hchart : Exact g input count chart) {start split : Nat}
    (hbound : start + (count + 1) ≤ input.length) (hpos : 0 < split)
    (hlt : split < count + 1) :
    ∃ left right, chart.cell? start split = some left ∧
      chart.cell? (start + split) (count + 1 - split) = some right ∧
      ∀ s, ∀ p ∈ g.productions,
        (∃ reason, pairCandidate? left right split p = some (s, reason)) ↔
          Fits g input s start (count + 1) split p := by
  rcases hchart.cells start split hpos (by omega) (by omega) with
    ⟨left, hleftCell, hleft⟩
  rcases hchart.cells (start + split) (count + 1 - split) (by omega)
    (by omega) (by omega) with ⟨right, hrightCell, hright⟩
  refine ⟨left, right, hleftCell, hrightCell, ?_⟩
  intro s p hp
  simp only [pairCandidate?_eq_some_iff]
  constructor
  · intro hcandidate
    rcases hcandidate with
      ⟨_, hhead, _, first, second, hrhs, hfirst, hsecond⟩
    have hfirstDerives := ((hleft.mem_keys_iff first).mp hfirst).2
    have hsecondDerives := ((hright.mem_keys_iff second).mp hsecond).2
    exact ⟨hhead, hpos, hlt, first, second, hrhs, hfirstDerives,
      hsecondDerives⟩
  · intro hfits
    rcases hfits.derives with
      ⟨first, second, hrhs, hfirstDerives, hsecondDerives⟩
    rcases rhs_of_isChomsky (hg p hp) with
      ⟨t, _, hone⟩ | ⟨_, _, hfirstVar, hsecondVar, htwo⟩
    · rw [hone] at hrhs
      cases hrhs
    · rw [htwo] at hrhs
      cases hrhs
      have hfirst := (hleft.mem_keys_iff first).mpr ⟨hfirstVar, hfirstDerives⟩
      have hsecond :=
        (hright.mem_keys_iff second).mpr ⟨hsecondVar, hsecondDerives⟩
      exact ⟨_, hfits.head_eq, rfl, first, second, htwo, hfirst, hsecond⟩

theorem Exact.chosen_of_spanCell (hg : InNormalForm g) {count : Nat}
    (hchart : Exact g input count chart) {start : Nat} {s : Symbol}
    {reason : Reason} (hbound : start + (count + 1) ≤ input.length)
    (hget : (chart.spanCell g start (count + 1)).get? s = some reason) :
    Chosen g input s start (count + 1) reason := by
  rw [spanCell_eq, get?_ofCandidates, spanCandidates,
    OrderedMap.get?_flatMap] at hget
  -- the splits are tried in their order, so the first one that gives a reason
  -- is the smallest at which a production fits
  rcases exists_least_of_findSome?_range hget with ⟨i, hi, hat, hbefore⟩
  rcases hchart.exists_parts hg hbound (Nat.succ_pos i) (by omega) with
    ⟨left, right, hleft, hright, hfits⟩
  simp only [hleft, hright] at hat
  rcases earliest_of_get? hat with ⟨p, hcandidate, hfirst⟩
  rcases pairCandidate?_eq_some_iff.mp hcandidate with ⟨_, hreason, _⟩
  rw [hreason]
  apply Chosen.split (hfirst.congr (hfits s))
  intro split hsplit q hq hother
  have hpos := hother.pos
  have hnone := hbefore (split - 1) (by omega)
  rw [Nat.sub_add_cancel hpos] at hnone
  rcases hchart.exists_parts hg hbound hpos hother.lt with
    ⟨left, right, hleft, hright, hfits⟩
  simp only [hleft, hright] at hnone
  exact not_candidate_of_get? hnone hq ((hfits s q hq).mpr hother)

theorem Exact.fillSpans (hg : InNormalForm g) {count : Nat}
    (hchart : Exact g input count chart)
    (hfilled : Filled g input (count + 1)
      (chart.fillSpans g input (count + 1))) :
    Exact g input (count + 1) (chart.fillSpans g input (count + 1)) := by
  apply hchart.append hg hfilled
  · rw [List.length_map, List.length_range]
  · intro cell hcell
    rcases List.mem_map.mp hcell with ⟨start, _, hstart⟩
    rw [← hstart, spanCell_eq]
    exact keys_nodup_ofCandidates _
  · intro start cell s reason hcell hget
    rw [List.getElem?_map, Option.map_eq_some_iff] at hcell
    rcases hcell with ⟨i, hi, hcell⟩
    rcases List.getElem?_eq_some_iff.mp hi with ⟨hlt, hi⟩
    rw [List.length_range] at hlt
    rw [List.getElem_range] at hi
    rw [← hcell, ← hi] at hget
    exact hchart.chosen_of_spanCell hg (by omega) hget

/-- A filled cell has the variables that derive its span. -/
theorem Exact.has_iff {count : Nat} (hchart : Exact g input count chart)
    {start length : Nat} (hpos : 0 < length) (hle : length ≤ count)
    (hbound : start + length ≤ input.length) {s : Symbol} :
    chart.Has start length s ↔
      s.isVar = true ∧ g.Derives [s] (span input start length) := by
  rcases hchart.cells start length hpos hle hbound with ⟨cell, hcell, hexact⟩
  rw [← hexact.mem_keys_iff]
  constructor
  · intro hhas
    rcases hhas with ⟨other, hother, hs⟩
    rw [hcell, Option.some.injEq] at hother
    rwa [hother]
  · intro hs
    exact ⟨cell, hcell, hs⟩

end Chart

/-! ## Inputs that are turned down at once -/

namespace Grammar

variable {g : Grammar} {start : Symbol} {input : Form}

/-- A string of terminals of the grammar that is not empty. -/
def Spells (g : Grammar) (input : Form) : Prop :=
  input ≠ [] ∧ ∀ s ∈ input, s ∈ g.terminals

theorem Spells.all_hasTerminal (hspells : g.Spells input) :
    input.all g.hasTerminal = true := by
  rw [List.all_eq_true]
  intro s hs
  exact decide_eq_true (hspells.2 s hs)

theorem stops_of_not_spells (hspells : ¬ g.Spells input) :
    (input.isEmpty || !input.all g.hasTerminal) = true := by
  by_contra hpasses
  apply hspells
  rw [Bool.not_eq_true, Bool.or_eq_false_iff, Bool.not_eq_false',
    List.all_eq_true] at hpasses
  refine ⟨List.isEmpty_eq_false_iff.mp hpasses.1, ?_⟩
  intro s hs
  exact of_decide_eq_true (hpasses.2 s hs)

/-- The strings of the language pass the first look at the input. -/
theorem spells_of_language (hg : g.Consistent) (hform : Chart.InNormalForm g)
    (hstart : g.start = some start) (hword : g.Language input) :
    g.Spells input := by
  have hcontextFree : g.requireContextFree = .ok start :=
    requireContextFree_eq_ok_iff.mpr ⟨hstart, hform.contextFree⟩
  rcases (language_iff_yields hcontextFree).mp hword with ⟨hinput, hyields⟩
  constructor
  · intro hnil
    have hle := Chart.length_le_of_yields hform hyields
    rw [hnil] at hle
    simp at hle
  · intro s hs
    exact hg.mem_terminals_of_mem_yield hstart hyields hinput hs

end Grammar

/-! ## Runs of the parser -/

namespace ChartParser

variable {g : Grammar} {start : Symbol} {input : Form} {parser : ChartParser}

theorem step_of_isFinal (hfinal : parser.status.isFinal = true) :
    parser.step = parser := by
  unfold step
  cases hstatus : parser.status with
  | accepted => rfl
  | rejected => rfl
  | idle =>
      rw [hstatus] at hfinal
      cases hfinal
  | running length =>
      rw [hstatus] at hfinal
      cases hfinal

theorem stepTimes_of_isFinal {count : Nat}
    (hfinal : (stepTimes step count parser).status.isFinal = true)
    (more : Nat) :
    stepTimes step (count + more) parser = stepTimes step count parser := by
  rw [stepTimes_add, stepTimes_of_fixed (step_of_isFinal hfinal)]

theorem Running.isFinal (hparser : Running g start input input.length parser) :
    parser.status.isFinal = true := by
  rw [hparser.status_eq, statusAt, hparser.input_eq, if_pos rfl]
  split
  next => rfl
  next => rfl

/-- Up to the whole input each step fills one row. -/
theorem exact_stepTimes (hform : Chart.InNormalForm g)
    (hspells : g.Spells input) {count : Nat} (hle : count ≤ input.length) :
    Chart.Exact g input count
      (stepTimes step count (idle g start input)).chart := by
  have hknown := hspells.all_hasTerminal
  have hinput := isTerminal_of_known hknown
  induction count with
  | zero => exact Chart.exact_zero g input
  | succ count ih =>
      have hchart := ih (by omega)
      rw [stepTimes_succ_eq_step]
      -- the first step fills a row in another way than the later ones
      cases count with
      | zero =>
          rw [stepTimes, step_idle hspells.1 hknown]
          exact Chart.exact_fillWords hform hinput
      | succ count =>
          have hrun : Running g start input (count + 1) _ :=
            running_stepTimes hform hinput hknown (by omega)
          have hnext := (hrun.step hform hinput (Nat.succ_pos count) hle).filled
          rw [hrun.chart_step hle] at hnext ⊢
          exact hchart.fillSpans hform hnext

theorem running_stepTimes_of_spells (hform : Chart.InNormalForm g)
    (hspells : g.Spells input) {count : Nat} (hpos : 0 < count)
    (hle : count ≤ input.length) :
    Running g start input count
      (stepTimes step count (idle g start input)) := by
  have hknown := hspells.all_hasTerminal
  cases count with
  | zero => omega
  | succ count =>
      exact running_stepTimes hform (isTerminal_of_known hknown) hknown hle

/-- After the whole input nothing changes any more. -/
theorem stepTimes_eq_last (hform : Chart.InNormalForm g)
    (hspells : g.Spells input) {count : Nat} (hle : input.length ≤ count) :
    stepTimes step count (idle g start input) =
      stepTimes step input.length (idle g start input) := by
  have hpos := List.length_pos_iff.mpr hspells.1
  have hlast : Running g start input input.length _ :=
    running_stepTimes_of_spells hform hspells hpos (Nat.le_refl _)
  rw [← Nat.add_sub_of_le hle]
  exact stepTimes_of_isFinal hlast.isFinal _

theorem stepTimes_of_not_spells (hspells : ¬ g.Spells input) {count : Nat}
    (hpos : 0 < count) :
    stepTimes step count (idle g start input) =
      { idle g start input with status := .rejected } := by
  cases count with
  | zero => omega
  | succ count =>
      rw [stepTimes, step_idle_of_stops (Grammar.stops_of_not_spells hspells)]
      exact stepTimes_of_fixed rfl count

/-- What a parser does by steps. -/
structure Advances (g : Grammar) (input : Form) (parser : ChartParser) :
    Prop where
  idle : parser.status = .idle
  tabulates : g.Spells input → ∀ count,
    Chart.Exact g input (min count input.length)
      (stepTimes step count parser).chart
  runs : g.Spells input → ∀ count, 0 < count → count < input.length →
    (stepTimes step count parser).status = .running count
  ends : g.Spells input → ∀ count, input.length ≤ count →
    (stepTimes step count parser).status.isFinal = true
  rejects : ¬ g.Spells input → ∀ count, 0 < count →
    (stepTimes step count parser).status = .rejected ∧
      (stepTimes step count parser).chart.filled = 0
  stays : ∀ count, (stepTimes step count parser).status.isFinal = true →
    ∀ more, stepTimes step (count + more) parser = stepTimes step count parser
  accepts_iff : (∃ count, (stepTimes step count parser).status = .accepted) ↔
    g.Language input

theorem accepted_iff_language (hform : Chart.InNormalForm g)
    (hstart : g.start = some start) (hvar : start.isVar = true)
    (hspells : g.Spells input) :
    (stepTimes step input.length (idle g start input)).status = .accepted ↔
      g.Language input := by
  have hpos := List.length_pos_iff.mpr hspells.1
  have hlast : Running g start input input.length _ :=
    running_stepTimes_of_spells hform hspells hpos (Nat.le_refl _)
  have hchart : Chart.Exact g input input.length
      (stepTimes step input.length (idle g start input)).chart :=
    exact_stepTimes hform hspells (Nat.le_refl _)
  have hinput := isTerminal_of_known hspells.all_hasTerminal
  rw [hlast.accepted_iff, hchart.has_iff hpos (Nat.le_refl _) (by omega),
    Chart.span_all]
  constructor
  · intro hderives
    exact ⟨hinput, start, hstart, hderives.2⟩
  · intro hword
    rcases hword.2 with ⟨other, hother, hderives⟩
    rw [hstart, Option.some.injEq] at hother
    exact ⟨hvar, hother ▸ hderives⟩

theorem exists_accepted_iff (hg : g.Consistent) (hform : Chart.InNormalForm g)
    (hstart : g.start = some start) :
    (∃ count, (stepTimes step count (idle g start input)).status =
      .accepted) ↔ g.Language input := by
  have hvar := hg.start_isVar start hstart
  constructor
  · intro haccepted
    rcases haccepted with ⟨count, hstatus⟩
    have hcount : 0 < count := by
      by_contra hzero
      have hnone : count = 0 := by omega
      rw [hnone] at hstatus
      cases hstatus
    by_cases hspells : g.Spells input
    · have hle : input.length ≤ count := by
        by_contra hlt
        have hrun : Running g start input count _ :=
          running_stepTimes_of_spells hform hspells hcount (by omega)
        rw [hrun.status_eq_running (by omega)] at hstatus
        cases hstatus
      rw [stepTimes_eq_last hform hspells hle] at hstatus
      exact (accepted_iff_language hform hstart hvar hspells).mp hstatus
    · rw [stepTimes_of_not_spells hspells hcount] at hstatus
      cases hstatus
  · intro hword
    have hspells := Grammar.spells_of_language hg hform hstart hword
    exact ⟨input.length,
      (accepted_iff_language hform hstart hvar hspells).mpr hword⟩

/-- A parser of a grammar in normal form fills the chart row by row, unless it
turns the input down at once, and accepts the strings of the language. -/
theorem ofGrammar_advances (hg : g.Consistent) (hform : Chart.InNormalForm g)
    (hstart : g.start = some start) (input : Form) :
    ∃ parser, ofGrammar g input = .ok parser ∧ Advances g input parser := by
  have hcontextFree : g.requireContextFree = .ok start :=
    Grammar.requireContextFree_eq_ok_iff.mpr ⟨hstart, hform.contextFree⟩
  refine ⟨ChartParser.idle g start input,
    ofGrammar_eq_ok hform hcontextFree input, ?_⟩
  constructor
  · rfl
  · intro hspells count
    by_cases hle : count ≤ input.length
    · rw [Nat.min_eq_left hle]
      exact exact_stepTimes hform hspells hle
    · rw [Nat.min_eq_right (by omega),
        stepTimes_eq_last hform hspells (by omega)]
      exact exact_stepTimes hform hspells (Nat.le_refl _)
  · intro hspells count hpos hlt
    have hrun : Running g start input count _ :=
      running_stepTimes_of_spells hform hspells hpos (Nat.le_of_lt hlt)
    exact hrun.status_eq_running hlt
  · intro hspells count hle
    have hlast : Running g start input input.length _ :=
      running_stepTimes_of_spells hform hspells
        (List.length_pos_iff.mpr hspells.1) (Nat.le_refl _)
    rw [stepTimes_eq_last hform hspells hle]
    exact hlast.isFinal
  · intro hspells count hpos
    rw [stepTimes_of_not_spells hspells hpos]
    exact ⟨rfl, rfl⟩
  · intro count hfinal more
    exact stepTimes_of_isFinal hfinal more
  · exact exists_accepted_iff hg hform hstart

/-- `S → TA | AT`, `T → AA` and `A → a`: the string `aaa` is cut either way, and
the production that comes second fits at the smaller split. -/
def eitherWay : Grammar :=
  Grammar.withProductions { start := some (.var "S") }
    [.rule (.var "S") [.var "T", .var "A"],
      .rule (.var "S") [.var "A", .var "T"],
      .rule (.var "T") [.var "A", .var "A"],
      .rule (.var "A") [.term "a"]]

theorem ofGrammar_eitherWay :
    ∃ parser, ofGrammar eitherWay (List.replicate 3 (.term "a")) = .ok parser ∧
      (stepTimes step 2 parser).status = .running 2 ∧
      (stepTimes step 2 parser).chart.filled = 2 ∧
      (∃ cell, (stepTimes step 3 parser).chart.cell? 0 3 = some cell ∧
        cell.get? (.var "S") =
          some (.split (.rule (.var "S") [.var "A", .var "T"]) 1) ∧
        eitherWay.Derives [.var "S"] (List.replicate 3 (.term "a"))) ∧
      eitherWay.Language (List.replicate 3 (.term "a")) := by
  have hform : Chart.InNormalForm eitherWay := by
    unfold Chart.InNormalForm
    decide +kernel
  rcases ofGrammar_advances (Grammar.consistent_of_start rfl _) hform rfl
    (List.replicate 3 (.term "a")) with ⟨parser, hparser, hadvances⟩
  have hspells : eitherWay.Spells (List.replicate 3 (.term "a")) := by
    constructor
    · decide
    · decide +kernel
  have hbuilt : idle eitherWay (.var "S") (List.replicate 3 (.term "a")) =
      parser := Except.ok.inj hparser
  subst hbuilt
  have hchart := hadvances.tabulates hspells
  have hreason : ∃ cell, (stepTimes step 3 (idle eitherWay (.var "S")
      (List.replicate 3 (.term "a")))).chart.cell? 0 3 = some cell ∧
      cell.get? (.var "S") =
        some (.split (.rule (.var "S") [.var "A", .var "T"]) 1) :=
    ⟨_, rfl, by decide +kernel⟩
  rcases hreason with ⟨cell, hcell, hget⟩
  rcases (hchart 3).cells 0 3 (by decide) (by decide) (by decide) with
    ⟨other, hother, hexact⟩
  rw [hcell, Option.some.injEq] at hother
  have hderives := (hexact.chosen _ _ (hother ▸ hget)).derives
  refine ⟨_, hparser, hadvances.runs hspells 2 (by decide) (by decide),
    (hchart 2).filled_eq, ⟨cell, hcell, hget, hderives⟩, ?_⟩
  exact hadvances.accepts_iff.mp ⟨3, by decide +kernel⟩

end ChartParser

end FormalGrammars
