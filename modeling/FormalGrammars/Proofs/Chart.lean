import FormalGrammars.Chart
import FormalGrammars.Proofs.Yield

/-!
# The chart holds what the spans are yielded from

A cell is filled from a list of candidates, each a variable with a reason.  So
a variable is in a cell when some candidate has it, and its reason is the one
of a candidate.  The reasons are followed down to a tree of the span, and every
variable that yields the span is a candidate, because its production cuts the
span into two shorter ones.
-/

namespace FormalGrammars

namespace Chart

variable {g : Grammar} {input : Form} {chart : Chart}

/-! ## Candidates -/

def ofCandidates (candidates : List (Symbol × Reason)) : Cell :=
  candidates.foldl (fun cell entry => cell.insertIfNew entry.1 entry.2) ⟨[]⟩

theorem mem_keys_ofCandidates {candidates : List (Symbol × Reason)}
    {s : Symbol} : s ∈ (ofCandidates candidates).keys ↔
      ∃ reason, (s, reason) ∈ candidates := by
  unfold ofCandidates
  rw [OrderedMap.keys_foldl_insertIfNew, mem_extendNew]
  constructor
  · rintro (hold | hnew)
    · exact absurd hold List.not_mem_nil
    · obtain ⟨⟨_, reason⟩, hentry, rfl⟩ := List.mem_map.mp hnew
      exact ⟨reason, hentry⟩
  · rintro ⟨reason, hentry⟩
    exact .inr (List.mem_map.mpr ⟨_, hentry, rfl⟩)

/-- The first candidate of a variable gives its reason. -/
theorem get?_ofCandidates (candidates : List (Symbol × Reason)) (s : Symbol) :
    (ofCandidates candidates).get? s = OrderedMap.get? ⟨candidates⟩ s := by
  unfold ofCandidates
  rw [OrderedMap.get?_foldl_insertIfNew]
  rfl

theorem mem_of_get?_ofCandidates {candidates : List (Symbol × Reason)}
    {s : Symbol} {reason : Reason}
    (hget : (ofCandidates candidates).get? s = some reason) :
    (s, reason) ∈ candidates := by
  rw [get?_ofCandidates] at hget
  exact OrderedMap.mem_entries_of_get? hget

theorem keys_nodup_ofCandidates (candidates : List (Symbol × Reason)) :
    (ofCandidates candidates).keys.Nodup := by
  unfold ofCandidates
  rw [OrderedMap.keys_foldl_insertIfNew]
  exact nodup_extendNew List.nodup_nil _

def wordCandidate? (s : Symbol) (p : Production) : Option (Symbol × Reason) :=
  p.head?.bind fun head => if p.rhs = [s] then some (head, .word p) else none

theorem wordCell_eq (g : Grammar) (s : Symbol) :
    wordCell g s = ofCandidates (g.productions.filterMap (wordCandidate? s)) := by
  unfold wordCell ofCandidates
  rw [List.foldl_filterMap]
  congr 1
  funext cell p
  unfold wordCandidate?
  cases p.head? with
  | none => rfl
  | some head =>
      simp only [Option.bind_some]
      split <;> rfl

theorem wordCandidate?_eq_some_iff {s t : Symbol} {p : Production}
    {reason : Reason} : wordCandidate? s p = some (t, reason) ↔
      p.head? = some t ∧ p.rhs = [s] ∧ reason = .word p := by
  unfold wordCandidate?
  cases p.head? with
  | none => simp
  | some head =>
      simp only [Option.bind_some, Option.some.injEq]
      split
      next hrhs =>
        rw [Option.some.injEq, Prod.mk.injEq]
        exact ⟨fun h => ⟨h.1, hrhs, h.2.symm⟩, fun h => ⟨h.1, h.2.2.symm⟩⟩
      next hrhs => simp [hrhs]

theorem mem_wordCandidates {s t : Symbol} {reason : Reason} :
    (t, reason) ∈ g.productions.filterMap (wordCandidate? s) ↔
      ∃ p ∈ g.productions, p.head? = some t ∧ p.rhs = [s] ∧
        reason = .word p := by
  simp only [List.mem_filterMap, wordCandidate?_eq_some_iff]

def pairCandidate? (left right : Cell) (split : Nat) (p : Production) :
    Option (Symbol × Reason) :=
  match p.head?, p.rhs with
  | some head, [first, second] =>
    if left.contains first && right.contains second then
      some (head, .split p split)
    else none
  | _, _ => none

theorem addPair_eq (left right : Cell) (split : Nat) (cell : Cell)
    (p : Production) : addPair left right split cell p =
      match pairCandidate? left right split p with
      | some entry => cell.insertIfNew entry.1 entry.2
      | none => cell := by
  unfold addPair pairCandidate?
  cases p.head? with
  | none => rfl
  | some head =>
      match p.rhs with
      | [] => rfl
      | [_] => rfl
      | [_, _] =>
          simp only
          split <;> rfl
      | _ :: _ :: _ :: _ => rfl

theorem pairCandidate?_eq_some_iff {left right : Cell} {split : Nat}
    {p : Production} {t : Symbol} {reason : Reason} :
    pairCandidate? left right split p = some (t, reason) ↔
      p.head? = some t ∧ reason = .split p split ∧
        ∃ first second, p.rhs = [first, second] ∧
          first ∈ left.keys ∧ second ∈ right.keys := by
  unfold pairCandidate?
  split
  next head first second hhead hrhs =>
    rw [hhead, hrhs]
    split
    next hboth =>
      rw [Bool.and_eq_true, OrderedMap.contains_iff_mem_keys,
        OrderedMap.contains_iff_mem_keys] at hboth
      rw [Option.some.injEq, Prod.mk.injEq, Option.some.injEq]
      constructor
      · rintro ⟨rfl, rfl⟩
        exact ⟨rfl, rfl, first, second, rfl, hboth⟩
      · rintro ⟨rfl, rfl, _⟩
        exact ⟨rfl, rfl⟩
    next hboth =>
      rw [Bool.and_eq_true, OrderedMap.contains_iff_mem_keys,
        OrderedMap.contains_iff_mem_keys] at hboth
      refine ⟨fun h => by simp at h, ?_⟩
      rintro ⟨_, _, _, _, hpair, hin⟩
      simp only [List.cons.injEq, and_true] at hpair
      obtain ⟨rfl, rfl⟩ := hpair
      exact absurd hin hboth
  next hnone =>
    refine ⟨fun h => by simp at h, ?_⟩
    rintro ⟨hhead, _, first, second, hrhs, _⟩
    exact (hnone t first second hhead hrhs).elim

def spanCandidates (chart : Chart) (g : Grammar) (start length : Nat) :
    List (Symbol × Reason) :=
  (List.range (length - 1)).flatMap fun i =>
    match chart.cell? start (i + 1),
        chart.cell? (start + (i + 1)) (length - (i + 1)) with
    | some left, some right =>
      g.productions.filterMap (pairCandidate? left right (i + 1))
    | _, _ => []

theorem spanCell_eq (chart : Chart) (g : Grammar) (start length : Nat) :
    chart.spanCell g start length =
      ofCandidates (chart.spanCandidates g start length) := by
  unfold spanCell ofCandidates spanCandidates
  rw [List.foldl_flatMap]
  congr 1
  funext cell i
  cases chart.cell? start (i + 1) with
  | none => rfl
  | some left =>
      cases chart.cell? (start + (i + 1)) (length - (i + 1)) with
      | none => rfl
      | some right =>
          simp only [List.foldl_filterMap]
          congr 1
          funext cell p
          rw [addPair_eq]
          cases pairCandidate? left right (i + 1) p <;> rfl

/-- The variables of a span have a production whose variables are in the cells
of the two parts. -/
theorem mem_spanCandidates {start length : Nat} {t : Symbol}
    {reason : Reason} :
    (t, reason) ∈ chart.spanCandidates g start length ↔
      ∃ split left right, 0 < split ∧ split < length ∧
        chart.cell? start split = some left ∧
        chart.cell? (start + split) (length - split) = some right ∧
        ∃ p ∈ g.productions, p.head? = some t ∧ reason = .split p split ∧
          ∃ first second, p.rhs = [first, second] ∧
            first ∈ left.keys ∧ second ∈ right.keys := by
  unfold spanCandidates
  rw [List.mem_flatMap]
  constructor
  · rintro ⟨i, hi, hmem⟩
    rw [List.mem_range] at hi
    split at hmem
    next left right hleft hright =>
      obtain ⟨p, hp, hcandidate⟩ := List.mem_filterMap.mp hmem
      exact ⟨i + 1, left, right, by omega, by omega, hleft, hright, p, hp,
        pairCandidate?_eq_some_iff.mp hcandidate⟩
    next => exact absurd hmem List.not_mem_nil
  · rintro ⟨split, left, right, hpos, hlt, hleft, hright, p, hp, hcandidate⟩
    obtain ⟨i, rfl⟩ : ∃ i, split = i + 1 := ⟨split - 1, by omega⟩
    refine ⟨i, List.mem_range.mpr (by omega), ?_⟩
    rw [hleft, hright]
    exact List.mem_filterMap.mpr
      ⟨p, hp, pairCandidate?_eq_some_iff.mpr hcandidate⟩

/-! ## Spans -/

def span (input : Form) (start length : Nat) : Form :=
  (input.drop start).take length

theorem length_span {start length : Nat}
    (hbound : start + length ≤ input.length) :
    (span input start length).length = length := by
  unfold span
  rw [List.length_take, List.length_drop]
  omega

theorem span_split (input : Form) (start : Nat) {split length : Nat}
    (hle : split ≤ length) :
    span input start length =
      span input start split ++ span input (start + split) (length - split) := by
  unfold span
  rw [← List.drop_drop, ← List.take_add]
  congr 1
  omega

theorem span_one {start : Nat} {s : Symbol} (hs : input[start]? = some s) :
    span input start 1 = [s] := by
  obtain ⟨hlt, rfl⟩ := List.getElem?_eq_some_iff.mp hs
  unfold span
  rw [List.drop_eq_getElem_cons hlt]
  rfl

theorem span_all (input : Form) : span input 0 input.length = input := by
  unfold span
  rw [List.drop_zero, List.take_length]

theorem isTerminal_span (hinput : Form.isTerminal input = true)
    (start length : Nat) : Form.isTerminal (span input start length) = true := by
  unfold Form.isTerminal at hinput ⊢
  rw [List.all_eq_true] at hinput ⊢
  exact fun s hs => hinput s (List.mem_of_mem_drop (List.mem_of_mem_take hs))

/-! ## Yields in normal form -/

def InNormalForm (g : Grammar) : Prop :=
  ∀ p ∈ g.productions, p.isChomsky = true

theorem rhs_of_isChomsky {p : Production} (hp : p.isChomsky = true) :
    (∃ t, t.isTerm = true ∧ p.rhs = [t]) ∨
      ∃ first second, first.isVar = true ∧ second.isVar = true ∧
        p.rhs = [first, second] := by
  rw [Production.isChomsky, Bool.and_eq_true] at hp
  have hshape := hp.2
  split at hshape
  next t hrhs => exact .inl ⟨t, hshape, hrhs⟩
  next first second hrhs =>
    rw [Bool.and_eq_true] at hshape
    exact .inr ⟨first, second, hshape.1, hshape.2, hrhs⟩
  next => cases hshape

theorem length_le_of_yields (hg : InNormalForm g) {form word : Form}
    (hyields : g.Yields form word) : form.length ≤ word.length := by
  induction hyields with
  | nil => exact Nat.le_refl _
  | keep s _ ih =>
      rw [List.length_cons, List.length_cons]
      omega
  | @expand s p rest left right hmem _ _ _ ihrhs ihrest =>
      have hpos : 1 ≤ p.rhs.length := by
        rcases rhs_of_isChomsky (hg p hmem) with
          ⟨t, _, hrhs⟩ | ⟨first, second, _, _, hrhs⟩
        · rw [hrhs]
          simp
        · rw [hrhs]
          simp
      rw [List.length_cons, List.length_append]
      omega

theorem exists_split_of_yields (hg : InNormalForm g) {start length : Nat}
    {first second : Symbol} (hbound : start + length ≤ input.length)
    (hyields : g.Yields [first, second] (span input start length)) :
    ∃ split, 0 < split ∧ split < length ∧
      g.Yields [first] (span input start split) ∧
      g.Yields [second] (span input (start + split) (length - split)) := by
  obtain ⟨left, right, heq, hleft, hright⟩ := hyields.exists_cons
  have hleftLength := length_le_of_yields hg hleft
  have hrightLength := length_le_of_yields hg hright
  rw [List.length_singleton] at hleftLength hrightLength
  have hlength := length_span hbound
  rw [heq, List.length_append] at hlength
  have hsplit := span_split input start (show left.length ≤ length by omega)
  rw [heq] at hsplit
  obtain ⟨hleftSpan, hrightSpan⟩ := List.append_inj hsplit
    (length_span (by omega)).symm
  exact ⟨left.length, by omega, by omega, hleftSpan ▸ hleft,
    hrightSpan ▸ hright⟩

/-! ## Filled charts -/

def Has (chart : Chart) (start length : Nat) (s : Symbol) : Prop :=
  ∃ cell, chart.cell? start length = some cell ∧ s ∈ cell.keys

/-- The production of a reason cuts the span as the reason says. -/
inductive Explains (g : Grammar) (input : Form) (chart : Chart)
    (s : Symbol) (start : Nat) : Nat → Reason → Prop where
  | word {p : Production} {t : Symbol} (hmem : p ∈ g.productions)
      (hhead : p.head? = some s) (hinput : input[start]? = some t)
      (hrhs : p.rhs = [t]) : Explains g input chart s start 1 (.word p)
  | split {p : Production} {first second : Symbol} {split length : Nat}
      (hmem : p ∈ g.productions) (hhead : p.head? = some s)
      (hrhs : p.rhs = [first, second]) (hpos : 0 < split)
      (hlt : split < length) (hleft : chart.Has start split first)
      (hright : chart.Has (start + split) (length - split) second) :
      Explains g input chart s start length (.split p split)

/-- The cells of the spans up to a length hold all variables that yield the
span, and each of them for a reason. -/
structure Filled (g : Grammar) (input : Form) (count : Nat) (chart : Chart) :
    Prop where
  rows_length : chart.rows.length = count
  complete : ∀ start length s, 0 < length → length ≤ count →
    start + length ≤ input.length → s.isVar = true →
      g.Yields [s] (span input start length) → chart.Has start length s
  explained : ∀ start length cell s reason, length ≤ count →
    start + length ≤ input.length → chart.cell? start length = some cell →
      cell.get? s = some reason → Explains g input chart s start length reason

theorem cell?_append {row : List Cell} {start length : Nat}
    (hle : length ≤ chart.rows.length) :
    Chart.cell? ⟨chart.rows ++ [row]⟩ start length =
      chart.cell? start length := by
  unfold cell?
  split
  next => rfl
  next hne => rw [List.getElem?_append_left (by omega)]

theorem cell?_last {row : List Cell} (start : Nat) :
    Chart.cell? ⟨chart.rows ++ [row]⟩ start (chart.rows.length + 1) =
      row[start]? := by
  unfold cell?
  rw [if_neg (Nat.succ_ne_zero _), Nat.add_sub_cancel,
    List.getElem?_append_right (Nat.le_refl _), Nat.sub_self]
  rfl

theorem Has.append {row : List Cell} {start length : Nat} {s : Symbol}
    (hhas : chart.Has start length s) (hle : length ≤ chart.rows.length) :
    Chart.Has ⟨chart.rows ++ [row]⟩ start length s := by
  obtain ⟨cell, hcell, hs⟩ := hhas
  exact ⟨cell, (cell?_append hle).trans hcell, hs⟩

theorem Explains.append {row : List Cell} {s : Symbol} {start length : Nat}
    {reason : Reason}
    (hexplains : Explains g input chart s start length reason)
    (hle : length ≤ chart.rows.length + 1) :
    Explains g input ⟨chart.rows ++ [row]⟩ s start length reason := by
  cases hexplains with
  | word hmem hhead hinput hrhs => exact .word hmem hhead hinput hrhs
  | split hmem hhead hrhs hpos hlt hleft hright =>
      exact .split hmem hhead hrhs hpos hlt (hleft.append (by omega))
        (hright.append (by omega))

theorem filled_zero (g : Grammar) (input : Form) : Filled g input 0 {} := by
  refine ⟨rfl, ?_, ?_⟩
  · intro _ length _ hpos hle
    omega
  · intro start length cell s reason hle _ hcell
    obtain rfl : length = 0 := by omega
    cases hcell

theorem Filled.append {count : Nat} (hchart : Filled g input count chart)
    {row : List Cell}
    (hcomplete : ∀ start s, start + (count + 1) ≤ input.length →
      s.isVar = true → g.Yields [s] (span input start (count + 1)) →
        ∃ cell, row[start]? = some cell ∧ s ∈ cell.keys)
    (hexplained : ∀ start cell s reason,
      start + (count + 1) ≤ input.length → row[start]? = some cell →
        cell.get? s = some reason →
          Explains g input chart s start (count + 1) reason) :
    Filled g input (count + 1) ⟨chart.rows ++ [row]⟩ := by
  have hrows := hchart.rows_length
  -- the new row is only read for the new length
  refine ⟨by simp [hrows], ?_, ?_⟩
  · intro start length s hpos hle hbound hvar hyields
    by_cases hold : length ≤ count
    · exact (hchart.complete start length s hpos hold hbound hvar
        hyields).append (by omega)
    · obtain rfl : length = count + 1 := by omega
      obtain ⟨cell, hcell, hs⟩ := hcomplete start s hbound hvar hyields
      refine ⟨cell, ?_, hs⟩
      rw [← hrows, cell?_last]
      exact hcell
  · intro start length cell s reason hle hbound hcell hget
    by_cases hold : length ≤ count
    · rw [cell?_append (by omega)] at hcell
      exact (hchart.explained start length cell s reason hold hbound hcell
        hget).append (by omega)
    · obtain rfl : length = count + 1 := by omega
      rw [← hrows, cell?_last] at hcell
      exact (hexplained start cell s reason hbound hcell hget).append (by omega)

/-! ## Filling -/

theorem filled_fillWords (hg : InNormalForm g)
    (hinput : Form.isTerminal input = true) :
    Filled g input 1 (({} : Chart).fillWords g input) := by
  apply (filled_zero g input).append
  · intro start s hbound hvar hyields
    obtain ⟨t, ht⟩ : ∃ t, input[start]? = some t :=
      ⟨_, List.getElem?_eq_getElem (by omega)⟩
    refine ⟨wordCell g t, by rw [List.getElem?_map, ht]; rfl, ?_⟩
    rw [span_one ht] at hyields
    have hword : Form.isTerminal [t] = true := by
      rw [← span_one ht]
      exact isTerminal_span hinput start 1
    obtain ⟨p, hp, hhead, hrhs⟩ := hyields.exists_production hvar hword
    rw [wordCell_eq, mem_keys_ofCandidates]
    rcases rhs_of_isChomsky (hg p hp) with
      ⟨u, hterm, hone⟩ | ⟨first, second, _, _, htwo⟩
    · rw [hone] at hrhs
      obtain ⟨tail, heq, _⟩ := hrhs.of_isTerm hterm
      have hsame : t = u := (List.cons.inj heq).1
      exact ⟨_, mem_wordCandidates.mpr ⟨p, hp, hhead, hsame ▸ hone, rfl⟩⟩
    · have hle := length_le_of_yields hg hrhs
      rw [htwo] at hle
      simp at hle
  · intro start cell s reason _ hcell hget
    rw [List.getElem?_map, Option.map_eq_some_iff] at hcell
    obtain ⟨t, ht, rfl⟩ := hcell
    rw [wordCell_eq] at hget
    obtain ⟨p, hp, hhead, hrhs, rfl⟩ :=
      mem_wordCandidates.mp (mem_of_get?_ofCandidates hget)
    exact .word hp hhead ht hrhs

theorem Filled.mem_spanCell {count : Nat} (hg : InNormalForm g)
    (hinput : Form.isTerminal input = true) (hcount : 0 < count)
    (hchart : Filled g input count chart) {start : Nat} {s : Symbol}
    (hbound : start + (count + 1) ≤ input.length) (hvar : s.isVar = true)
    (hyields : g.Yields [s] (span input start (count + 1))) :
    s ∈ (chart.spanCell g start (count + 1)).keys := by
  have hlength := length_span hbound
  obtain ⟨p, hp, hhead, hrhs⟩ :=
    hyields.exists_production hvar (isTerminal_span hinput start _)
  rcases rhs_of_isChomsky (hg p hp) with
    ⟨t, hterm, hone⟩ | ⟨first, second, hfirst, hsecond, htwo⟩
  · -- a terminal covers one symbol, and this span is longer
    rw [hone] at hrhs
    obtain ⟨tail, heq, hnil⟩ := hrhs.of_isTerm hterm
    rw [heq, hnil.eq_nil, List.length_singleton] at hlength
    omega
  · rw [htwo] at hrhs
    obtain ⟨split, hpos, hlt, hleft, hright⟩ :=
      exists_split_of_yields hg hbound hrhs
    obtain ⟨left, hleftCell, hfirstMem⟩ := hchart.complete start split first
      hpos (by omega) (by omega) hfirst hleft
    obtain ⟨right, hrightCell, hsecondMem⟩ := hchart.complete (start + split)
      (count + 1 - split) second (by omega) (by omega) (by omega) hsecond hright
    rw [spanCell_eq, mem_keys_ofCandidates]
    exact ⟨_, mem_spanCandidates.mpr ⟨split, left, right, hpos, hlt, hleftCell,
      hrightCell, p, hp, hhead, rfl, first, second, htwo, hfirstMem,
      hsecondMem⟩⟩

theorem Filled.fillSpans {count : Nat} (hg : InNormalForm g)
    (hinput : Form.isTerminal input = true) (hcount : 0 < count)
    (hchart : Filled g input count chart) :
    Filled g input (count + 1) (chart.fillSpans g input (count + 1)) := by
  have hrow : ∀ start cell,
      ((List.range (input.length + 1 - (count + 1))).map
        fun start => chart.spanCell g start (count + 1))[start]? = some cell →
      cell = chart.spanCell g start (count + 1) := by
    intro start cell hcell
    rw [List.getElem?_map, Option.map_eq_some_iff] at hcell
    obtain ⟨i, hi, rfl⟩ := hcell
    obtain ⟨_, rfl⟩ := List.getElem?_eq_some_iff.mp hi
    rw [List.getElem_range]
  apply hchart.append
  · intro start s hbound hvar hyields
    refine ⟨_, ?_, hchart.mem_spanCell hg hinput hcount hbound hvar hyields⟩
    rw [List.getElem?_map, List.getElem?_range (by omega)]
    rfl
  · intro start cell s reason hbound hcell hget
    rw [hrow start cell hcell, spanCell_eq] at hget
    obtain ⟨split, left, right, hpos, hlt, hleft, hright, p, hp, hhead, rfl,
      first, second, hrhs, hfirst, hsecond⟩ :=
      mem_spanCandidates.mp (mem_of_get?_ofCandidates hget)
    exact .split hp hhead hrhs hpos hlt ⟨left, hleft, hfirst⟩
      ⟨right, hright, hsecond⟩

/-! ## Trees -/

/-- The reasons lead down to a tree of the span. -/
theorem Filled.exists_tree? {count : Nat} (hchart : Filled g input count chart)
    {start length : Nat} {s : Symbol} (hle : length ≤ count)
    (hbound : start + length ≤ input.length)
    (hhas : chart.Has start length s) :
    ∃ tree, chart.tree? input s start length = some tree ∧
      tree.ValidFor g ∧ tree.root = s ∧
      tree.frontier = span input start length := by
  induction length using Nat.strongRecOn generalizing start s with
  | ind length ih =>
      obtain ⟨cell, hcell, hs⟩ := hhas
      obtain ⟨reason, hget⟩ := OrderedMap.get?_of_mem_keys hs
      have hexplains :=
        hchart.explained start length cell s reason hle hbound hcell hget
      rw [tree?, hcell, Option.bind_some, hget]
      cases hexplains with
      | @word p t hmem hhead hinput hrhs =>
          refine ⟨.node s p [.leaf t], by simp [hinput], ?_, rfl, ?_⟩
          · exact ⟨hmem, hhead, hrhs.symm, trivial, trivial⟩
          · rw [span_one hinput]
            rfl
      | @split p first second split _ hmem hhead hrhs hpos hlt hleft hright =>
          obtain ⟨left, hleftTree, hleftValid, hleftRoot, hleftFrontier⟩ :=
            ih split hlt (by omega) (by omega) hleft
          obtain ⟨right, hrightTree, hrightValid, hrightRoot,
            hrightFrontier⟩ := ih (length - split) (by omega) (by omega)
              (by omega) hright
          refine ⟨.node s p [left, right], ?_, ?_, rfl, ?_⟩
          · simp [hrhs, hpos, hlt, hleftTree, hrightTree]
          · refine ⟨hmem, hhead, ?_, hleftValid, hrightValid, trivial⟩
            rw [hrhs, ← hleftRoot, ← hrightRoot]
            rfl
          · rw [span_split input start (Nat.le_of_lt hlt), ← hleftFrontier,
              ← hrightFrontier]
            simp [Tree.frontier, Tree.frontierOfAll]

end Chart

/-! ## The parser -/

namespace ChartParser

variable {g : Grammar} {start : Symbol} {input : Form} {parser : ChartParser}

def idle (g : Grammar) (start : Symbol) (input : Form) : ChartParser where
  grammar := g
  start := start
  input := input

theorem ofGrammar_eq_ok (hg : Chart.InNormalForm g)
    (hstart : g.requireContextFree = .ok start) (input : Form) :
    ofGrammar g input = .ok (idle g start input) := by
  have hnone : g.productions.find? (fun p => !p.isChomsky) = none := by
    rw [List.find?_eq_none]
    intro p hp
    rw [hg p hp]
    simp
  unfold ofGrammar
  rw [hstart]
  simp only [bind, Except.bind, hnone]
  rfl

structure Running (g : Grammar) (start : Symbol) (input : Form) (count : Nat)
    (parser : ChartParser) : Prop where
  grammar_eq : parser.grammar = g
  start_eq : parser.start = start
  input_eq : parser.input = input
  filled : Chart.Filled g input count parser.chart
  status_eq : parser.status = parser.statusAt parser.chart count

/-- The first step fills the spans of one symbol. -/
theorem step_idle (hne : input ≠ []) (hknown : input.all g.hasTerminal = true) :
    (idle g start input).step =
      { idle g start input with
        chart := ({} : Chart).fillWords g input
        status := (idle g start input).statusAt
          (({} : Chart).fillWords g input) 1 } := by
  have hpasses : (input.isEmpty || !input.all g.hasTerminal) = false := by
    rw [hknown, List.isEmpty_eq_false_iff.mpr hne]
    rfl
  unfold step idle
  simp only [hpasses, Bool.false_eq_true, if_false]

theorem step_idle_of_stops
    (hstops : (input.isEmpty || !input.all g.hasTerminal) = true) :
    (idle g start input).step =
      { idle g start input with status := .rejected } := by
  unfold step idle
  simp only [hstops, if_true]

theorem running_one (hg : Chart.InNormalForm g)
    (hinput : Form.isTerminal input = true) (hne : input ≠ [])
    (hknown : input.all g.hasTerminal = true) :
    Running g start input 1
      (idle g start input).step := by
  rw [step_idle hne hknown]
  exact ⟨rfl, rfl, rfl, Chart.filled_fillWords hg hinput, rfl⟩

theorem Running.status_eq_running {count : Nat} (hlt : count < input.length)
    (hparser : Running g start input count parser) :
    parser.status = .running count := by
  rw [hparser.status_eq, statusAt, hparser.input_eq, if_neg (Nat.ne_of_lt hlt)]

theorem Running.chart_step {count : Nat} (hlt : count < input.length)
    (hparser : Running g start input count parser) :
    parser.step.chart = parser.chart.fillSpans g input (count + 1) := by
  unfold ChartParser.step
  rw [hparser.status_eq_running hlt, hparser.grammar_eq, hparser.input_eq]

theorem Running.step (hg : Chart.InNormalForm g)
    (hinput : Form.isTerminal input = true) {count : Nat} (hpos : 0 < count)
    (hlt : count < input.length) (hparser : Running g start input count parser) :
    Running g start input (count + 1) parser.step := by
  have hrunning := hparser.status_eq_running hlt
  obtain ⟨rfl, rfl, rfl, hfilled, _⟩ := hparser
  unfold ChartParser.step
  rw [hrunning]
  exact ⟨rfl, rfl, rfl, hfilled.fillSpans hg hinput hpos, rfl⟩

theorem running_stepTimes (hg : Chart.InNormalForm g)
    (hinput : Form.isTerminal input = true)
    (hknown : input.all g.hasTerminal = true) {count : Nat}
    (hle : count + 1 ≤ input.length) :
    Running g start input (count + 1) (stepTimes step (count + 1)
      (idle g start input)) := by
  induction count with
  | zero =>
      apply running_one hg hinput _ hknown
      rintro rfl
      simp at hle
  | succ count ih =>
      rw [stepTimes_add]
      exact (ih (by omega)).step hg hinput (by omega) (by omega)

theorem running_run (hg : Chart.InNormalForm g)
    (hinput : Form.isTerminal input = true) (hne : input ≠ [])
    (hknown : input.all g.hasTerminal = true) :
    Running g start input input.length (idle g start input).run := by
  obtain ⟨count, hcount⟩ : ∃ count, input.length = count + 1 :=
    Nat.exists_eq_succ_of_ne_zero fun hzero =>
      hne (List.eq_nil_of_length_eq_zero hzero)
  have hmax : max 1 input.length = count + 1 := by omega
  change Running g start input input.length
    (stepTimes step (max 1 input.length) (idle g start input))
  rw [hmax, hcount]
  exact running_stepTimes hg hinput hknown (by omega)

/-- The last status tells whether the start is in the cell of the input. -/
theorem Running.accepted_iff
    (hparser : Running g start input input.length parser) :
    parser.status = .accepted ↔ parser.chart.Has 0 input.length start := by
  obtain ⟨rfl, rfl, rfl, _, hstatus⟩ := hparser
  rw [hstatus, statusAt, if_pos rfl]
  unfold Chart.Has
  cases parser.chart.cell? 0 parser.input.length with
  | none => simp
  | some cell =>
      simp only [Option.any_some, OrderedMap.contains_iff_mem_keys,
        Option.some.injEq, exists_eq_left']
      split
      next hmem => exact ⟨fun _ => hmem, fun _ => rfl⟩
      next hmem => exact ⟨fun h => (by cases h), fun h => absurd h hmem⟩

theorem Running.exists_tree?
    (hparser : Running g start input input.length parser)
    (haccepted : parser.status = .accepted) :
    ∃ tree, parser.tree? = some tree ∧ tree.ValidFor g ∧
      tree.root = start ∧ tree.frontier = input := by
  have hhas := hparser.accepted_iff.mp haccepted
  obtain ⟨rfl, rfl, rfl, hfilled, _⟩ := hparser
  obtain ⟨tree, htree, hvalid, hroot, hfrontier⟩ :=
    hfilled.exists_tree? (Nat.le_refl _) (by omega) hhas
  rw [Chart.span_all] at hfrontier
  unfold ChartParser.tree?
  rw [haccepted]
  exact ⟨tree, htree, hvalid, hroot, hfrontier⟩

/-- A symbol that is no terminal of the grammar is noticed at once. -/
theorem tree?_run_of_unknown (hunknown : input.all g.hasTerminal = false) :
    (idle g start input).run.tree? = none := by
  obtain ⟨count, hcount⟩ : ∃ count, max 1 input.length = count + 1 :=
    ⟨max 1 input.length - 1, by omega⟩
  have hstops : (input.isEmpty || !input.all g.hasTerminal) = true := by
    rw [hunknown, Bool.not_false, Bool.or_true]
  change (stepTimes step (max 1 input.length) (idle g start input)).tree? = none
  rw [hcount, stepTimes, step_idle_of_stops hstops, stepTimes_of_fixed rfl]
  rfl

theorem isTerminal_of_known (hknown : input.all g.hasTerminal = true) :
    Form.isTerminal input = true := by
  unfold Form.isTerminal
  rw [List.all_eq_true] at hknown ⊢
  intro s hs
  exact (List.mem_filter.mp (of_decide_eq_true (hknown s hs))).2

/-- Whatever tree is found is a tree of the input. -/
theorem completeFor_of_tree?_run (hg : Chart.InNormalForm g)
    (hstart : g.start = some start) (hne : input ≠ []) {tree : Tree}
    (htree : (idle g start input).run.tree? = some tree) :
    tree.CompleteFor g input := by
  cases hknown : input.all g.hasTerminal with
  | false =>
      rw [tree?_run_of_unknown hknown] at htree
      cases htree
  | true =>
      have hinput := isTerminal_of_known hknown
      have hrun : Running g start input input.length _ :=
        running_run hg hinput hne hknown
      generalize (idle g start input).run = last at hrun htree
      cases hstatus : last.status with
      | accepted =>
          obtain ⟨found, hfound, hvalid, hroot, hfrontier⟩ :=
            hrun.exists_tree? hstatus
          obtain rfl := Option.some.inj (hfound.symm.trans htree)
          exact ⟨hvalid, hroot ▸ hstart, hfrontier, hinput⟩
      | _ =>
          unfold ChartParser.tree? at htree
          rw [hstatus] at htree
          cases htree

theorem exists_tree?_run (hg : Chart.InNormalForm g)
    (hconsistent : g.Consistent) (hstart : g.start = some start)
    (hinput : Form.isTerminal input = true) (hne : input ≠ [])
    (hyields : g.Yields [start] input) :
    ∃ tree, (idle g start input).run.tree? = some tree := by
  have hvar := hconsistent.start_isVar start hstart
  have hknown : input.all g.hasTerminal = true := by
    rw [List.all_eq_true]
    exact fun t ht => decide_eq_true
      (hconsistent.mem_terminals_of_mem_yield hstart hyields hinput ht)
  have hrun : Running g start input input.length _ :=
    running_run hg hinput hne hknown
  have hhas := hrun.filled.complete 0 input.length start
    (List.length_pos_iff.mpr hne) (Nat.le_refl _) (by omega) hvar
    (by rwa [Chart.span_all])
  obtain ⟨tree, htree, _⟩ :=
    hrun.exists_tree? (hrun.accepted_iff.mpr hhas)
  exact ⟨tree, htree⟩

end ChartParser

end FormalGrammars
