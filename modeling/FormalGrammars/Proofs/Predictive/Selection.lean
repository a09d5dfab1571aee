import FormalGrammars.Predictive.Table
import FormalGrammars.Proofs.Cells
import FormalGrammars.Proofs.Support

/-!
# What the cells of an LL(1) table select

A production is in a cell exactly when its right side can begin with the
look-ahead, or is nullable and the look-ahead follows the head.  On a supported
stack, the production that a derivation of the remaining input uses is always
in the cell of the next symbol, so a table without conflicts leaves no choice.
-/

namespace FormalGrammars

namespace Grammar

/-- The look-ahead calls for the production at its head. -/
def Selects (g : Grammar) (start head : Symbol) (p : Production)
    (x : Lookahead) : Prop :=
  (x ≠ .lambda ∧ g.Begins p.rhs x) ∨
    (g.Yields p.rhs [] ∧ g.Follows start head x)

variable {g : Grammar} {start : Symbol}

/-- The production that a derivation uses is selected by the next symbol. -/
theorem Supported.selects {s : Symbol} {below : Form}
    (hstack : g.Supported start (s :: below)) {p : Production}
    (hhead : p.head? = some s) {left right : Form}
    (hrhs : g.Yields p.rhs left) (hbelow : g.Yields below right)
    (hword : Form.isTerminal (left ++ right) = true) :
    g.Selects start s p (.ofRest (left ++ right)) := by
  obtain ⟨hleft, hright⟩ := isTerminal_append.mp hword
  cases left with
  | nil =>
      exact .inr ⟨hrhs, hstack.1 (isVar_of_head? hhead) _
        (faces_ofRest hbelow hright)⟩
  | cons t left =>
      simp only [Form.isTerminal, List.all_cons, Bool.and_eq_true] at hleft
      exact .inl ⟨by simp [Lookahead.ofRest], hleft.1, left, hrhs⟩

end Grammar

/-! ## Cells -/

namespace PredictiveTable

variable {g : Grammar} {start : Symbol} {table : PredictiveTable}

/-- The table was made from the grammar. -/
structure MadeFrom (g : Grammar) (table : PredictiveTable) : Prop where
  start_eq : g.requireContextFree = .ok table.start
  sets_eq : LookaheadSets.ofGrammar g = .ok table.sets
  cells_eq : table.cells = g.productions.foldl (enter table.sets) ⟨[]⟩

theorem madeFrom_ofGrammar (htable : ofGrammar g = .ok table) :
    MadeFrom g table := by
  unfold ofGrammar at htable
  cases hstart : g.requireContextFree with
  | error => rw [hstart] at htable; cases htable
  | ok start =>
      obtain ⟨known, hsets⟩ := LookaheadSets.ofGrammar_eq_ok hstart
      rw [hstart, hsets] at htable
      cases htable
      exact ⟨hstart, hsets, rfl⟩

theorem ofGrammar_eq_ok (hstart : g.requireContextFree = .ok start) :
    ∃ table, ofGrammar g = .ok table := by
  obtain ⟨known, hsets⟩ := LookaheadSets.ofGrammar_eq_ok hstart
  unfold ofGrammar
  rw [hstart, hsets]
  exact ⟨_, rfl⟩

theorem exists_start_of_ofGrammar (htable : ofGrammar g = .ok table) :
    ∃ start, g.requireContextFree = .ok start :=
  ⟨_, (madeFrom_ofGrammar htable).start_eq⟩

theorem start_ofGrammar (hstart : g.requireContextFree = .ok start)
    (htable : ofGrammar g = .ok table) : table.start = start := by
  have hsame := (madeFrom_ofGrammar htable).start_eq
  rw [hstart, Except.ok.injEq] at hsame
  exact hsame.symm

/-- A production comes at the end of the cells of its head for the look-aheads
that call for it. -/
theorem getD_enter (sets : LookaheadSets)
    (cells : OrderedMap Symbol (OrderedMap Lookahead (List Production)))
    (p : Production) (s : Symbol) (x : Lookahead) :
    ((enter sets cells p).getD s ⟨[]⟩).getD x [] =
      if p.head? = some s ∧ x ∈ selectors sets s p then
        insertNew ((cells.getD s ⟨[]⟩).getD x []) p
      else (cells.getD s ⟨[]⟩).getD x [] := by
  unfold enter
  cases hhead : p.head? with
  | none => simp
  | some head =>
      simp only [OrderedMap.getD_alter, Option.some.injEq]
      by_cases heq : s = head
      · subst heq
        simp [← OrderedMap.fill_same, OrderedMap.getD_fill_same]
      · simp [heq, Ne.symm heq]

theorem getD_enterAll (sets : LookaheadSets)
    (cells : OrderedMap Symbol (OrderedMap Lookahead (List Production)))
    (ps : List Production) (s : Symbol) (x : Lookahead) :
    ((ps.foldl (enter sets) cells).getD s ⟨[]⟩).getD x [] =
      extendNew ((cells.getD s ⟨[]⟩).getD x [])
        (ps.filter fun p => p.head? = some s ∧ x ∈ selectors sets s p) := by
  induction ps generalizing cells with
  | nil => rfl
  | cons p ps ih =>
      rw [List.foldl_cons, ih, getD_enter]
      by_cases hselects : p.head? = some s ∧ x ∈ selectors sets s p
      · rw [if_pos hselects, List.filter_cons_of_pos (by simpa using hselects)]
        rfl
      · rw [if_neg hselects, List.filter_cons_of_neg (by simpa using hselects)]

/-- The cell holds the productions that are called for, in the order of the
grammar. -/
theorem candidates_eq_filter (hg : g.Consistent)
    (htable : ofGrammar g = .ok table) (head : Symbol) (x : Lookahead) :
    table.candidates head x = g.productions.filter fun p =>
      p.head? = some head ∧ x ∈ selectors table.sets head p := by
  unfold candidates row
  rw [(madeFrom_ofGrammar htable).cells_eq, getD_enterAll]
  exact extendNew_eq_append (hg.productions_nodup.filter _)

theorem mem_selectors_iff (hg : g.Consistent)
    (hstart : g.requireContextFree = .ok start) {sets : LookaheadSets}
    (hsets : LookaheadSets.ofGrammar g = .ok sets) {head : Symbol}
    {p : Production} {x : Lookahead} :
    x ∈ selectors sets head p ↔ g.Selects start head p x := by
  unfold selectors Grammar.Selects
  rw [LookaheadSets.firstOf_ofGrammar hsets,
    ← LookaheadSets.mem_followOfVariable_iff hg hstart hsets]
  simp only [List.mem_append, List.mem_filter, decide_eq_true_eq,
    FirstSets.mem_ofForm_iff_begins hg]
  apply or_congr
  · rw [and_comm]
  · change _ ↔ g.Begins p.rhs .lambda ∧ _
    rw [← FirstSets.mem_ofForm_iff_begins hg]
    by_cases hlambda : Lookahead.lambda ∈ g.firstSets.ofForm p.rhs
    · simp [hlambda]
    · simp [hlambda]

theorem mem_candidates_iff (hg : g.Consistent)
    (hstart : g.requireContextFree = .ok start)
    (htable : ofGrammar g = .ok table) {head : Symbol} {x : Lookahead}
    {p : Production} :
    p ∈ table.candidates head x ↔
      p ∈ g.productions ∧ p.head? = some head ∧
        g.Selects start head p x := by
  rw [candidates_eq_filter hg htable, List.mem_filter, decide_eq_true_eq,
    mem_selectors_iff hg hstart (madeFrom_ofGrammar htable).sets_eq]

/-! ## Conflicts -/

theorem conflicts_eq : table.conflicts =
    (crowded table.cells.entries).map
      fun (head, x, candidates) => ⟨head, x, candidates⟩ := by
  unfold conflicts crowded
  rw [List.map_flatMap]
  simp only [List.map_map]
  rfl

theorem mem_entries_of_crowded {head : Symbol} {x : Lookahead}
    (hlong : 1 < (table.candidates head x).length) :
    (head, table.row head) ∈ table.cells.entries := by
  unfold candidates at hlong
  unfold row at hlong ⊢
  cases hrow : table.cells.get? head with
  | none =>
      rw [OrderedMap.getD_of_not_mem_keys (OrderedMap.get?_eq_none_iff.mp hrow)]
        at hlong
      simp [OrderedMap.getD, OrderedMap.get?] at hlong
  | some row =>
      rw [OrderedMap.getD, hrow, Option.getD_some]
      exact OrderedMap.mem_entries_of_get? hrow

theorem length_candidates_le (hfree : table.isConflictFree = true)
    (head : Symbol) (x : Lookahead) :
    (table.candidates head x).length ≤ 1 := by
  by_contra hle
  have hlong := Nat.lt_of_not_le hle
  have hcrowded := mem_crowded_of_getD (mem_entries_of_crowded hlong) hlong
  have hconflict := List.mem_map_of_mem
    (f := fun (head, x, candidates) => Conflict.mk head x candidates) hcrowded
  rw [← conflicts_eq, List.isEmpty_iff.mp hfree] at hconflict
  exact List.not_mem_nil hconflict

theorem eq_of_mem_candidates (hfree : table.isConflictFree = true)
    {head : Symbol} {x : Lookahead} {p q : Production}
    (hp : p ∈ table.candidates head x) (hq : q ∈ table.candidates head x) :
    p = q := by
  have hle := length_candidates_le hfree head x
  match hcell : table.candidates head x with
  | [] => simp [hcell] at hp
  | [r] =>
      rw [hcell, List.mem_singleton] at hp hq
      rw [hp, hq]
  | _ :: _ :: _ => simp [hcell] at hle

theorem entry?_of_mem_candidates (hfree : table.isConflictFree = true)
    {head : Symbol} {x : Lookahead} {p : Production}
    (hp : p ∈ table.candidates head x) : table.entry? head x = some p := by
  unfold entry?
  cases hcell : table.candidates head x with
  | nil => simp [hcell] at hp
  | cons q rest =>
      have hq : q ∈ table.candidates head x := by simp [hcell]
      rw [List.head?_cons, eq_of_mem_candidates hfree hp hq]

theorem mem_candidates_of_entry? {head : Symbol} {x : Lookahead}
    {p : Production} (hentry : table.entry? head x = some p) :
    p ∈ table.candidates head x :=
  List.mem_of_head? hentry

end PredictiveTable

end FormalGrammars
