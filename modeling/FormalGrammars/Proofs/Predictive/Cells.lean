import FormalGrammars.Proofs.Lookahead
import FormalGrammars.Proofs.Predictive.Selection

/-!
# The cells of an LL(1) table

When all variables are reachable, the cells can be told from the derivations of
the grammar alone, because FIRST and FOLLOW then hold exactly what the forms
begin with and what stands behind the variables.  No cell of a row is empty, so
a row lists the inputs for which it has an entry.  The conflicts are the crowded
cells: every variable has one row and every row has one cell for a look-ahead,
so none of them is listed twice.
-/

namespace FormalGrammars

namespace Grammar

variable {g : Grammar} {start head : Symbol} {p : Production} {x : Lookahead}

/-- The right side derives a string that begins with the look-ahead, or it
derives the empty string and the look-ahead stands directly behind the head in
a form that the start derives, closed by the end of the input. -/
def CallsFor (g : Grammar) (start head : Symbol) (x : Lookahead)
    (p : Production) : Prop :=
  (∃ t rest, x = .symbol t ∧ t.isTerm = true ∧ g.Derives p.rhs (t :: rest)) ∨
    (g.Derives p.rhs [] ∧ x.isInput = true ∧ g.Adjoins start head x)

theorem begins_iff_derives (hfree : g.ContextFree) {form : Form} :
    (x ≠ .lambda ∧ g.Begins form x) ↔
      ∃ t rest, x = .symbol t ∧ t.isTerm = true ∧ g.Derives form (t :: rest) := by
  cases x with
  | endOfInput => simp [Begins]
  | lambda => simp
  | symbol t => simp [Begins, yields_iff_derives hfree]

theorem selects_iff_callsFor (hg : g.Consistent) (hfree : g.ContextFree)
    (hreachable : ∀ s ∈ g.variables, ∃ before after,
      g.Derives [start] (before ++ s :: after))
    (hhead : p.head? = some head) :
    g.Selects start head p x ↔ g.CallsFor start head x p := by
  unfold Selects CallsFor
  rw [begins_iff_derives hfree, yields_iff_derives hfree]
  refine or_congr_right (and_congr_right fun _ => ⟨fun hfollows => ?_, fun hx => ?_⟩)
  · exact ⟨hfollows.isInput, hfollows.adjoins hg hreachable⟩
  · exact hx.2.follows hfree (isVar_of_head? hhead) hx.1

end Grammar

namespace PredictiveTable

variable {g : Grammar} {start : Symbol} {table : PredictiveTable}
  {cells : OrderedMap Symbol (OrderedMap Lookahead (List Production))}

/-! ## Rows -/

/-- What filling keeps holds of the rows after a production is entered. -/
theorem row_keeps_enter {motive : OrderedMap Lookahead (List Production) → Prop}
    (hfill : ∀ row entries, motive row → motive (row.fill entries))
    (hcells : ∀ head, motive (cells.getD head ⟨[]⟩)) (sets : LookaheadSets)
    (p : Production) (head : Symbol) :
    motive ((enter sets cells p).getD head ⟨[]⟩) := by
  unfold PredictiveTable.enter
  cases p.head? with
  | none => exact hcells head
  | some other =>
      rw [OrderedMap.getD_alter, ← OrderedMap.fill_same]
      split
      next => exact hfill _ _ (hcells other)
      next => exact hcells head

theorem row_keeps {motive : OrderedMap Lookahead (List Production) → Prop}
    (htable : ofGrammar g = .ok table) (hempty : motive ⟨[]⟩)
    (hfill : ∀ row entries, motive row → motive (row.fill entries)) :
    ∀ head, motive (table.row head) := by
  unfold PredictiveTable.row
  rw [(madeFrom_ofGrammar htable).cells_eq]
  apply List.foldlRecOn
    (motive := fun cells => ∀ head, motive (OrderedMap.getD cells head ⟨[]⟩))
  · exact fun _ => hempty
  · exact fun _ hcells p _ => row_keeps_enter hfill hcells table.sets p

/-- No variable has two rows, and no row has two cells for a look-ahead. -/
structure Arranged
    (cells : OrderedMap Symbol (OrderedMap Lookahead (List Production))) :
    Prop where
  heads_nodup : cells.keys.Nodup
  lookaheads_nodup : ∀ head, (cells.getD head ⟨[]⟩).keys.Nodup

theorem keys_nodup_enter (hcells : cells.keys.Nodup) (sets : LookaheadSets)
    (p : Production) : (enter sets cells p).keys.Nodup := by
  unfold PredictiveTable.enter
  cases p.head? with
  | none => exact hcells
  | some head =>
      rw [OrderedMap.keys_alter]
      exact nodup_insertNew hcells head

theorem arranged_ofGrammar (htable : ofGrammar g = .ok table) :
    Arranged table.cells := by
  constructor
  · rw [(madeFrom_ofGrammar htable).cells_eq]
    apply List.foldlRecOn (motive := fun cells => (OrderedMap.keys cells).Nodup)
    · exact .nil
    · exact fun _ hcells p _ => keys_nodup_enter hcells table.sets p
  · exact row_keeps htable (motive := fun row => row.keys.Nodup) .nil
      fun _ entries hrow => OrderedMap.keys_nodup_fill entries hrow

theorem Arranged.row_eq (hcells : Arranged table.cells) {head : Symbol}
    {row : OrderedMap Lookahead (List Production)}
    (hrow : (head, row) ∈ table.cells.entries) : table.row head = row := by
  unfold PredictiveTable.row
  rw [OrderedMap.getD, OrderedMap.get?_of_mem_entries hcells.heads_nodup hrow,
    Option.getD_some]

theorem Arranged.keys_nodup_of_mem (hcells : Arranged table.cells) :
    ∀ head row, (head, row) ∈ table.cells.entries → row.keys.Nodup := by
  intro head row hrow
  rw [← hcells.row_eq hrow]
  exact hcells.lookaheads_nodup head

/-! ## Expected inputs -/

/-- The expected inputs are those for which there is an entry. -/
theorem mem_expected_iff (hg : g.Consistent)
    (hstart : g.requireContextFree = .ok start)
    (htable : ofGrammar g = .ok table) {head : Symbol} {rest : Form} :
    rest.head? ∈ table.expected head ↔
      table.entry? head (.ofRest rest) ≠ none := by
  have hrow : (table.row head).NoEmptyCells :=
    row_keeps htable OrderedMap.noEmptyCells_nil
      (fun _ entries hrow => hrow.fill entries) head
  have hlambda : .lambda ∉ (table.row head).keys := by
    intro hkey
    rcases List.exists_mem_of_ne_nil _ (hrow _ hkey) with ⟨p, hp⟩
    rcases ((mem_candidates_iff hg hstart htable).mp hp).2.2 with hbegins | hfollows
    · exact hbegins.1 rfl
    · cases hfollows.2.isInput
  unfold PredictiveTable.expected PredictiveTable.entry?
  rw [Lookahead.head?_mem_map_symbol?_iff hlambda, hrow.mem_keys_iff, ne_eq,
    ne_eq, List.head?_eq_none_iff]
  rfl

/-! ## Conflicts -/

theorem Arranged.nodup_conflicts (hcells : Arranged table.cells) :
    (table.conflicts.map fun c => (c.head, c.lookahead)).Nodup := by
  rw [conflicts_eq, List.map_map]
  exact nodup_crowded hcells.heads_nodup hcells.keys_nodup_of_mem

theorem Arranged.mem_conflicts_iff (hcells : Arranged table.cells)
    {c : Conflict} :
    c ∈ table.conflicts ↔
      2 ≤ (table.candidates c.head c.lookahead).length ∧
        c.candidates = table.candidates c.head c.lookahead := by
  rw [conflicts_eq, List.mem_map]
  constructor
  · rintro ⟨⟨head, x, cell⟩, hcrowded, rfl⟩
    obtain ⟨hlong, row, hrow, rfl⟩ :=
      (mem_crowded_iff hcells.keys_nodup_of_mem).mp hcrowded
    rw [← hcells.row_eq hrow] at hlong ⊢
    exact ⟨hlong, rfl⟩
  · rintro ⟨hlong, hcell⟩
    obtain ⟨head, x, candidates⟩ := c
    simp only at hlong hcell
    subst hcell
    exact ⟨_, mem_crowded_of_getD (mem_entries_of_crowded hlong) hlong, rfl⟩

/-- When all variables are reachable, a cell holds the productions that the
look-ahead calls for by the derivations of the grammar, in the order of the
grammar and each once.  The conflicts are the cells with two or more. -/
theorem candidates_iff_derives (hg : g.Consistent)
    (hstart : g.requireContextFree = .ok start)
    (hreachable : ∀ s ∈ g.variables, ∃ before after,
      g.Derives [start] (before ++ s :: after)) :
    ∃ table, ofGrammar g = .ok table ∧
      (∀ head x, (table.candidates head x).Sublist g.productions ∧
        (table.candidates head x).Nodup ∧
        ∀ p, p ∈ table.candidates head x ↔
          p ∈ g.productions ∧ p.head? = some head ∧
            g.CallsFor start head x p) ∧
      (table.conflicts.map fun c => (c.head, c.lookahead)).Nodup ∧
      ∀ c, c ∈ table.conflicts ↔
        2 ≤ (table.candidates c.head c.lookahead).length ∧
          c.candidates = table.candidates c.head c.lookahead := by
  obtain ⟨table, htable⟩ := ofGrammar_eq_ok hstart
  have hfree := (Grammar.requireContextFree_eq_ok_iff.mp hstart).2
  have hcells := arranged_ofGrammar htable
  refine ⟨table, htable, fun head x => ⟨?_, ?_, fun p => ?_⟩,
    hcells.nodup_conflicts, fun c => hcells.mem_conflicts_iff⟩
  · rw [candidates_eq_filter hg htable]
    exact List.filter_sublist
  · rw [candidates_eq_filter hg htable]
    exact hg.productions_nodup.filter _
  · rw [mem_candidates_iff hg hstart htable]
    refine and_congr_right fun _ => and_congr_right fun hhead => ?_
    exact Grammar.selects_iff_callsFor hg hfree hreachable hhead

/-- `S → Aa`, `A → B` and `B → a | λ`: the look-ahead `a` calls for `A → B` both
because `B` derives it and because it follows `A`. -/
def calledTwice : Grammar :=
  Grammar.withProductions { start := some (.var "S") }
    [.rule (.var "S") [.var "A", .term "a"],
      .rule (.var "A") [.var "B"],
      .rule (.var "B") [.term "a"],
      .rule (.var "B") []]

theorem calledTwice_reachable : ∀ s ∈ calledTwice.variables, ∃ before after,
    calledTwice.Derives [.var "S"] (before ++ s :: after) := by
  have hvariables : calledTwice.variables = [.var "S", .var "A", .var "B"] := rfl
  have hfirst : calledTwice.Derives [.var "S"] [.var "A", .term "a"] :=
    .of_production (p := .rule (.var "S") [.var "A", .term "a"]) (by decide) rfl
  have hsecond : calledTwice.Derives [.var "A"] [.var "B"] :=
    .of_production (p := .rule (.var "A") [.var "B"]) (by decide) rfl
  rw [hvariables]
  simp only [List.forall_mem_cons]
  refine ⟨⟨[], [], .refl _⟩, ⟨[], _, hfirst⟩, ⟨[], [.term "a"], ?_⟩, by simp⟩
  exact hfirst.trans (hsecond.append (.refl [.term "a"]))

/-- The production that is called for twice is kept once, and the cell of `B`
is a conflict. -/
theorem candidates_calledTwice :
    ∃ table, ofGrammar calledTwice = .ok table ∧
      (∀ s ∈ calledTwice.variables, ∃ before after,
        calledTwice.Derives [.var "S"] (before ++ s :: after)) ∧
      table.candidates (.var "A") (.symbol (.term "a")) =
        [.rule (.var "A") [.var "B"]] ∧
      calledTwice.CallsFor (.var "S") (.var "A") (.symbol (.term "a"))
        (.rule (.var "A") [.var "B"]) ∧
      ¬ calledTwice.CallsFor (.var "S") (.var "A") .endOfInput
        (.rule (.var "A") [.var "B"]) ∧
      ⟨.var "B", .symbol (.term "a"),
        [.rule (.var "B") [.term "a"], .rule (.var "B") []]⟩ ∈
          table.conflicts := by
  obtain ⟨table, htable, hcells, _, hconflicts⟩ := candidates_iff_derives
    (Grammar.consistent_of_start rfl _) (g := calledTwice) rfl
    calledTwice_reachable
  have hbuilt : ∃ built, ofGrammar calledTwice = .ok built ∧
      built.candidates (.var "A") (.symbol (.term "a")) =
        [.rule (.var "A") [.var "B"]] ∧
      built.candidates (.var "A") .endOfInput = [] ∧
      built.candidates (.var "B") (.symbol (.term "a")) =
        [.rule (.var "B") [.term "a"], .rule (.var "B") []] :=
    ⟨_, rfl, by decide +kernel⟩
  obtain ⟨built, hbuilt, hsole, hnone, hboth⟩ := hbuilt
  rw [htable] at hbuilt
  cases hbuilt
  have hmem := (hcells (.var "A") (.symbol (.term "a"))).2.2
    (.rule (.var "A") [.var "B"])
  have hout := (hcells (.var "A") .endOfInput).2.2 (.rule (.var "A") [.var "B"])
  refine ⟨table, htable, calledTwice_reachable, hsole, ?_, ?_, ?_⟩
  · exact (hmem.mp (by simp [hsole])).2.2
  · intro hcalls
    rw [hnone] at hout
    simpa using hout.mpr ⟨by decide, rfl, hcalls⟩
  · exact (hconflicts _).mpr ⟨by simp [hboth], hboth.symm⟩

end PredictiveTable

end FormalGrammars
