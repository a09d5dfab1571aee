import FormalGrammars.Proofs.Lookahead
import FormalGrammars.Proofs.ShiftReduce.Path
import FormalGrammars.Proofs.ShiftReduce.Table
import Mathlib.Data.Set.List

/-!
# The cells of an SLR(1) table

A cell holds the actions that the items of its state ask for, each once, and
sorted: reductions come last and in the order of the productions.  Only a
terminal is shifted and only at the end is the input accepted, so no cell holds
both, and a symbol is shifted to one state; hence at most one action of a cell
is no reduction, and it comes first.  No cell of a row is empty, so a row lists
the inputs for which it has an action.  The conflicts are the crowded cells, and
what else their reductions compete with tells their kind.
-/

namespace FormalGrammars

namespace Action

theorem le_trans (first second third : Action)
    (hfirst : first.le second = true) (hsecond : second.le third = true) :
    first.le third = true := by
  cases first <;> cases second <;> cases third <;> simp [le] at * <;> omega

theorem le_total (first second : Action) :
    (first.le second || second.le first) = true := by
  cases first <;> cases second <;> simp [le] <;> omega

def IsReduction (action : Action) : Prop :=
  ∃ number, action = reduce number

/-- At most one action that is no reduction, and behind it reductions in the
order of their numbers. -/
def ReductionsLast (actions : List Action) : Prop :=
  ∃ (front : Option Action) (numbers : List Nat),
    actions = front.toList ++ numbers.map reduce ∧
      (∀ action ∈ front, ¬ action.IsReduction) ∧ numbers.Pairwise (· < ·)

variable {actions : List Action}

theorem exists_numbers (hall : ∀ action ∈ actions, action.IsReduction)
    (hsorted : actions.Pairwise fun first second => first.le second = true)
    (hnodup : actions.Nodup) :
    ∃ numbers : List Nat, actions = numbers.map reduce ∧ numbers.Pairwise (· < ·) := by
  obtain ⟨numbers, rfl⟩ : actions ∈ Set.range (List.map reduce) := by
    rw [Set.range_list_map]
    intro action haction
    obtain ⟨number, rfl⟩ := hall action haction
    exact ⟨number, rfl⟩
  refine ⟨numbers, rfl, ?_⟩
  rw [List.pairwise_map] at hsorted
  refine (hsorted.and (List.pairwise_map.mp hnodup)).imp ?_
  rintro m n ⟨hle, hne⟩
  simp only [le, decide_eq_true_eq] at hle
  exact Nat.lt_of_le_of_ne hle fun heq => hne (congrArg reduce heq)

/-- Behind the first action of a sorted list there are only reductions, if no
two others are in it. -/
theorem isReduction_of_behind {first second : Action} {rest : List Action}
    (hsorted : (first :: rest).Pairwise fun a b => a.le b = true)
    (hnodup : (first :: rest).Nodup)
    (hsole : ∀ a ∈ first :: rest, ∀ b ∈ first :: rest,
      ¬ a.IsReduction → ¬ b.IsReduction → a = b)
    (hsecond : second ∈ rest) : second.IsReduction := by
  by_contra hother
  have hle := (List.pairwise_cons.mp hsorted).1 second hsecond
  have hfirst : ¬ first.IsReduction := by
    rintro ⟨number, rfl⟩
    cases second with
    | accept => simp [le] at hle
    | shift target => simp [le] at hle
    | reduce other => exact hother ⟨other, rfl⟩
  have hsame := hsole first List.mem_cons_self second
    (List.mem_cons_of_mem first hsecond) hfirst hother
  exact (List.nodup_cons.mp hnodup).1 (hsame ▸ hsecond)

theorem reductionsLast_of_sorted
    (hsorted : actions.Pairwise fun a b => a.le b = true)
    (hnodup : actions.Nodup)
    (hsole : ∀ a ∈ actions, ∀ b ∈ actions,
      ¬ a.IsReduction → ¬ b.IsReduction → a = b) : ReductionsLast actions := by
  cases actions with
  | nil => exact ⟨none, [], rfl, by simp, .nil⟩
  | cons first rest =>
      have hbehind : ∀ second ∈ rest, second.IsReduction := fun second =>
        isReduction_of_behind hsorted hnodup hsole
      by_cases hfirst : first.IsReduction
      · obtain ⟨numbers, heq, hnumbers⟩ := exists_numbers
          (List.forall_mem_cons.mpr ⟨hfirst, hbehind⟩) hsorted hnodup
        exact ⟨none, numbers, heq, by simp, hnumbers⟩
      · obtain ⟨numbers, rfl, hnumbers⟩ := exists_numbers hbehind
          (List.pairwise_cons.mp hsorted).2 (List.nodup_cons.mp hnodup).2
        exact ⟨some first, numbers, rfl, by simpa using hfirst, hnumbers⟩

end Action

/-- What the actions of a conflict compete for. -/
def ConflictKind.Fits (actions : List Action) : ConflictKind → Prop
  | shiftReduce => ∃ target, .shift target ∈ actions
  | acceptReduce => .accept ∈ actions
  | reduceReduce => ∀ action ∈ actions, action.IsReduction

namespace SlrTable

variable {g : Grammar} {start : Symbol} {table : SlrTable} {number : Nat}
  {state : AutomatonState} {x : Lookahead}

/-! ## The actions of a cell -/

theorem Describes.actions_nodup (htable : Describes g start table) :
    (table.actions number x).Nodup := by
  rw [htable.actions_eq, List.Perm.nodup_iff (List.mergeSort_perm _ Action.le)]
  cases table.states[number]? with
  | none => exact .nil
  | some state =>
      rw [Option.map_some, Option.getD_some, asked, OrderedMap.getD_fill]
      exact nodup_extendNew .nil _

/-- At the end a cell accepts, and at a symbol it shifts to the one state that
the symbol leads to. -/
theorem Calls.eq_of_not_isReduction {first second : Action}
    (hfirst : Calls g start table number x first)
    (hsecond : Calls g start table number x second)
    (hfirstOther : ¬ first.IsReduction) (hsecondOther : ¬ second.IsReduction) :
    first = second := by
  cases hfirst with
  | shift _ _ _ _ htarget =>
      cases hsecond with
      | shift _ _ _ _ htarget' =>
          rw [htarget, Option.some.injEq] at htarget'
          rw [htarget']
      | reduce => exact absurd ⟨_, rfl⟩ hsecondOther
  | accept =>
      cases hsecond with
      | accept => rfl
      | reduce => exact absurd ⟨_, rfl⟩ hsecondOther
  | reduce => exact absurd ⟨_, rfl⟩ hfirstOther

theorem Describes.reductionsLast_actions (htable : Describes g start table) :
    Action.ReductionsLast (table.actions number x) := by
  apply Action.reductionsLast_of_sorted
  · rw [htable.actions_eq]
    exact List.pairwise_mergeSort Action.le_trans Action.le_total _
  · exact htable.actions_nodup
  · intro first hfirst second hsecond
    exact (htable.mem_actions_iff_calls.mp hfirst).eq_of_not_isReduction
      (htable.mem_actions_iff_calls.mp hsecond)

/-! ## What the items ask for -/

/-- A cell holds what the items of its state call for, and nothing else. -/
structure CellExact (table : SlrTable) (number : Nat) (state : AutomatonState)
    (x : Lookahead) : Prop where
  shift_iff : ∀ target, .shift target ∈ table.actions number x ↔
    ∃ s, x = .symbol s ∧ s.isTerm = true ∧
      (∃ item ∈ state.items, item.next? table.productions = some s) ∧
      table.goto? number s = some target
  accept_iff : .accept ∈ table.actions number x ↔
    ⟨0, 1⟩ ∈ state.items ∧ x = .endOfInput
  reduce_iff : ∀ reduced, .reduce reduced ∈ table.actions number x ↔
    reduced ≠ 0 ∧ ∃ p head, table.productions[reduced]? = some p ∧
      p.head? = some head ∧ ⟨reduced, p.rhs.length⟩ ∈ state.items ∧
      x ∈ table.sets.followOfVariable head
  nodup : (table.actions number x).Nodup
  reductionsLast : Action.ReductionsLast (table.actions number x)

theorem calls_shift_iff (hstate : table.states[number]? = some state)
    {target : Nat} :
    Calls g start table number x (.shift target) ↔
      ∃ s, x = .symbol s ∧ s.isTerm = true ∧
        (∃ item ∈ state.items, item.next? table.productions = some s) ∧
        table.goto? number s = some target := by
  constructor
  · intro hcalls
    cases hcalls with
    | shift hsame hitem hnext hterm htarget =>
        rw [hstate, Option.some.injEq] at hsame
        subst hsame
        exact ⟨_, rfl, hterm, ⟨_, hitem, hnext⟩, htarget⟩
  · rintro ⟨s, rfl, hterm, ⟨item, hitem, hnext⟩, htarget⟩
    exact .shift hstate hitem hnext hterm htarget

theorem next?_complete {ps : List Production} {p : Production}
    (hp : ps[number]? = some p) : Item.next? ps ⟨number, p.rhs.length⟩ = none := by
  simp [Item.next?, hp]

/-- An item of a state without a symbol behind its dot has the dot at the end. -/
theorem Describes.exists_complete (htable : Describes g start table)
    (hstate : table.states[number]? = some state) {item : Item}
    (hitem : item ∈ state.items) (hdone : item.next? table.productions = none) :
    ∃ p, table.productions[item.production]? = some p ∧
      ⟨item.production, p.rhs.length⟩ ∈ state.items := by
  obtain ⟨p, hp, hdot⟩ :=
    (next?_eq_none_iff (htable.grown.mem_allItems hstate hitem)).mp hdone
  refine ⟨p, hp, ?_⟩
  rw [← hdot]
  exact hitem

theorem Describes.calls_accept_iff (htable : Describes g start table)
    (hstate : table.states[number]? = some state) :
    Calls g start table number x .accept ↔
      ⟨0, 1⟩ ∈ state.items ∧ x = .endOfInput := by
  have hzero := htable.production_zero
  constructor
  · intro hcalls
    cases hcalls with
    | accept hsame hitem hdone hnumber =>
        rw [hstate, Option.some.injEq] at hsame
        subst hsame
        obtain ⟨p, hp, hcomplete⟩ := htable.exists_complete hstate hitem hdone
        rw [hnumber] at hp hcomplete
        rw [hzero, Option.some.injEq] at hp
        subst hp
        exact ⟨hcomplete, rfl⟩
  · rintro ⟨hitem, rfl⟩
    exact .accept hstate hitem (next?_complete hzero) rfl

theorem Describes.calls_reduce_iff (htable : Describes g start table)
    (hstate : table.states[number]? = some state) {reduced : Nat} :
    Calls g start table number x (.reduce reduced) ↔
      reduced ≠ 0 ∧ ∃ p head, table.productions[reduced]? = some p ∧
        p.head? = some head ∧ ⟨reduced, p.rhs.length⟩ ∈ state.items ∧
        x ∈ table.sets.followOfVariable head := by
  constructor
  · intro hcalls
    cases hcalls with
    | @reduce _ item head _ hsame hitem hdone hne hhead hfollows =>
        rw [hstate, Option.some.injEq] at hsame
        subst hsame
        obtain ⟨p, hp, hcomplete⟩ := htable.exists_complete hstate hitem hdone
        obtain ⟨q, hq, hsole⟩ := Item.head?_eq_some_iff.mp hhead
        rw [hp, Option.some.injEq] at hq
        subst hq
        exact ⟨hne, p, head, hp, hsole, hcomplete,
          (htable.follow_iff head x).mpr hfollows⟩
  · rintro ⟨hne, p, head, hp, hsole, hitem, hx⟩
    exact .reduce hstate hitem (next?_complete hp) hne
      (Item.head?_eq_some_iff.mpr ⟨p, hp, hsole⟩)
      ((htable.follow_iff head x).mp hx)

theorem Describes.cellExact (htable : Describes g start table)
    (hstate : table.states[number]? = some state) (x : Lookahead) :
    CellExact table number state x where
  shift_iff target := by
    rw [htable.mem_actions_iff_calls, calls_shift_iff hstate]
  accept_iff := by
    rw [htable.mem_actions_iff_calls, htable.calls_accept_iff hstate]
  reduce_iff reduced := by
    rw [htable.mem_actions_iff_calls, htable.calls_reduce_iff hstate]
  nodup := htable.actions_nodup
  reductionsLast := htable.reductionsLast_actions

/-! ## Expected inputs -/

/-- Sorting the cells leaves the keys as they are. -/
theorem keys_actionRow (ps : List Production) (sets : LookaheadSets)
    (state : AutomatonState) :
    (actionRow ps sets state).keys = (OrderedMap.fill ⟨[]⟩
      (state.items.flatMap (itemActions ps sets state))).keys := by
  simp [actionRow, OrderedMap.keys, OrderedMap.fill]

theorem Describes.mem_keys_iff (htable : Describes g start table)
    (hstate : table.states[number]? = some state) :
    x ∈ (actionRow table.productions table.sets state).keys ↔
      table.actions number x ≠ [] := by
  have hrow := OrderedMap.noEmptyCells_nil.fill
    (state.items.flatMap (itemActions table.productions table.sets state))
  have hcell : table.actions number x = [] ↔ table.asked x state = [] := by
    rw [htable.actions_eq, hstate, Option.map_some, Option.getD_some]
    constructor
    · intro hsorted
      exact ((List.mergeSort_perm _ _).symm.trans (.of_eq hsorted)).eq_nil
    · intro hnone
      rw [hnone, List.mergeSort_nil]
  rw [keys_actionRow, hrow.mem_keys_iff, ne_eq, ne_eq, hcell]
  rfl

/-- The expected inputs are those for which there is an action. -/
theorem Describes.mem_expected_iff (htable : Describes g start table)
    {rest : Form} :
    rest.head? ∈ table.expected number ↔
      table.actions number (.ofRest rest) ≠ [] := by
  unfold SlrTable.expected
  rw [htable.rows_eq, List.getElem?_map]
  cases hstate : table.states[number]? with
  | none => simp [htable.actions_eq, hstate]
  | some state =>
      have hlambda :
          .lambda ∉ (actionRow table.productions table.sets state).keys := by
        intro hkey
        rcases List.exists_mem_of_ne_nil _
          ((htable.mem_keys_iff hstate).mp hkey) with ⟨action, haction⟩
        cases htable.mem_actions_iff_calls.mp haction with
        | reduce _ _ _ _ _ hfollows => cases hfollows.isInput
      rw [← htable.mem_keys_iff hstate]
      exact Lookahead.head?_mem_map_symbol?_iff hlambda

/-! ## Conflicts -/

theorem Describes.keys_nodup_of_mem (htable : Describes g start table) :
    ∀ number row, (number, row) ∈ table.rows.zipIdx.map Prod.swap →
      row.keys.Nodup := by
  intro number row hrow
  rw [mem_rows_iff, htable.rows_eq, List.getElem?_map,
    Option.map_eq_some_iff] at hrow
  obtain ⟨state, _, rfl⟩ := hrow
  rw [keys_actionRow]
  exact OrderedMap.keys_nodup_fill _ .nil

theorem Describes.nodup_conflicts (htable : Describes g start table) :
    (table.conflicts.map fun c => (c.state, c.lookahead)).Nodup := by
  rw [conflicts_eq, List.map_map]
  refine nodup_crowded ?_ htable.keys_nodup_of_mem
  have hnumbers : (table.rows.zipIdx.map Prod.snd).Nodup := by
    rw [List.zipIdx_map_snd]
    exact List.nodup_range'
  rw [List.map_map]
  exact hnumbers

theorem any_isShift_iff {actions : List Action} :
    actions.any Action.isShift = true ↔ ∃ target, .shift target ∈ actions := by
  rw [List.any_eq_true]
  constructor
  · rintro ⟨action, hmem, hshift⟩
    cases action with
    | shift target => exact ⟨target, hmem⟩
    | accept => simp [Action.isShift] at hshift
    | reduce => simp [Action.isShift] at hshift
  · rintro ⟨target, hmem⟩
    exact ⟨_, hmem, rfl⟩

theorem fits_conflictKind (actions : List Action) :
    (conflictKind actions).Fits actions := by
  unfold conflictKind
  split
  next hshift => exact any_isShift_iff.mp hshift
  next hshift =>
    split
    next haccept => exact List.contains_iff_mem.mp haccept
    next haccept =>
      intro action hmem
      cases action with
      | accept => exact absurd (List.contains_iff_mem.mpr hmem) haccept
      | shift target => exact absurd (any_isShift_iff.mpr ⟨target, hmem⟩) hshift
      | reduce number => exact ⟨number, rfl⟩

/-- The kind is told from the actions, because a cell that shifts does not
accept. -/
theorem Describes.conflictKind_eq_iff (htable : Describes g start table)
    {kind : ConflictKind} :
    conflictKind (table.actions number x) = kind ↔
      kind.Fits (table.actions number x) := by
  refine ⟨fun heq => heq ▸ fits_conflictKind _, fun hfits => ?_⟩
  unfold conflictKind
  cases kind with
  | shiftReduce => rw [if_pos (any_isShift_iff.mpr hfits)]
  | acceptReduce =>
      have hshift : ¬ ∃ target, .shift target ∈ table.actions number x := by
        rintro ⟨target, hshift⟩
        have hsame := (htable.mem_actions_iff_calls.mp hshift).eq_of_not_isReduction
          (htable.mem_actions_iff_calls.mp hfits) (by simp [Action.IsReduction])
          (by simp [Action.IsReduction])
        cases hsame
      rw [if_neg (mt any_isShift_iff.mp hshift),
        if_pos (List.contains_iff_mem.mpr hfits)]
  | reduceReduce =>
      have hshift : ¬ ∃ target, .shift target ∈ table.actions number x := by
        rintro ⟨target, hshift⟩
        simpa [Action.IsReduction] using hfits _ hshift
      have haccept : .accept ∉ table.actions number x := by
        intro haccept
        simpa [Action.IsReduction] using hfits _ haccept
      rw [if_neg (mt any_isShift_iff.mp hshift),
        if_neg (mt List.contains_iff_mem.mp haccept)]

theorem Describes.mem_conflicts_iff (htable : Describes g start table)
    {c : Conflict} :
    c ∈ table.conflicts ↔ 2 ≤ (table.actions c.state c.lookahead).length ∧
      c.actions = table.actions c.state c.lookahead ∧ c.kind.Fits c.actions := by
  rw [conflicts_eq, List.mem_map]
  constructor
  · rintro ⟨⟨number, x, actions⟩, hcrowded, rfl⟩
    obtain ⟨hlong, row, hrow, rfl⟩ :=
      (mem_crowded_iff htable.keys_nodup_of_mem).mp hcrowded
    have hactions : table.actions number x = row.getD x [] := by
      rw [actions, mem_rows_iff.mp hrow]
      rfl
    rw [← hactions] at hlong ⊢
    exact ⟨hlong, rfl, htable.conflictKind_eq_iff.mp rfl⟩
  · obtain ⟨number, x, actions, kind⟩ := c
    simp only
    rintro ⟨hlong, rfl, hkind⟩
    rw [← htable.conflictKind_eq_iff] at hkind
    subst hkind
    exact ⟨_, mem_crowded_of_actions hlong, rfl⟩

/-- Every cell holds what the items of its state call for, and the conflicts are
the cells with two or more actions, each once and of the kind that its actions
have. -/
theorem ofGrammar_cellExact (hg : g.Consistent)
    (hstart : g.requireContextFree = .ok start) :
    ∃ table, ofGrammar g = .ok table ∧
      table.productions = augmentedProductions g start ∧
      LookaheadSets.ofGrammar g = .ok table.sets ∧
      (∀ number state, table.states[number]? = some state →
        ∀ x, CellExact table number state x) ∧
      (table.conflicts.map fun c => (c.state, c.lookahead)).Nodup ∧
      ∀ c, c ∈ table.conflicts ↔
        2 ≤ (table.actions c.state c.lookahead).length ∧
          c.actions = table.actions c.state c.lookahead ∧
          c.kind.Fits c.actions := by
  obtain ⟨table, htable⟩ := ofGrammar_eq_ok hstart
  have hdescribes := describes_ofGrammar hg hstart htable
  refine ⟨table, htable, hdescribes.productions_eq, sets_ofGrammar htable, ?_,
    hdescribes.nodup_conflicts, fun c => hdescribes.mem_conflicts_iff⟩
  intro number state hstate x
  exact hdescribes.cellExact hstate x

/-- `S → S | SS | a`, whose table has conflicts of all kinds. -/
def everyConflict : Grammar :=
  Grammar.withProductions { start := some (.var "S") }
    [.rule (.var "S") [.var "S"],
      .rule (.var "S") [.var "S", .var "S"],
      .rule (.var "S") [.term "a"]]

theorem ofGrammar_everyConflict :
    ∃ table, ofGrammar everyConflict = .ok table ∧
      (∃ state, table.states[1]? = some state ∧ ⟨0, 1⟩ ∈ state.items ∧
        CellExact table 1 state .endOfInput) ∧
      ⟨1, .endOfInput, [.accept, .reduce 1], .acceptReduce⟩ ∈ table.conflicts ∧
      ⟨3, .endOfInput, [.reduce 1, .reduce 2], .reduceReduce⟩ ∈
        table.conflicts ∧
      ⟨3, .symbol (.term "a"), [.shift 2, .reduce 1, .reduce 2], .shiftReduce⟩ ∈
        table.conflicts := by
  obtain ⟨table, htable, _, _, hcells, _, hconflicts⟩ := ofGrammar_cellExact
    (g := everyConflict) (Grammar.consistent_of_start rfl _) rfl
  have hdescribes := describes_ofGrammar (g := everyConflict)
    (Grammar.consistent_of_start rfl _) rfl htable
  have hbuilt : ∃ built, ofGrammar everyConflict = .ok built ∧
      built.states[1]?.isSome = true ∧
      built.states[1]?.map (built.asked .endOfInput) =
        some [.accept, .reduce 1] ∧
      built.states[3]?.map (built.asked .endOfInput) =
        some [.reduce 1, .reduce 2] ∧
      built.states[3]?.map (built.asked (.symbol (.term "a"))) =
        some [.reduce 1, .reduce 2, .shift 2] :=
    ⟨_, rfl, by decide +kernel⟩
  obtain ⟨built, hbuilt, hstate, hfirst, hsecond, hthird⟩ := hbuilt
  rw [htable] at hbuilt
  cases hbuilt
  have haccept : table.actions 1 .endOfInput = [.accept, .reduce 1] := by
    rw [hdescribes.actions_eq, hfirst]
    exact List.mergeSort_of_pairwise (by decide)
  have hreduce : table.actions 3 .endOfInput = [.reduce 1, .reduce 2] := by
    rw [hdescribes.actions_eq, hsecond]
    exact List.mergeSort_of_pairwise (by decide)
  have hshift : table.actions 3 (.symbol (.term "a")) =
      [.shift 2, .reduce 1, .reduce 2] := by
    rw [hdescribes.actions_eq, hthird]
    simp [List.mergeSort, List.MergeSort.Internal.splitInTwo, Action.le]
  obtain ⟨state, hstate⟩ := Option.isSome_iff_exists.mp hstate
  have hcell := hcells 1 state hstate .endOfInput
  have hitem := (hcell.accept_iff.mp (by simp [haccept])).1
  refine ⟨table, htable, ⟨state, hstate, hitem, hcell⟩, ?_, ?_, ?_⟩
  · exact (hconflicts _).mpr ⟨by simp [haccept], haccept.symm,
      by simp [ConflictKind.Fits]⟩
  · exact (hconflicts _).mpr ⟨by simp [hreduce], hreduce.symm,
      by simp [ConflictKind.Fits, Action.IsReduction]⟩
  · exact (hconflicts _).mpr ⟨by simp [hshift], hshift.symm,
      by simp [ConflictKind.Fits]⟩

end SlrTable

end FormalGrammars
