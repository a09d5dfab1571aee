import FormalGrammars.ShiftReduce.Table
import FormalGrammars.Proofs.Cells
import FormalGrammars.Proofs.Follow
import FormalGrammars.Proofs.ShiftReduce.Automaton

/-!
# The actions of an SLR(1) table

An action is in a cell exactly when an item of the state asks for it.  The new
start occurs in no production of the grammar, so its number 0 is told apart
from all others; the productions behind it are those of the grammar, and
FOLLOW is exact.  In a table without conflicts the action of a cell is every
action that an item asks for.
-/

namespace FormalGrammars.SlrTable

variable {g : Grammar} {start : Symbol} {table : SlrTable}

/-! ## The new start -/

theorem augmentedStart_isVar : (augmentedStart g start).isVar = true :=
  rfl

def primedNames (g : Grammar) (start : Symbol) : List String :=
  (List.range (g.tally.size + 1)).map fun count =>
    start.name ++ String.ofList (List.replicate (count + 1) '\'')

theorem length_primed (name : String) (count : Nat) :
    (name ++ String.ofList (List.replicate (count + 1) '\'')).length =
      name.length + count + 1 := by
  rw [String.length_append, String.length_ofList, List.length_replicate]
  omega

theorem nodup_primedNames : (primedNames g start).Nodup := by
  refine List.Nodup.map (fun m n heq => ?_) List.nodup_range
  have hlength := congrArg String.length heq
  simp only [length_primed] at hlength
  omega

/-- There are more candidates than symbols, so one of them is free. -/
theorem exists_primedName (g : Grammar) (start : Symbol) :
    ∃ name ∈ primedNames g start,
      (!g.hasVariable (.var name) && !g.hasTerminal (.term name)) = true := by
  apply Classical.byContradiction
  intro hnone
  have hsub : primedNames g start ⊆ g.tally.keys.map Symbol.name := by
    intro name hname
    apply Classical.byContradiction
    intro hfree
    refine hnone ⟨name, hname, ?_⟩
    simp only [List.mem_map, not_exists, not_and] at hfree
    simp only [Grammar.hasVariable, Grammar.hasTerminal, Grammar.variables,
      Grammar.terminals, List.mem_filter, Bool.and_eq_true, Bool.not_eq_true',
      decide_eq_false_iff_not, not_and]
    exact ⟨fun hmem => absurd rfl (hfree _ hmem),
      fun hmem => absurd rfl (hfree _ hmem)⟩
  have hle := nodup_primedNames.length_le_of_subset hsub
  simp only [primedNames, OrderedMap.keys, List.length_map,
    List.length_range, OrderedMap.size] at hle
  omega

theorem exists_augmentedStart (g : Grammar) (start : Symbol) :
    ∃ name ∈ primedNames g start, augmentedStart g start = .var name ∧
      augmentedStart g start ∉ g.tally.keys := by
  obtain ⟨free, hmem, hfree⟩ := exists_primedName g start
  have hsome : ((primedNames g start).find? fun name =>
      !g.hasVariable (.var name) && !g.hasTerminal (.term name)).isSome := by
    rw [List.find?_isSome]
    exact ⟨free, hmem, hfree⟩
  obtain ⟨name, hname⟩ := Option.isSome_iff_exists.mp hsome
  have heq : augmentedStart g start = .var name := by
    change Symbol.var (((primedNames g start).find? fun name =>
      !g.hasVariable (.var name) && !g.hasTerminal (.term name)).getD _) = _
    rw [hname]
    rfl
  refine ⟨name, List.mem_of_find?_eq_some hname, heq, fun hkey => ?_⟩
  have hfound := List.find?_some hname
  rw [heq] at hkey
  simp only [Grammar.hasVariable, Grammar.variables, Bool.and_eq_true,
    Bool.not_eq_true', decide_eq_false_iff_not, List.mem_filter] at hfound
  exact hfound.1 ⟨hkey, rfl⟩

theorem augmentedStart_ne_start : augmentedStart g start ≠ start := by
  obtain ⟨name, hname, heq, _⟩ := exists_augmentedStart g start
  obtain ⟨count, _, rfl⟩ := List.mem_map.mp hname
  rw [heq]
  intro hsame
  have hlength := congrArg (fun s : Symbol => s.name.length) hsame
  simp only [Symbol.name, length_primed] at hlength
  omega

theorem augmentedStart_not_mem (hg : g.Consistent) {p : Production}
    (hp : p ∈ g.productions) : augmentedStart g start ∉ p.symbols := by
  obtain ⟨_, _, _, hkey⟩ := exists_augmentedStart g start
  exact fun hs => hkey (hg.mem_keys_iff.mpr ⟨p, hp, hs⟩)

/-! ## The parts of a table -/

structure Describes (g : Grammar) (start : Symbol) (table : SlrTable) : Prop where
  productions_eq : table.productions = augmentedProductions g start
  states_eq : table.states = Automaton.ofProductions table.productions
  rows_eq : table.rows =
    table.states.map (actionRow table.productions table.sets)
  follow_iff : ∀ s x, x ∈ table.sets.followOfVariable s ↔ g.Follows start s x

theorem ofGrammar_eq_ok (hstart : g.requireContextFree = .ok start) :
    ∃ table, ofGrammar g = .ok table := by
  obtain ⟨known, hsets⟩ := LookaheadSets.ofGrammar_eq_ok hstart
  unfold ofGrammar
  rw [hstart, hsets]
  exact ⟨_, rfl⟩

theorem exists_start_of_ofGrammar (htable : ofGrammar g = .ok table) :
    ∃ start, g.requireContextFree = .ok start := by
  unfold ofGrammar at htable
  cases hstart : g.requireContextFree with
  | error => rw [hstart] at htable; cases htable
  | ok start => exact ⟨start, rfl⟩

theorem sets_ofGrammar (htable : ofGrammar g = .ok table) :
    LookaheadSets.ofGrammar g = .ok table.sets := by
  obtain ⟨start, hstart⟩ := exists_start_of_ofGrammar htable
  obtain ⟨known, hsets⟩ := LookaheadSets.ofGrammar_eq_ok hstart
  unfold ofGrammar at htable
  rw [hstart, hsets] at htable
  cases htable
  exact hsets

theorem describes_ofGrammar (hg : g.Consistent)
    (hstart : g.requireContextFree = .ok start)
    (htable : ofGrammar g = .ok table) : Describes g start table := by
  have hsets := sets_ofGrammar htable
  unfold ofGrammar at htable
  rw [hstart, hsets] at htable
  have heq := Except.ok.inj htable
  rw [← heq]
  exact ⟨rfl, rfl, rfl, fun s x =>
    LookaheadSets.mem_followOfVariable_iff hg hstart hsets⟩

variable {number : Nat} {p : Production} {state : AutomatonState}
  {item : Item} {s : Symbol}

theorem Describes.production_zero (htable : Describes g start table) :
    table.productions[0]? =
      some (.rule (augmentedStart g start) [start]) := by
  rw [htable.productions_eq]
  rfl

theorem Describes.mem_productions (htable : Describes g start table)
    (hp : table.productions[number]? = some p) (hne : number ≠ 0) :
    p ∈ g.productions := by
  obtain ⟨below, rfl⟩ := Nat.exists_eq_succ_of_ne_zero hne
  rw [htable.productions_eq] at hp
  exact List.mem_of_getElem? hp

theorem Describes.exists_number (htable : Describes g start table)
    (hp : p ∈ g.productions) :
    ∃ number, number ≠ 0 ∧ table.productions[number]? = some p := by
  obtain ⟨below, hbelow⟩ := List.mem_iff_getElem?.mp hp
  refine ⟨below + 1, Nat.succ_ne_zero below, ?_⟩
  rw [htable.productions_eq]
  exact hbelow

theorem Describes.augmentedStart_not_mem_rhs (hg : g.Consistent)
    (htable : Describes g start table)
    (hp : table.productions[number]? = some p) :
    augmentedStart g start ∉ p.rhs := by
  cases number with
  | zero =>
      rw [htable.production_zero, Option.some.injEq] at hp
      subst hp
      simpa [Production.rule] using augmentedStart_ne_start (g := g)
  | succ number =>
      have hmem := htable.mem_productions hp (Nat.succ_ne_zero number)
      intro hs
      exact augmentedStart_not_mem hg hmem (List.mem_append_right _ hs)

theorem Describes.fresh (hg : g.Consistent)
    (htable : Describes g start table) {items : List Item} :
    ∀ s ∈ nextSymbols table.productions items,
      Item.head? table.productions ⟨0, 0⟩ ≠ some s := by
  intro s hs hhead
  obtain ⟨item, _, hnext⟩ := mem_nextSymbols.mp hs
  obtain ⟨p, hp, hdot⟩ := next?_eq_some_iff.mp hnext
  obtain ⟨first, hfirst, hsole⟩ := Item.head?_eq_some_iff.mp hhead
  rw [htable.production_zero, Option.some.injEq] at hfirst
  subst hfirst
  rw [Production.head?_rule augmentedStart_isVar, Option.some.injEq] at hsole
  subst hsole
  exact htable.augmentedStart_not_mem_rhs hg hp (List.mem_of_getElem? hdot)

theorem Describes.productions_ne_nil (htable : Describes g start table) :
    table.productions ≠ [] := by
  rw [htable.productions_eq]
  simp [augmentedProductions]

theorem Describes.explored (htable : Describes g start table) :
    Automaton.Explored table.productions table.states.length table.states := by
  rw [htable.states_eq]
  exact (Automaton.explored_ofProductions htable.productions_ne_nil).1

theorem Describes.grown (htable : Describes g start table) :
    Automaton.Grown table.productions table.states :=
  htable.explored.grown

theorem Describes.complete (htable : Describes g start table) :
    Automaton.CompleteBelow table.productions table.states
      table.states.length :=
  htable.explored.complete

/-! ## Cells -/

theorem getD_mapValues {κ ν : Type} [DecidableEq κ] (row : OrderedMap κ ν)
    (update : ν → ν) (key : κ) (fallback : ν)
    (hfallback : update fallback = fallback) :
    (⟨row.entries.map fun (key, value) => (key, update value)⟩ :
        OrderedMap κ ν).getD key fallback =
      update (row.getD key fallback) := by
  unfold OrderedMap.getD OrderedMap.get?
  rw [List.find?_map]
  have hsame : ((fun entry : κ × ν => decide (entry.1 = key)) ∘
      fun x : κ × ν => (x.1, update x.2)) =
      fun entry => decide (entry.1 = key) := rfl
  rw [hsame]
  cases row.entries.find? fun entry => decide (entry.1 = key) with
  | none => exact hfallback.symm
  | some entry => rfl

/-- What the items of a state ask for at a look-ahead, each action once. -/
def asked (table : SlrTable) (x : Lookahead) (state : AutomatonState) :
    List Action :=
  OrderedMap.getD (OrderedMap.fill ⟨[]⟩
    (state.items.flatMap (itemActions table.productions table.sets state))) x []

theorem mem_asked {x : Lookahead} {action : Action} :
    action ∈ table.asked x state ↔ ∃ item ∈ state.items,
      (x, action) ∈ itemActions table.productions table.sets state item := by
  rw [asked, OrderedMap.mem_fill, List.mem_flatMap]
  simp [OrderedMap.getD, OrderedMap.get?]

theorem Describes.actions_eq (htable : Describes g start table)
    (number : Nat) (x : Lookahead) :
    table.actions number x =
      ((table.states[number]?.map (table.asked x)).getD []).mergeSort
        Action.le := by
  unfold actions
  rw [htable.rows_eq, List.getElem?_map]
  cases table.states[number]? with
  | none => exact List.mergeSort_nil.symm
  | some state =>
      exact getD_mapValues _ (·.mergeSort Action.le) x [] List.mergeSort_nil

theorem Describes.mem_actions_iff (htable : Describes g start table)
    {x : Lookahead} {action : Action} :
    action ∈ table.actions number x ↔
      ∃ state, table.states[number]? = some state ∧ ∃ item ∈ state.items,
        (x, action) ∈ itemActions table.productions table.sets state item := by
  rw [htable.actions_eq, List.mem_mergeSort]
  cases table.states[number]? with
  | none => simp
  | some state => simp [mem_asked]

/-- What the items of a state ask for. -/
inductive Calls (g : Grammar) (start : Symbol) (table : SlrTable)
    (number : Nat) : Lookahead → Action → Prop where
  | shift {state : AutomatonState} {item : Item} {s : Symbol} {target : Nat}
      (hstate : table.states[number]? = some state)
      (hitem : item ∈ state.items)
      (hnext : item.next? table.productions = some s)
      (hterm : s.isTerm = true)
      (htarget : table.goto? number s = some target) :
      Calls g start table number (.symbol s) (.shift target)
  | accept {state : AutomatonState} {item : Item}
      (hstate : table.states[number]? = some state)
      (hitem : item ∈ state.items)
      (hdone : item.next? table.productions = none)
      (hzero : item.production = 0) :
      Calls g start table number .endOfInput .accept
  | reduce {state : AutomatonState} {item : Item} {head : Symbol}
      {x : Lookahead} (hstate : table.states[number]? = some state)
      (hitem : item ∈ state.items)
      (hdone : item.next? table.productions = none)
      (hne : item.production ≠ 0)
      (hhead : item.head? table.productions = some head)
      (hfollows : g.Follows start head x) :
      Calls g start table number x (.reduce item.production)

theorem Describes.mem_actions_iff_calls (htable : Describes g start table)
    {x : Lookahead} {action : Action} :
    action ∈ table.actions number x ↔ Calls g start table number x action := by
  rw [htable.mem_actions_iff]
  constructor
  · rintro ⟨state, hstate, item, hitem, haction⟩
    unfold itemActions at haction
    split at haction
    next s hnext =>
      split at haction
      next hterm =>
        rw [Option.mem_toList, Option.map_eq_some_iff] at haction
        obtain ⟨target, htarget, heq⟩ := haction
        cases heq
        refine .shift hstate hitem hnext hterm ?_
        rw [goto?, hstate]
        exact htarget
      next => simp at haction
    next hdone =>
      split at haction
      next hzero =>
        cases List.mem_singleton.mp haction
        exact .accept hstate hitem hdone hzero
      next hne =>
        split at haction
        next => simp at haction
        next head hhead =>
          obtain ⟨y, hy, heq⟩ := List.mem_map.mp haction
          cases heq
          exact .reduce hstate hitem hdone hne hhead
            ((htable.follow_iff head x).mp hy)
  · intro hcalls
    cases hcalls with
    | @shift state item s target hstate hitem hnext hterm htarget =>
        refine ⟨state, hstate, item, hitem, ?_⟩
        rw [goto?, hstate, Option.bind_some] at htarget
        simp [itemActions, hnext, hterm, htarget]
    | @accept state item hstate hitem hdone hzero =>
        refine ⟨state, hstate, item, hitem, ?_⟩
        simp [itemActions, hdone, hzero]
    | @reduce state item head x hstate hitem hdone hne hhead hfollows =>
        refine ⟨state, hstate, item, hitem, ?_⟩
        have hx := (htable.follow_iff head x).mpr hfollows
        simp [itemActions, hdone, hne, hhead, hx]

/-! ## Conflicts -/

theorem conflicts_eq : table.conflicts =
    (crowded (table.rows.zipIdx.map Prod.swap)).map
      fun (state, x, actions) => ⟨state, x, actions, conflictKind actions⟩ := by
  unfold conflicts crowded
  rw [List.flatMap_map, List.map_flatMap]
  simp only [List.map_map]
  rfl

theorem mem_rows_iff {row : ActionRow} :
    (number, row) ∈ table.rows.zipIdx.map Prod.swap ↔
      table.rows[number]? = some row := by
  rw [← List.mk_mem_zipIdx_iff_getElem?, List.mem_map]
  constructor
  · rintro ⟨⟨row, number⟩, hmem, heq⟩
    cases heq
    exact hmem
  · exact fun hmem => ⟨_, hmem, rfl⟩

theorem mem_crowded_of_actions {x : Lookahead}
    (hlong : 1 < (table.actions number x).length) :
    (number, x, table.actions number x) ∈
      crowded (table.rows.zipIdx.map Prod.swap) := by
  unfold actions at hlong ⊢
  cases hrow : table.rows[number]? with
  | none => simp [hrow] at hlong
  | some row =>
      rw [hrow] at hlong
      exact mem_crowded_of_getD (mem_rows_iff.mpr hrow) hlong

theorem length_actions_le (hfree : table.isConflictFree = true) (number : Nat)
    (x : Lookahead) : (table.actions number x).length ≤ 1 := by
  by_contra hle
  have hcrowded := mem_crowded_of_actions (Nat.lt_of_not_le hle)
  have hconflict := List.mem_map_of_mem
    (f := fun (state, x, actions) =>
      Conflict.mk state x actions (conflictKind actions)) hcrowded
  rw [← conflicts_eq, List.isEmpty_iff.mp hfree] at hconflict
  exact List.not_mem_nil hconflict

theorem action?_of_mem (hfree : table.isConflictFree = true) {x : Lookahead}
    {action : Action} (haction : action ∈ table.actions number x) :
    table.action? number x = some action := by
  have hle := length_actions_le hfree number x
  unfold action?
  match hcell : table.actions number x with
  | [] => simp [hcell] at haction
  | [other] =>
      rw [hcell, List.mem_singleton] at haction
      rw [haction]
      rfl
  | _ :: _ :: _ => simp [hcell] at hle

theorem Describes.calls_of_action? (htable : Describes g start table)
    {x : Lookahead} {action : Action}
    (haction : table.action? number x = some action) :
    Calls g start table number x action :=
  htable.mem_actions_iff_calls.mp (List.mem_of_head? haction)

end FormalGrammars.SlrTable
