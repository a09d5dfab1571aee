import FormalGrammars.Proofs.ShiftReduce.Path
import FormalGrammars.Proofs.ShiftReduce.Table
import Mathlib.Computability.EpsilonNFA

/-!
# The automaton of items and its subset construction

The items are the states of an automaton of their own.  It reads a symbol by
moving the dot over it, and without reading anything it goes from an item with a
variable behind the dot to the items of that variable with the dot in front.
The automaton that the tables are made from is its subset construction: the run
along some symbols comes to the set of all items that can be reached by reading
them, and it fails when there is none.
-/

namespace FormalGrammars

variable {ps : List Production} {kernel items : List Item} {item : Item}
  {s : Symbol} {symbols : Form}

def itemAutomaton (ps : List Production) : εNFA Symbol Item where
  step item
    | some s => {next | item.next? ps = some s ∧ next = item.advance}
    | none => {first | first.dot = 0 ∧
        ∃ s, item.next? ps = some s ∧ first.head? ps = some s}
  start := {⟨0, 0⟩}
  accept := Set.univ

/-- The item can be reached from the first one by reading the symbols. -/
def Reads (ps : List Production) (symbols : Form) (item : Item) : Prop :=
  ∃ labels, labels.reduceOption = symbols ∧
    (itemAutomaton ps).IsPath ⟨0, 0⟩ item labels

theorem reads_iff_mem_eval :
    Reads ps symbols item ↔ item ∈ (itemAutomaton ps).eval symbols :=
  ((itemAutomaton ps).mem_evalFrom_iff_exists_path).symm

/-! ## Closures -/

theorem IsItemSet.mem_closure_iff (hkernel : IsItemSet ps kernel) :
    item ∈ closure ps kernel ↔
      item ∈ (itemAutomaton ps).εClosure {x | x ∈ kernel} := by
  constructor
  · apply closure_induct (motive := fun item =>
      item ∈ (itemAutomaton ps).εClosure {x | x ∈ kernel})
    · exact fun item hitem => εNFA.εClosure.base item hitem
    · intro item other s hitem hnext hdot hhead
      exact εNFA.εClosure.step item other ⟨hdot, s, hnext, hhead⟩ hitem
  · intro hitem
    induction hitem with
    | base item hitem => exact hkernel.gains_closure.kernel_subset item hitem
    | step item other hother _ ih =>
        obtain ⟨hdot, s, hnext, hhead⟩ := hother
        obtain ⟨p, hp, hsole⟩ := Item.head?_eq_some_iff.mp hhead
        have hfront : other = ⟨other.production, 0⟩ := by rw [← hdot]
        rw [hfront]
        exact hkernel.closure_closed (mem_nextSymbols.mpr ⟨item, ih, hnext⟩)
          hp hsole

/-- Closing what a set of items goes to is a step of the set. -/
theorem mem_stepSet_iff :
    item ∈ (itemAutomaton ps).stepSet {x | x ∈ items} s ↔
      item ∈ (itemAutomaton ps).εClosure {x | x ∈ gotoKernel ps items s} := by
  rw [εNFA.mem_stepSet_iff, εNFA.mem_εClosure_iff_exists]
  constructor
  · rintro ⟨before, hbefore, hitem⟩
    obtain ⟨next, ⟨hnext, rfl⟩, hclosure⟩ :=
      (εNFA.mem_εClosure_iff_exists _).mp hitem
    exact ⟨_, mem_gotoKernel.mpr ⟨before, hbefore, hnext, rfl⟩, hclosure⟩
  · rintro ⟨next, hnext, hclosure⟩
    obtain ⟨before, hbefore, hdot, rfl⟩ := mem_gotoKernel.mp hnext
    exact ⟨before, hbefore,
      (εNFA.mem_εClosure_iff_exists _).mpr ⟨_, ⟨hdot, rfl⟩, hclosure⟩⟩

namespace Automaton

variable {states : Automaton} {number : Nat} {state : AutomatonState}

/-! ## Runs -/

/-- The items of the state that a run comes to; none if it fails. -/
def itemsAt (states : Automaton) (reached : Option Nat) : Set Item :=
  {item | ∃ number ∈ reached, ∃ state : AutomatonState,
    states[number]? = some state ∧ item ∈ state.items}

theorem itemsAt_some (hstate : states[number]? = some state) :
    states.itemsAt (some number) = {item | item ∈ state.items} := by
  ext item
  simp [itemsAt, hstate]

theorem Grown.mem_items_iff (hgrown : Grown ps states)
    (hstate : states[number]? = some state) :
    item ∈ state.items ↔
      item ∈ (itemAutomaton ps).εClosure {x | x ∈ state.kernel} := by
  rw [hgrown.items_eq hstate]
  exact (hgrown.isItemSet hstate).mem_closure_iff

/-- A transition goes from the items of a state to what they go to. -/
theorem Explored.itemsAt_target? (hexplored : Explored ps states.length states)
    (number : Nat) (s : Symbol) :
    states.itemsAt (states.target? number s) =
      (itemAutomaton ps).stepSet (states.itemsAt (some number)) s := by
  cases hstate : states[number]? with
  | none => simp [itemsAt, target?, hstate]
  | some state =>
      ext item
      rw [itemsAt_some hstate, mem_stepSet_iff]
      cases htarget : states.target? number s with
      | some target =>
          obtain ⟨_, next, hnext, hkernel⟩ :=
            hexplored.grown.leads_target? hstate htarget
          rw [itemsAt_some hnext, ← hkernel]
          exact hexplored.grown.mem_items_iff hnext
      | none =>
          -- Without a transition the symbol stands behind no dot.
          have hempty : gotoKernel ps state.items s = [] := by
            apply List.eq_nil_iff_forall_not_mem.mpr
            intro after hafter
            obtain ⟨before, hbefore, hnext, _⟩ := mem_gotoKernel.mp hafter
            obtain ⟨target, hsome⟩ := hexplored.complete.exists_target hstate
              (mem_nextSymbols.mpr ⟨before, hbefore, hnext⟩)
            rw [htarget] at hsome
            cases hsome
          simp [itemsAt, hempty]

theorem Explored.itemsAt_run (hexplored : Explored ps states.length states)
    (symbols : Form) :
    states.itemsAt (states.run 0 symbols) = (itemAutomaton ps).eval symbols := by
  -- By the last symbol: runs and evaluations are both continued at their end.
  induction symbols using List.reverseRecOn with
  | nil =>
      obtain ⟨state, hstate, hkernel⟩ := hexplored.grown.first
      ext item
      rw [run, itemsAt_some hstate, εNFA.eval_nil]
      refine (hexplored.grown.mem_items_iff hstate).trans ?_
      rw [hkernel]
      simp [itemAutomaton]
  | append_singleton symbols s ih =>
      rw [run_snoc, εNFA.eval_append_singleton, ← ih]
      cases states.run 0 symbols with
      | none => simp [itemsAt]
      | some number => exact hexplored.itemsAt_target? number s

/-- A run that does not fail comes to a state with items. -/
theorem Grown.exists_item_of_run (hgrown : Grown ps states)
    (hrun : states.run 0 symbols = some number) :
    ∃ state : AutomatonState, states[number]? = some state ∧
      ∃ item, item ∈ state.items := by
  rcases List.eq_nil_or_concat symbols with rfl | ⟨before, s, rfl⟩
  · obtain ⟨state, hstate, hitem⟩ := hgrown.mem_items_zero
    cases hrun
    exact ⟨state, hstate, _, hitem⟩
  · rw [List.concat_eq_append, run_snoc, Option.bind_eq_some_iff] at hrun
    obtain ⟨_, _, htarget⟩ := hrun
    exact hgrown.exists_item_of_target htarget

theorem Explored.mem_items_iff_reads
    (hexplored : Explored ps states.length states)
    (hrun : states.run 0 symbols = some number)
    (hstate : states[number]? = some state) :
    item ∈ state.items ↔ Reads ps symbols item := by
  rw [reads_iff_mem_eval, ← hexplored.itemsAt_run, hrun, itemsAt_some hstate]
  rfl

theorem Explored.run_isSome_iff (hexplored : Explored ps states.length states) :
    (states.run 0 symbols).isSome = true ↔ ∃ item, Reads ps symbols item := by
  constructor
  · intro hsome
    obtain ⟨number, hrun⟩ := Option.isSome_iff_exists.mp hsome
    obtain ⟨state, hstate, item, hitem⟩ :=
      hexplored.grown.exists_item_of_run hrun
    exact ⟨item, (hexplored.mem_items_iff_reads hrun hstate).mp hitem⟩
  · rintro ⟨item, hreads⟩
    rw [reads_iff_mem_eval, ← hexplored.itemsAt_run] at hreads
    obtain ⟨number, hnumber, _⟩ := hreads
    rw [hnumber]
    rfl

/-- The states are the sets of items that can be reached together, each of them
once. -/
structure IsSubsetConstruction (ps : List Production)
    (states : Automaton) : Prop where
  /-- The exploration has come to the end of the list. -/
  ends : ∃ count,
    stepTimes (round ps) count (0, [.ofKernel ps [⟨0, 0⟩]]) =
      (states.length, states)
  closed : ∀ state ∈ states, closurePass ps state.items = state.items
  number_eq : ∀ {m n : Nat} {first second : AutomatonState},
    states[m]? = some first → states[n]? = some second →
    (∀ item, item ∈ first.kernel ↔ item ∈ second.kernel) → m = n
  reachable : Reachable states
  run_isSome_iff : ∀ symbols, (states.run 0 symbols).isSome = true ↔
    ∃ item, Reads ps symbols item
  mem_items_iff : ∀ {symbols : Form} {number : Nat},
    states.run 0 symbols = some number →
    ∃ state : AutomatonState, states[number]? = some state ∧
      ∀ item, item ∈ state.items ↔ Reads ps symbols item

theorem isSubsetConstruction_ofProductions (hps : ps ≠ []) :
    IsSubsetConstruction ps (ofProductions ps) := by
  obtain ⟨hexplored, hends⟩ := explored_ofProductions hps
  have hgrown := hexplored.grown
  refine ⟨hends, ?_, ?_, hexplored.reachable,
    fun symbols => hexplored.run_isSome_iff, ?_⟩
  · intro state hmem
    obtain ⟨number, hstate⟩ := List.mem_iff_getElem?.mp hmem
    rw [hgrown.items_eq hstate]
    exact (hgrown.isItemSet hstate).closurePass_closure
  · intro m n first second hfirst hsecond hsame
    exact hgrown.number_eq hfirst hsecond
      ((hgrown.isItemSet hfirst).ext (hgrown.isItemSet hsecond) hsame)
  · intro symbols number hrun
    obtain ⟨state, hstate, _⟩ := hgrown.exists_item_of_run hrun
    exact ⟨state, hstate, fun item =>
      hexplored.mem_items_iff_reads hrun hstate⟩

end Automaton

namespace SlrTable

variable {g : Grammar} {start : Symbol}

/-- The states of a table are the subset construction of the items of the
grammar and of one more production, whose head occurs nowhere else. -/
theorem ofGrammar_subsetConstruction (hg : g.Consistent)
    (hstart : g.requireContextFree = .ok start) :
    ∃ table, ofGrammar g = .ok table ∧
      table.productions =
        .rule (augmentedStart g start) [start] :: g.productions ∧
      Automaton.IsSubsetConstruction table.productions table.states ∧
      ∀ p ∈ g.productions, augmentedStart g start ∉ p.lhs ∧
        augmentedStart g start ∉ p.rhs := by
  obtain ⟨table, htable⟩ := ofGrammar_eq_ok hstart
  have hdescribes := describes_ofGrammar hg hstart htable
  refine ⟨table, htable, hdescribes.productions_eq, ?_, fun p hp => ?_⟩
  · rw [hdescribes.states_eq]
    exact Automaton.isSubsetConstruction_ofProductions
      hdescribes.productions_ne_nil
  · have hnew : augmentedStart g start ∉ p.symbols :=
      augmentedStart_not_mem hg hp
    rwa [Production.symbols, List.mem_append, not_or] at hnew

/-- `S → S'b | S'` and `S' → aS | λ`, where the name `S'` is taken. -/
def primed : Grammar :=
  Grammar.withProductions { start := some (.var "S") }
    [.rule (.var "S") [.var "S'", .term "b"],
      .rule (.var "S") [.var "S'"],
      .rule (.var "S'") [.term "a", .var "S"],
      .rule (.var "S'") []]

theorem ofGrammar_primed :
    ∃ table, ofGrammar primed = .ok table ∧
      augmentedStart primed (.var "S") = .var "S''" ∧
      Reads table.productions [.term "a", .term "a", .var "S'"] ⟨1, 1⟩ ∧
      ¬ Reads table.productions [.term "a", .term "a", .var "S'"] ⟨3, 0⟩ ∧
      ∀ item, ¬ Reads table.productions [.term "a", .term "b"] item := by
  obtain ⟨table, htable, -, hsubsets, -⟩ := ofGrammar_subsetConstruction
    (g := primed) (Grammar.consistent_of_start rfl _) rfl
  have hbuilt : ∃ built number state, ofGrammar primed = .ok built ∧
      built.states.run 0 [.term "a", .term "a", .var "S'"] = some number ∧
      built.states[number]? = some state ∧
      state.items = [⟨1, 1⟩, ⟨2, 1⟩] ∧
      built.states.run 0 [.term "a", .term "b"] = none :=
    ⟨_, _, _, rfl, rfl, rfl, by decide +kernel, by decide +kernel⟩
  obtain ⟨built, number, state, hbuilt, hrun, hstate, hitems, hfails⟩ := hbuilt
  rw [htable] at hbuilt
  cases hbuilt
  obtain ⟨same, hsame, hreads⟩ := hsubsets.mem_items_iff hrun
  rw [hstate, Option.some.injEq] at hsame
  subst hsame
  refine ⟨table, htable, by decide +kernel, ?_, ?_, ?_⟩
  · exact (hreads _).mp (by simp [hitems])
  · exact fun hreached => by simpa [hitems] using (hreads _).mpr hreached
  · intro item hreached
    have hsome := (hsubsets.run_isSome_iff _).mpr ⟨item, hreached⟩
    rw [hfails] at hsome
    cases hsome

end SlrTable

end FormalGrammars
