import FormalGrammars.Proofs.ShiftReduce.Items

/-!
# The subset construction

While the automaton grows, every state is the closure of its kernel, no two
states have the same kernel, and a transition leads to the state whose kernel
is the one the symbol goes to.  The kernels are different sublists of the list
of all items, so there are at most `2 ^ n` of them, and the exploration gets to
every state: in the end a state has a transition exactly on the symbols behind
its dots.
-/

namespace FormalGrammars.Automaton

variable {ps : List Production} {states later : Automaton} {number : Nat}
  {state : AutomatonState} {s : Symbol} {kernel : List Item}

def target? (states : Automaton) (number : Nat) (s : Symbol) : Option Nat :=
  states[number]?.bind (·.transitions.get? s)

theorem target?_eq_some_iff {target : Nat} :
    states.target? number s = some target ↔
      ∃ state : AutomatonState, states[number]? = some state ∧
        state.transitions.get? s = some target :=
  Option.bind_eq_some_iff

/-- The states so far belong to the automaton of the productions. -/
structure Grown (ps : List Production) (states : Automaton) : Prop where
  isItemSet : ∀ {number : Nat} {state : AutomatonState},
    states[number]? = some state →
    IsItemSet ps state.kernel
  items_eq : ∀ {number : Nat} {state : AutomatonState},
    states[number]? = some state →
    state.items = closure ps state.kernel
  kernels_nodup : (states.map AutomatonState.kernel).Nodup
  first : ∃ state : AutomatonState,
    states[0]? = some state ∧ state.kernel = [⟨0, 0⟩]
  leads : ∀ {number target : Nat} {state : AutomatonState} {s : Symbol},
    states[number]? = some state →
    state.transitions.get? s = some target →
    s ∈ nextSymbols ps state.items ∧
      ∃ next : AutomatonState, states[target]? = some next ∧
        next.kernel = gotoKernel ps state.items s

theorem Grown.leads_target? (hgrown : Grown ps states) {target : Nat}
    (hstate : states[number]? = some state)
    (htarget : states.target? number s = some target) :
    s ∈ nextSymbols ps state.items ∧
      ∃ next : AutomatonState, states[target]? = some next ∧
        next.kernel = gotoKernel ps state.items s := by
  obtain ⟨same, hsame, hget⟩ := target?_eq_some_iff.mp htarget
  rw [hstate, Option.some.injEq] at hsame
  subst hsame
  exact hgrown.leads hstate hget

/-- The states stay where they are, and so do their transitions. -/
structure Extends (states later : Automaton) : Prop where
  same : ∀ {number : Nat} {state : AutomatonState},
    states[number]? = some state →
    ∃ after : AutomatonState, later[number]? = some after ∧
      after.kernel = state.kernel ∧ after.items = state.items
  keeps : ∀ {number target : Nat} {s : Symbol},
    states.target? number s = some target →
    later.target? number s = some target

theorem Extends.refl (states : Automaton) : Extends states states :=
  ⟨fun hstate => ⟨_, hstate, rfl, rfl⟩, id⟩

theorem Extends.trans {last : Automaton} (hfirst : Extends states later)
    (hsecond : Extends later last) : Extends states last := by
  refine ⟨fun hstate => ?_, fun htarget => hsecond.keeps (hfirst.keeps htarget)⟩
  obtain ⟨after, hafter, hkernel, hitems⟩ := hfirst.same hstate
  obtain ⟨final, hfinal, hkernel', hitems'⟩ := hsecond.same hafter
  exact ⟨final, hfinal, hkernel'.trans hkernel, hitems'.trans hitems⟩

/-! ## Runs -/

theorem run_cons (rest : Form) :
    states.run number (s :: rest) =
      (states.target? number s).bind (states.run · rest) := by
  rw [run, target?]
  cases states[number]?.bind (·.transitions.get? s) <;> rfl

theorem run_snoc (symbols : Form) (s : Symbol) :
    states.run number (symbols ++ [s]) =
      (states.run number symbols).bind (states.target? · s) := by
  induction symbols generalizing number with
  | nil =>
      rw [List.nil_append, run_cons]
      simp [run]
  | cons t symbols ih =>
      rw [List.cons_append, run_cons, run_cons, Option.bind_assoc]
      exact Option.bind_congr fun target _ => ih

theorem Extends.run (hextends : Extends states later) {symbols : Form}
    {target : Nat} (hrun : states.run number symbols = some target) :
    later.run number symbols = some target := by
  induction symbols generalizing number with
  | nil => exact hrun
  | cons s symbols ih =>
      rw [run_cons, Option.bind_eq_some_iff] at hrun ⊢
      obtain ⟨next, hnext, hrest⟩ := hrun
      exact ⟨next, hextends.keeps hnext, ih hrest⟩

/-- Every state is the end of a run from state 0. -/
def Reachable (states : Automaton) : Prop :=
  ∀ number < states.length, ∃ symbols, states.run 0 symbols = some number

/-- The automaton has grown on, and no state has come in out of reach. -/
structure Grows (ps : List Production) (states later : Automaton) : Prop where
  grown : Grown ps later
  extension : Extends states later
  reachable : Reachable states → Reachable later

theorem Grows.refl (hgrown : Grown ps states) : Grows ps states states :=
  ⟨hgrown, .refl states, id⟩

theorem Grows.trans {last : Automaton} (hfirst : Grows ps states later)
    (hsecond : Grows ps later last) : Grows ps states last :=
  ⟨hsecond.grown, hfirst.extension.trans hsecond.extension,
    hsecond.reachable ∘ hfirst.reachable⟩

theorem Grown.number_eq (hgrown : Grown ps states) {m n : Nat}
    {first second : AutomatonState} (hfirst : states[m]? = some first)
    (hsecond : states[n]? = some second)
    (hkernel : first.kernel = second.kernel) : m = n := by
  obtain ⟨hm, _⟩ := List.getElem?_eq_some_iff.mp hfirst
  refine (List.getElem?_inj (by rw [List.length_map]; exact hm)
    hgrown.kernels_nodup).mp ?_
  rw [List.getElem?_map, List.getElem?_map, hfirst, hsecond, Option.map_some,
    Option.map_some, hkernel]

theorem Grown.length_le (hgrown : Grown ps states) :
    states.length ≤ Nat.pow 2 (allItems ps).length := by
  rw [Nat.pow_eq, ← List.length_sublists, ← List.length_map AutomatonState.kernel]
  apply hgrown.kernels_nodup.length_le_of_subset
  intro kernel hkernel
  obtain ⟨state, hstate, rfl⟩ := List.mem_map.mp hkernel
  obtain ⟨number, hnumber⟩ := List.mem_iff_getElem?.mp hstate
  exact List.mem_sublists.mpr (hgrown.isItemSet hnumber)

/-! ## New states -/

theorem Grown.append (hgrown : Grown ps states) (hset : IsItemSet ps kernel)
    (hnew : ∀ state ∈ states, state.kernel ≠ kernel) :
    Grown ps (states ++ [.ofKernel ps kernel]) := by
  have hcases : ∀ {number : Nat} {state : AutomatonState},
      (states ++ [AutomatonState.ofKernel ps kernel])[number]? = some state →
      states[number]? = some state ∨ state = .ofKernel ps kernel := by
    intro number state hstate
    rcases Nat.lt_or_ge number states.length with hlt | hge
    · rw [List.getElem?_append_left hlt] at hstate
      exact .inl hstate
    · rw [List.getElem?_append_right hge] at hstate
      exact .inr (List.mem_singleton.mp (List.mem_of_getElem? hstate))
  have hkeep : ∀ {number : Nat} {state : AutomatonState},
    states[number]? = some state →
      (states ++ [AutomatonState.ofKernel ps kernel])[number]? = some state := by
    intro number state hstate
    rw [List.getElem?_append_left (List.getElem?_eq_some_iff.mp hstate).1]
    exact hstate
  constructor
  · intro number state hstate
    rcases hcases hstate with hold | rfl
    · exact hgrown.isItemSet hold
    · exact hset
  · intro number state hstate
    rcases hcases hstate with hold | rfl
    · exact hgrown.items_eq hold
    · rfl
  · rw [List.map_append, List.nodup_append]
    refine ⟨hgrown.kernels_nodup, by simp, ?_⟩
    intro old hold new hnew'
    obtain ⟨state, hstate, rfl⟩ := List.mem_map.mp hold
    rw [List.map_singleton, List.mem_singleton] at hnew'
    rw [hnew']
    exact hnew state hstate
  · obtain ⟨state, hstate, hkernel⟩ := hgrown.first
    exact ⟨state, hkeep hstate, hkernel⟩
  · intro number state s target hstate htarget
    rcases hcases hstate with hold | rfl
    · obtain ⟨hs, next, hnext, hkernel⟩ := hgrown.leads hold htarget
      exact ⟨hs, next, hkeep hnext, hkernel⟩
    · simp [AutomatonState.ofKernel, OrderedMap.get?] at htarget

theorem extends_append (states more : Automaton) :
    Extends states (states ++ more) := by
  have hkeep : ∀ {number : Nat} {state : AutomatonState},
    states[number]? = some state →
      (states ++ more)[number]? = some state := by
    intro number state hstate
    rw [List.getElem?_append_left (List.getElem?_eq_some_iff.mp hstate).1]
    exact hstate
  refine ⟨fun hstate => ⟨_, hkeep hstate, rfl, rfl⟩, fun htarget => ?_⟩
  obtain ⟨state, hstate, hget⟩ := target?_eq_some_iff.mp htarget
  exact target?_eq_some_iff.mpr ⟨state, hkeep hstate, hget⟩

/-- The located state has the kernel, and is new at the end if none had it. -/
theorem Grown.locate (hgrown : Grown ps states) (hset : IsItemSet ps kernel) :
    let located := Automaton.locate ps states kernel
    Grown ps located.2 ∧ Extends states located.2 ∧
      ∃ next : AutomatonState,
        located.2[located.1]? = some next ∧ next.kernel = kernel := by
  unfold Automaton.locate
  cases hfind : List.findIdx?
      (fun state : AutomatonState => decide (state.kernel = kernel)) states with
  | some number =>
      obtain ⟨hlt, hkernel, _⟩ := List.findIdx?_eq_some_iff_getElem.mp hfind
      refine ⟨hgrown, .refl states, states[number], ?_, by simpa using hkernel⟩
      exact List.getElem?_eq_getElem hlt
  | none =>
      have hnew := List.findIdx?_eq_none_iff.mp hfind
      refine ⟨hgrown.append hset fun state hstate => ?_,
        extends_append states _, .ofKernel ps kernel, ?_, rfl⟩
      · simpa using hnew state hstate
      · simp

theorem lt_length_locate {other : Nat}
    (hlt : other < (Automaton.locate ps states kernel).2.length) :
    other < states.length ∨ other = (Automaton.locate ps states kernel).1 := by
  unfold Automaton.locate at hlt ⊢
  split at hlt
  next => exact .inl hlt
  next =>
    rw [List.length_append, List.length_singleton] at hlt
    exact Nat.lt_succ_iff_lt_or_eq.mp hlt

/-! ## New transitions -/

def withTransition (states : Automaton) (number : Nat) (s : Symbol)
    (target : Nat) : Automaton :=
  List.modify states number fun state =>
    { state with transitions := state.transitions.insert s target }

theorem getElem?_withTransition {target other : Nat} :
    (states.withTransition number s target)[other]? =
      states[other]?.map fun state =>
        if number = other then
          { state with transitions := state.transitions.insert s target }
        else state := by
  unfold withTransition
  rw [List.getElem?_modify]
  cases states[other]? <;> rfl

theorem exists_withTransition (number : Nat) (s : Symbol) (target : Nat)
    {other : Nat}
    (hstate : states[other]? = some state) :
    ∃ after : AutomatonState,
      (states.withTransition number s target)[other]? = some after ∧
      after.kernel = state.kernel ∧ after.items = state.items := by
  rw [getElem?_withTransition, hstate]
  refine ⟨_, rfl, ?_, ?_⟩
  · split <;> rfl
  · split <;> rfl

theorem exists_of_withTransition {target other : Nat} {after : AutomatonState}
    (hafter : (states.withTransition number s target)[other]? = some after) :
    ∃ state : AutomatonState, states[other]? = some state ∧
      after.kernel = state.kernel ∧ after.items = state.items ∧
      ∀ t, after.transitions.get? t =
        if number = other ∧ t = s then some target
        else state.transitions.get? t := by
  rw [getElem?_withTransition] at hafter
  obtain ⟨state, hstate, rfl⟩ := Option.map_eq_some_iff.mp hafter
  refine ⟨state, hstate, ?_, ?_, fun t => ?_⟩
  · split <;> rfl
  · split <;> rfl
  · by_cases hnumber : number = other
    · simp [hnumber, OrderedMap.get?_insert]
    · simp [hnumber]

theorem kernels_withTransition (target : Nat) :
    (states.withTransition number s target).map AutomatonState.kernel =
      states.map AutomatonState.kernel := by
  apply List.ext_getElem?
  intro other
  rw [List.getElem?_map, getElem?_withTransition, List.getElem?_map,
    Option.map_map]
  congr 1
  funext state
  simp only [Function.comp_apply]
  split <;> rfl

theorem Grown.withTransition (hgrown : Grown ps states) {target : Nat}
    {next : AutomatonState} (hstate : states[number]? = some state)
    (hs : s ∈ nextSymbols ps state.items) (hnext : states[target]? = some next)
    (hkernel : next.kernel = gotoKernel ps state.items s) :
    Grown ps (states.withTransition number s target) := by
  constructor
  · intro other after hafter
    obtain ⟨old, hold, hsame, _⟩ := exists_of_withTransition hafter
    rw [hsame]
    exact hgrown.isItemSet hold
  · intro other after hafter
    obtain ⟨old, hold, hsame, hitems, _⟩ := exists_of_withTransition hafter
    rw [hsame, hitems]
    exact hgrown.items_eq hold
  · rw [kernels_withTransition]
    exact hgrown.kernels_nodup
  · obtain ⟨old, hold, hfirst⟩ := hgrown.first
    obtain ⟨after, hafter, hsame, _⟩ := exists_withTransition _ _ _ hold
    exact ⟨after, hafter, hsame.trans hfirst⟩
  · intro other after t last hafter hget
    obtain ⟨old, hold, _, hitems, htransitions⟩ :=
      exists_of_withTransition hafter
    rw [htransitions] at hget
    rw [hitems]
    split at hget
    next heq =>
      obtain ⟨rfl, rfl⟩ := heq
      rw [hstate, Option.some.injEq] at hold
      subst hold
      cases hget
      obtain ⟨reached, hreached, hsame, _⟩ := exists_withTransition _ _ _ hnext
      exact ⟨hs, reached, hreached, hsame.trans hkernel⟩
    next =>
      obtain ⟨ht, old', hold', hkernel'⟩ := hgrown.leads hold hget
      obtain ⟨reached, hreached, hsame, _⟩ := exists_withTransition _ _ _ hold'
      exact ⟨ht, reached, hreached, hsame.trans hkernel'⟩

/-- A transition that was there before led to the same state. -/
theorem Grown.extends_withTransition (hgrown : Grown ps states) {target : Nat}
    {next : AutomatonState} (hstate : states[number]? = some state)
    (hnext : states[target]? = some next)
    (hkernel : next.kernel = gotoKernel ps state.items s) :
    Extends states (states.withTransition number s target) := by
  refine ⟨exists_withTransition number s target, ?_⟩
  intro other t last hlast
  obtain ⟨old, hold, hget⟩ := target?_eq_some_iff.mp hlast
  obtain ⟨after, hafter, -⟩ :=
    exists_withTransition number s target hold
  refine target?_eq_some_iff.mpr ⟨after, hafter, ?_⟩
  obtain ⟨old', hold', -, -, htransitions⟩ := exists_of_withTransition hafter
  rw [hold, Option.some.injEq] at hold'
  subst hold'
  rw [htransitions]
  split
  next heq =>
    obtain ⟨rfl, rfl⟩ := heq
    rw [hstate, Option.some.injEq] at hold
    subst hold
    obtain ⟨_, reached, hreached, hsame⟩ := hgrown.leads hstate hget
    rw [hgrown.number_eq hnext hreached (hkernel.trans hsame.symm)]
  next => exact hget

theorem target?_withTransition (hstate : states[number]? = some state)
    (target : Nat) :
    (states.withTransition number s target).target? number s = some target := by
  rw [target?, getElem?_withTransition, hstate]
  simp [OrderedMap.get?_insert]

theorem Grown.connect (hgrown : Grown ps states)
    (hstate : states[number]? = some state)
    (hs : s ∈ nextSymbols ps state.items) :
    let later := Automaton.connect ps number state.items states s
    Grows ps states later ∧ (later.target? number s).isSome = true := by
  have hset : IsItemSet ps (gotoKernel ps state.items s) := by
    rw [hgrown.items_eq hstate]
    exact (hgrown.isItemSet hstate).gains_closure.isItemSet.gotoKernel s
  obtain ⟨hlocated, hextends, next, hnext, hkernel⟩ := hgrown.locate hset
  obtain ⟨same, hsame, -, hitems⟩ := hextends.same hstate
  rw [← hitems] at hs hkernel
  have hconnect : Automaton.connect ps number state.items states s =
      (Automaton.locate ps states (gotoKernel ps state.items s)).2.withTransition
        number s (Automaton.locate ps states (gotoKernel ps state.items s)).1 := rfl
  have htarget := target?_withTransition (s := s) hsame
    (Automaton.locate ps states (gotoKernel ps state.items s)).1
  have hextension := hextends.trans
    (hlocated.extends_withTransition hsame hnext (by rw [hkernel]))
  simp only [hconnect]
  refine ⟨⟨hlocated.withTransition hsame hs hnext (by rw [hkernel]),
    hextension, fun hreachable other hlt => ?_⟩, by rw [htarget]; rfl⟩
  rw [Automaton.withTransition, List.length_modify] at hlt
  rcases lt_length_locate hlt with hold | rfl
  · obtain ⟨symbols, hrun⟩ := hreachable other hold
    exact ⟨symbols, hextension.run hrun⟩
  · -- The new state is where the symbol leads to from the state at hand.
    obtain ⟨symbols, hrun⟩ :=
      hreachable number (List.getElem?_eq_some_iff.mp hstate).1
    refine ⟨symbols ++ [s], ?_⟩
    rw [run_snoc, hextension.run hrun]
    exact htarget

theorem Grown.connectAll (hgrown : Grown ps states)
    (hstate : states[number]? = some state) {symbols : List Symbol}
    (hsymbols : ∀ s ∈ symbols, s ∈ nextSymbols ps state.items) :
    let later := symbols.foldl (Automaton.connect ps number state.items) states
    Grows ps states later ∧
      ∀ s ∈ symbols, (later.target? number s).isSome = true := by
  induction symbols generalizing states state with
  | nil => exact ⟨.refl hgrown, by simp⟩
  | cons s symbols ih =>
      obtain ⟨hgrows, hdone⟩ :=
        hgrown.connect hstate (hsymbols s List.mem_cons_self)
      obtain ⟨same, hsame, -, hitems⟩ := hgrows.extension.same hstate
      rw [← hitems] at hsymbols ⊢ hgrows hsame hdone
      obtain ⟨hrest, hall⟩ := ih hgrows.grown hsame
        fun t ht => hsymbols t (List.mem_cons_of_mem s ht)
      refine ⟨hgrows.trans hrest, fun t ht => ?_⟩
      rcases List.mem_cons.mp ht with rfl | ht
      · obtain ⟨target, htarget⟩ := Option.isSome_iff_exists.mp hdone
        rw [List.foldl_cons, hrest.extension.keeps htarget]
        rfl
      · exact hall t ht

/-! ## Exploration -/

/-- The states below a number have a transition on each symbol behind a dot. -/
def CompleteBelow (ps : List Production) (states : Automaton)
    (bound : Nat) : Prop :=
  ∀ (number : Nat) (state : AutomatonState) (s : Symbol), number < bound →
    states[number]? = some state → s ∈ nextSymbols ps state.items →
    (states.target? number s).isSome = true

theorem CompleteBelow.extends {bound : Nat}
    (hcomplete : CompleteBelow ps states bound)
    (hbound : bound ≤ states.length) (hextends : Extends states later) :
    CompleteBelow ps later bound := by
  intro number after s hlt hafter hs
  have hstate := List.getElem?_eq_getElem (Nat.lt_of_lt_of_le hlt hbound)
  obtain ⟨same, hsame, -, hitems⟩ := hextends.same hstate
  rw [hafter, Option.some.injEq] at hsame
  subst hsame
  rw [hitems] at hs
  obtain ⟨target, htarget⟩ :=
    Option.isSome_iff_exists.mp (hcomplete _ _ _ hlt hstate hs)
  rw [hextends.keeps htarget]
  rfl

/-- The states below a number have been explored. -/
structure Explored (ps : List Production) (number : Nat)
    (states : Automaton) : Prop where
  grown : Grown ps states
  complete : CompleteBelow ps states number
  le_length : number ≤ states.length
  reachable : Reachable states

/-- One round of the exploration; nothing is left to do when all states have
been explored. -/
def round (ps : List Production) : Nat × Automaton → Nat × Automaton
  | (number, states) =>
    match states[number]? with
    | none => (number, states)
    | some state =>
      (number + 1,
        (nextSymbols ps state.items).foldl
          (Automaton.connect ps number state.items) states)

theorem round_of_none (hnone : states[number]? = none) :
    round ps (number, states) = (number, states) := by
  simp [round, hnone]

theorem round_of_some (hstate : states[number]? = some state) :
    round ps (number, states) = (number + 1,
      (nextSymbols ps state.items).foldl
        (Automaton.connect ps number state.items) states) := by
  simp [round, hstate]

/-- The bound on the rounds only stops them. -/
theorem explore_eq_stepTimes (fuel number : Nat) (states : Automaton) :
    explore ps fuel number states =
      (stepTimes (round ps) fuel (number, states)).2 := by
  induction fuel generalizing number states with
  | zero => rfl
  | succ fuel ih =>
      rw [explore]
      cases hstate : states[number]? with
      | none => rw [stepTimes_of_fixed (round_of_none hstate)]
      | some state => rw [stepTimes, round_of_some hstate, ← ih]

theorem Explored.next (hexplored : Explored ps number states)
    (hstate : states[number]? = some state) :
    Explored ps (number + 1) ((nextSymbols ps state.items).foldl
      (Automaton.connect ps number state.items) states) := by
  obtain ⟨hgrows, hall⟩ := hexplored.grown.connectAll hstate fun s hs => hs
  obtain ⟨same, hsame, -, hitems⟩ := hgrows.extension.same hstate
  refine ⟨hgrows.grown, ?_, (List.getElem?_eq_some_iff.mp hsame).1,
    hgrows.reachable hexplored.reachable⟩
  have hbelow := hexplored.complete.extends hexplored.le_length hgrows.extension
  intro other after s hother hafter hs
  rcases Nat.lt_succ_iff_lt_or_eq.mp hother with hless | rfl
  · exact hbelow other after s hless hafter hs
  · rw [hafter, Option.some.injEq] at hsame
    subst hsame
    rw [hitems] at hs
    exact hall s hs

/-- There are no more states than rounds, so the exploration comes to the end of
the list. -/
theorem Explored.ends (hexplored : Explored ps number states) {fuel : Nat}
    (hfuel : Nat.pow 2 (allItems ps).length ≤ number + fuel) :
    ∃ last : Automaton, Explored ps last.length last ∧
      stepTimes (round ps) fuel (number, states) = (last.length, last) := by
  induction fuel generalizing number states with
  | zero =>
      have hlength := hexplored.grown.length_le
      have heq : number = states.length :=
        Nat.le_antisymm hexplored.le_length (Nat.le_trans hlength hfuel)
      subst heq
      exact ⟨states, hexplored, rfl⟩
  | succ fuel ih =>
      cases hstate : states[number]? with
      | none =>
          have heq : number = states.length := Nat.le_antisymm
            hexplored.le_length (List.getElem?_eq_none_iff.mp hstate)
          subst heq
          exact ⟨states, hexplored, stepTimes_of_fixed (round_of_none hstate) _⟩
      | some state =>
          rw [stepTimes, round_of_some hstate]
          exact ih (hexplored.next hstate) (by omega)

theorem grown_initial (hps : ps ≠ []) :
    Grown ps [.ofKernel ps [⟨0, 0⟩]] := by
  have hsingle : ∀ {number : Nat} {state : AutomatonState},
      ([.ofKernel ps [⟨0, 0⟩]] : Automaton)[number]? = some state →
      state = .ofKernel ps [⟨0, 0⟩] :=
    fun hstate => List.mem_singleton.mp (List.mem_of_getElem? hstate)
  constructor
  · intro number state hstate
    rw [hsingle hstate]
    obtain ⟨p, rest, rfl⟩ := List.exists_cons_of_ne_nil hps
    refine List.singleton_sublist.mpr (mem_allItems.mpr ⟨p, rfl, Nat.zero_le _⟩)
  · intro number state hstate
    rw [hsingle hstate]
    rfl
  · simp
  · exact ⟨_, rfl, rfl⟩
  · intro number target state s hstate htarget
    rw [hsingle hstate] at htarget
    simp [AutomatonState.ofKernel, OrderedMap.get?] at htarget

theorem explored_initial (hps : ps ≠ []) :
    Explored ps 0 [.ofKernel ps [⟨0, 0⟩]] := by
  refine ⟨grown_initial hps, fun _ _ _ hlt => absurd hlt (Nat.not_lt_zero _),
    Nat.zero_le _, fun number hlt => ⟨[], ?_⟩⟩
  rw [Nat.lt_one_iff.mp hlt]
  rfl

theorem explored_ofProductions (hps : ps ≠ []) :
    Explored ps (ofProductions ps).length (ofProductions ps) ∧
      ∃ count, stepTimes (round ps) count (0, [.ofKernel ps [⟨0, 0⟩]]) =
        ((ofProductions ps).length, ofProductions ps) := by
  obtain ⟨last, hlast, hrounds⟩ :=
    (explored_initial hps).ends (Nat.le_add_left _ _)
  have heq : ofProductions ps = last := by
    rw [ofProductions, explore_eq_stepTimes, hrounds]
  rw [heq]
  exact ⟨hlast, _, hrounds⟩

end FormalGrammars.Automaton
