import FormalGrammars.Proofs.ShiftReduce.Automaton

/-!
# Paths through the automaton

The stacks of a shift-reduce parser are a path from state 0.  An item of the
top state says what the top symbols are: they spell the part of its production
in front of the dot, and the state below them has the item with the dot in
front.
-/

namespace FormalGrammars.Automaton

variable {ps : List Production} {states : Automaton} {number : Nat}
  {state : AutomatonState} {item : Item} {s : Symbol}

/-- The states from 0 along the symbols; the top comes first. -/
inductive Path (states : Automaton) : List Nat → Form → Prop where
  | base : Path states [0] []
  | push {number target : Nat} {below : List Nat} {symbols : Form}
      {s : Symbol} (hbelow : Path states (number :: below) symbols)
      (htarget : states.target? number s = some target) :
      Path states (target :: number :: below) (s :: symbols)

/-! ## Items of a state -/

theorem Grown.mem_items_of_mem_kernel (hgrown : Grown ps states)
    (hstate : states[number]? = some state) (hitem : item ∈ state.kernel) :
    item ∈ state.items := by
  rw [hgrown.items_eq hstate]
  exact (hgrown.isItemSet hstate).gains_closure.kernel_subset item hitem

theorem Grown.mem_kernel_or (hgrown : Grown ps states)
    (hstate : states[number]? = some state) (hitem : item ∈ state.items) :
    item ∈ state.kernel ∨ (item.dot = 0 ∧
      ∃ s ∈ nextSymbols ps state.items, item.head? ps = some s) := by
  rw [hgrown.items_eq hstate] at hitem ⊢
  exact (hgrown.isItemSet hstate).gains_closure.from_kernel_or item hitem

theorem Grown.mem_allItems (hgrown : Grown ps states)
    (hstate : states[number]? = some state) (hitem : item ∈ state.items) :
    item ∈ allItems ps := by
  rw [hgrown.items_eq hstate] at hitem
  exact (hgrown.isItemSet hstate).gains_closure.isItemSet.mem_all hitem

theorem Grown.mem_items_of_head? (hgrown : Grown ps states)
    (hstate : states[number]? = some state) (hitem : item ∈ state.items)
    (hnext : item.next? ps = some s) {other : Nat} {p : Production}
    (hp : ps[other]? = some p) (hhead : p.head? = some s) :
    ⟨other, 0⟩ ∈ state.items := by
  have hs : s ∈ nextSymbols ps state.items :=
    mem_nextSymbols.mpr ⟨item, hitem, hnext⟩
  rw [hgrown.items_eq hstate] at hs ⊢
  exact (hgrown.isItemSet hstate).closure_closed hs hp hhead

theorem Grown.mem_items_zero (hgrown : Grown ps states) :
    ∃ state : AutomatonState, states[0]? = some state ∧
      ⟨0, 0⟩ ∈ state.items := by
  obtain ⟨state, hstate, hkernel⟩ := hgrown.first
  refine ⟨state, hstate, hgrown.mem_items_of_mem_kernel hstate ?_⟩
  rw [hkernel]
  exact List.mem_singleton_self _

theorem CompleteBelow.exists_target
    (hcomplete : CompleteBelow ps states states.length)
    (hstate : states[number]? = some state)
    (hs : s ∈ nextSymbols ps state.items) :
    ∃ target, states.target? number s = some target :=
  Option.isSome_iff_exists.mp
    (hcomplete number state s (List.getElem?_eq_some_iff.mp hstate).1 hstate hs)

/-- There is a transition on the symbol behind a dot, and it moves the dot. -/
theorem Grown.advance (hgrown : Grown ps states)
    (hcomplete : CompleteBelow ps states states.length)
    (hstate : states[number]? = some state) (hitem : item ∈ state.items)
    (hnext : item.next? ps = some s) :
    ∃ (target : Nat) (next : AutomatonState),
      states.target? number s = some target ∧
      states[target]? = some next ∧ item.advance ∈ next.items := by
  obtain ⟨target, htarget⟩ :=
    hcomplete.exists_target hstate (mem_nextSymbols.mpr ⟨item, hitem, hnext⟩)
  obtain ⟨_, next, hreached, hkernel⟩ := hgrown.leads_target? hstate htarget
  refine ⟨target, next, htarget, hreached,
    hgrown.mem_items_of_mem_kernel hreached ?_⟩
  rw [hkernel]
  exact mem_gotoKernel.mpr ⟨item, hitem, hnext, rfl⟩

/-- A dot that is not in front was moved by the last transition. -/
theorem Grown.exists_before (hgrown : Grown ps states) {target : Nat}
    (htarget : states.target? number s = some target)
    (hstate : states[target]? = some state)
    (hkernel : item ∈ state.kernel) :
    ∃ (source : AutomatonState) (before : Item),
      states[number]? = some source ∧ before ∈ source.items ∧
      before.next? ps = some s ∧ before.advance = item := by
  obtain ⟨source, hsource, hget⟩ := target?_eq_some_iff.mp htarget
  obtain ⟨_, next, hnext, hgoto⟩ := hgrown.leads hsource hget
  rw [hstate, Option.some.injEq] at hnext
  subst hnext
  rw [hgoto] at hkernel
  obtain ⟨before, hbefore, hs, hadvance⟩ := mem_gotoKernel.mp hkernel
  exact ⟨source, before, hsource, hbefore, hs, hadvance⟩

/-- A state that a transition leads to is not empty. -/
theorem Grown.exists_item_of_target (hgrown : Grown ps states) {target : Nat}
    (htarget : states.target? number s = some target) :
    ∃ state : AutomatonState, states[target]? = some state ∧
      ∃ item, item ∈ state.items := by
  obtain ⟨source, hsource, hget⟩ := target?_eq_some_iff.mp htarget
  obtain ⟨hs, next, hnext, hgoto⟩ := hgrown.leads hsource hget
  obtain ⟨before, hbefore, hdot⟩ := mem_nextSymbols.mp hs
  refine ⟨next, hnext, before.advance, hgrown.mem_items_of_mem_kernel hnext ?_⟩
  rw [hgoto]
  exact mem_gotoKernel.mpr ⟨before, hbefore, hdot, rfl⟩

/-! ## Spelling -/

theorem Path.spelled (hgrown : Grown ps states) {below : List Nat}
    {symbols : Form} (hpath : Path states (number :: below) symbols)
    (hstate : states[number]? = some state) (hitem : item ∈ state.items)
    {p : Production} (hp : ps[item.production]? = some p) :
    ∃ (exposed : Nat) (under : List Nat) (rest : Form)
      (source : AutomatonState),
      (number :: below).drop item.dot = exposed :: under ∧
      symbols = (p.rhs.take item.dot).reverse ++ rest ∧
      Path states (exposed :: under) rest ∧
      states[exposed]? = some source ∧
      ⟨item.production, 0⟩ ∈ source.items := by
  induction hdot : item.dot generalizing number below symbols state item with
  | zero =>
      refine ⟨number, below, symbols, state, rfl, rfl, hpath, hstate, ?_⟩
      rwa [← hdot]
  | succ dot ih =>
      have hkernel : item ∈ state.kernel := by
        rcases hgrown.mem_kernel_or hstate hitem with hkernel | ⟨hzero, _⟩
        · exact hkernel
        · omega
      cases hpath with
      | base =>
          obtain ⟨first, hfirst, hsingle⟩ := hgrown.first
          rw [hstate, Option.some.injEq] at hfirst
          rw [hfirst, hsingle, List.mem_singleton] at hkernel
          rw [hkernel] at hdot
          simp at hdot
      | @push previous _ below symbols s hbelow htarget =>
          obtain ⟨source, before, hsource, hbefore, hnext, rfl⟩ :=
            hgrown.exists_before htarget hstate hkernel
          have hbeforeDot : before.dot = dot := by
            simpa [Item.advance] using hdot
          obtain ⟨exposed, under, rest, bottom, hdrop, rfl, hrest⟩ :=
            ih hbelow hsource hbefore hp hbeforeDot
          refine ⟨exposed, under, rest, bottom, ?_, ?_, hrest⟩
          · rw [List.drop_succ_cons]
            exact hdrop
          · obtain ⟨q, hq, hs⟩ := next?_eq_some_iff.mp hnext
            have hsame : p = q := Option.some.inj (hp.symm.trans hq)
            subst hsame
            rw [hbeforeDot] at hs
            rw [List.take_add_one, hs]
            simp

/-- An item with the dot in front is the first item of state 0, or its head
stands behind a dot. -/
theorem Path.base_or_head (hgrown : Grown ps states) {below : List Nat}
    {symbols : Form} (hpath : Path states (number :: below) symbols)
    (hstate : states[number]? = some state) {front : Nat}
    (hitem : ⟨front, 0⟩ ∈ state.items) :
    (front = 0 ∧ symbols = []) ∨
      ∃ s ∈ nextSymbols ps state.items,
        Item.head? ps ⟨front, 0⟩ = some s := by
  rcases hgrown.mem_kernel_or hstate hitem with hkernel | ⟨_, hhead⟩
  · left
    cases hpath with
    | base =>
        obtain ⟨first, hfirst, hsingle⟩ := hgrown.first
        rw [hstate, Option.some.injEq] at hfirst
        rw [hfirst, hsingle, List.mem_singleton] at hkernel
        exact ⟨(Item.mk.inj hkernel).1, rfl⟩
    | push hbelow htarget =>
        obtain ⟨_, before, _, _, _, hadvance⟩ :=
          hgrown.exists_before htarget hstate hkernel
        simp [Item.advance] at hadvance
  · exact .inr hhead

end FormalGrammars.Automaton
