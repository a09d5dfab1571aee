import FormalGrammars.Proofs.ShiftReduce.Path
import FormalGrammars.Proofs.ShiftReduce.Table

/-!
# Stacks that can be continued

The symbols along a path from state 0 are the front part of a form that the
start yields, and each item of the state at the end says how such a form may go
on: with what stands behind the dot.  Moving the dot keeps this, and so does
bringing in the productions of a variable behind the dot, because the variable
may be expanded where it stands.
-/

namespace FormalGrammars.Automaton

variable {g : Grammar} {start : Symbol} {table : SlrTable} {number : Nat}
  {symbols : Form} {state : AutomatonState} {item : Item} {s : Symbol}

/-- The start yields the symbols followed by what the item expects. -/
def Continues (g : Grammar) (start : Symbol) (ps : List Production)
    (symbols : Form) (item : Item) : Prop :=
  ∃ (p : Production) (behind : Form), ps[item.production]? = some p ∧
    g.Yields [start] (symbols ++ p.rhs.drop item.dot ++ behind)

theorem Continues.exists_next {ps : List Production}
    (hitem : Continues g start ps symbols item)
    (hnext : item.next? ps = some s) :
    ∃ (p : Production) (behind : Form), ps[item.production]? = some p ∧
      s ∈ p.rhs ∧ g.Yields [start]
        (symbols ++ s :: (p.rhs.drop item.advance.dot ++ behind)) := by
  rcases hitem with ⟨p, behind, hp, hyields⟩
  rcases next?_eq_some_iff.mp hnext with ⟨q, hq, hdot⟩
  have hsame : p = q := Option.some.inj (hp.symm.trans hq)
  subst hsame
  refine ⟨p, behind, hp, List.mem_of_getElem? hdot, ?_⟩
  rw [List.drop_eq_getElem?_toList_append, hdot] at hyields
  simpa [Item.advance] using hyields

theorem Continues.advance {ps : List Production}
    (hitem : Continues g start ps symbols item)
    (hnext : item.next? ps = some s) :
    Continues g start ps (symbols ++ [s]) item.advance := by
  obtain ⟨p, behind, hp, _, hyields⟩ := hitem.exists_next hnext
  exact ⟨p, behind, hp, by simpa using hyields⟩

/-- The variable behind the dot is expanded where it stands. -/
theorem Continues.bring (hg : g.Consistent) (htable : table.Describes g start)
    {other : Item}
    (hitem : Continues g start table.productions symbols item)
    (hnext : item.next? table.productions = some s) (hdot : other.dot = 0)
    (hhead : other.head? table.productions = some s) :
    Continues g start table.productions symbols other := by
  obtain ⟨p, behind, hp, hs, hyields⟩ := hitem.exists_next hnext
  obtain ⟨q, hq, hsole⟩ := Item.head?_eq_some_iff.mp hhead
  have hne : other.production ≠ 0 := by
    intro hzero
    rw [hzero, htable.production_zero, Option.some.injEq] at hq
    rw [← hq, Production.head?_rule SlrTable.augmentedStart_isVar,
      Option.some.injEq] at hsole
    rw [← hsole] at hs
    exact htable.augmentedStart_not_mem_rhs hg hp hs
  have hexpand := Grammar.Yields.of_production (htable.mem_productions hq hne) hsole
  have hinside := (Grammar.Yields.refl (g := g) symbols).append
    (hexpand.append (.refl (p.rhs.drop item.advance.dot ++ behind)))
  refine ⟨q, p.rhs.drop item.advance.dot ++ behind, hq, ?_⟩
  rw [hdot, List.drop_zero, List.append_assoc]
  exact hyields.trans hinside

theorem continues_of_kernel (hg : g.Consistent)
    (htable : table.Describes g start)
    (hstate : table.states[number]? = some state)
    (hkernel : ∀ item ∈ state.kernel,
      Continues g start table.productions symbols item) :
    ∀ item ∈ state.items,
      Continues g start table.productions symbols item := by
  rw [htable.grown.items_eq hstate]
  apply closure_induct hkernel
  intro item other s hitem hnext hdot hhead
  exact hitem.bring hg htable hnext hdot hhead

theorem Path.continues (hg : g.Consistent) (htable : table.Describes g start)
    {states : List Nat} (hpath : Path table.states states symbols) :
    ∀ number state, states.head? = some number →
      table.states[number]? = some state → ∀ item ∈ state.items,
      Continues g start table.productions symbols.reverse item := by
  induction hpath with
  | base =>
      intro number state hnumber hstate
      cases hnumber
      apply continues_of_kernel hg htable hstate
      obtain ⟨first, hfirst, hsingle⟩ := htable.grown.first
      rw [hstate, Option.some.injEq] at hfirst
      rw [hfirst, hsingle]
      intro item hitem
      rw [List.mem_singleton.mp hitem]
      exact ⟨_, [], htable.production_zero, .refl [start]⟩
  | @push source target below symbols s _ htarget ih =>
      intro number state hnumber hstate
      cases hnumber
      apply continues_of_kernel hg htable hstate
      intro item hitem
      obtain ⟨previous, before, hprevious, hbefore, hnext, rfl⟩ :=
        htable.grown.exists_before htarget hstate hitem
      rw [List.reverse_cons]
      exact (ih source previous rfl hprevious before hbefore).advance hnext

/-- Every state that a path comes to has an item. -/
theorem Path.exists_item (htable : table.Describes g start)
    {states : List Nat} (hpath : Path table.states states symbols) :
    ∃ (number : Nat) (state : AutomatonState), states.head? = some number ∧
      table.states[number]? = some state ∧ ∃ item, item ∈ state.items := by
  cases hpath with
  | base =>
      obtain ⟨state, hstate, hitem⟩ := htable.grown.mem_items_zero
      exact ⟨0, state, rfl, hstate, _, hitem⟩
  | @push source target below symbols s _ htarget =>
      obtain ⟨state, hstate, hitem⟩ :=
        htable.grown.exists_item_of_target htarget
      exact ⟨target, state, rfl, hstate, hitem⟩

/-- The symbols along a path are the front part of a form that the start
yields. -/
theorem Path.exists_continuation (hg : g.Consistent)
    (htable : table.Describes g start) {states : List Nat}
    (hpath : Path table.states states symbols) :
    ∃ behind, g.Yields [start] (symbols.reverse ++ behind) := by
  obtain ⟨number, state, hnumber, hstate, item, hitem⟩ :=
    hpath.exists_item htable
  obtain ⟨p, behind, _, hyields⟩ :=
    hpath.continues hg htable number state hnumber hstate item hitem
  rw [List.append_assoc] at hyields
  exact ⟨_, hyields⟩

end FormalGrammars.Automaton
