import FormalGrammars.Elimination.Nullability
import FormalGrammars.Proofs.FixedPoint
import FormalGrammars.Proofs.Yield

/-!
# Nullable variables derive the empty string

The witnesses are founded: each of them was recorded when all the symbols on
its right side had been recorded before.  So every nullable variable has a
tree with an empty frontier.  In the other direction the passes end in a set
that is closed under the productions, and a closed set holds every symbol of a
form that yields the empty string.
-/

namespace FormalGrammars

variable {g : Grammar}

namespace Nullability

/-- Every witness, the latest first, rests on earlier ones. -/
def Founded (g : Grammar) : List (Symbol × Production) → Prop
  | [] => True
  | (s, p) :: earlier =>
    p ∈ g.productions ∧ p.head? = some s ∧
      (∀ t ∈ p.rhs, t ∈ earlier.map Prod.fst) ∧ Founded g earlier

def WellFounded (g : Grammar) (n : Nullability) : Prop :=
  Founded g n.witnesses.entries.reverse

theorem contains_iff {n : Nullability} {s : Symbol} :
    n.contains s = true ↔ s ∈ n.witnesses.entries.map Prod.fst :=
  OrderedMap.contains_iff_mem_keys

theorem derivesLambda_iff {n : Nullability} {form : Form} :
    n.derivesLambda form = true ↔ ∀ s ∈ form, n.contains s = true := by
  simp [derivesLambda]

theorem contains_insertIfNew {n : Nullability} {head s : Symbol}
    {p : Production} :
    Nullability.contains ⟨n.witnesses.insertIfNew head p⟩ s = true ↔
      n.contains s = true ∨ s = head := by
  unfold contains
  rw [OrderedMap.contains_iff_mem_keys, OrderedMap.keys_insertIfNew,
    mem_insertNew, OrderedMap.contains_iff_mem_keys]

theorem contains_absorb {n : Nullability} {p : Production} {s : Symbol}
    (hs : n.contains s = true) : (n.absorb p).contains s = true := by
  unfold absorb
  split
  next => exact hs
  next =>
    split
    next => exact contains_insertIfNew.mpr (.inl hs)
    next => exact hs

theorem WellFounded.absorb {n : Nullability} (hn : n.WellFounded g)
    {p : Production} (hmem : p ∈ g.productions) :
    (n.absorb p).WellFounded g := by
  unfold Nullability.absorb
  split
  next => exact hn
  next head hhead =>
    split
    next hlambda =>
      unfold OrderedMap.insertIfNew
      split
      next => exact hn
      next =>
        simp only [WellFounded, List.reverse_append, List.reverse_cons,
          List.reverse_nil, List.nil_append, List.singleton_append]
        refine ⟨hmem, hhead, ?_, hn⟩
        intro t ht
        rw [List.map_reverse, List.mem_reverse]
        exact contains_iff.mp (derivesLambda_iff.mp hlambda t ht)
    next => exact hn

theorem absorb_ne_self {n : Nullability} {p : Production}
    (hne : n.absorb p ≠ n) :
    ∃ head, p.head? = some head ∧ n.contains head = false ∧
      (n.absorb p).contains head = true := by
  unfold absorb at hne
  split at hne
  next => exact absurd rfl hne
  next head hhead =>
    split at hne
    next hlambda =>
      refine ⟨head, hhead, ?_, ?_⟩
      · cases hcontains : n.contains head with
        | false => rfl
        | true =>
            apply absurd _ hne
            unfold OrderedMap.insertIfNew
            exact congrArg Nullability.mk (if_pos hcontains)
      · simp only [absorb, hhead, hlambda, if_true]
        exact contains_insertIfNew.mpr (.inr rfl)
    next => exact absurd rfl hne

theorem descends_absorb :
    Descends absorb g.productions (WellFounded g) fun n =>
      (missing (g.productions.filterMap Production.head?) n.contains).length where
  keeps n hn p hmem := hn.absorb hmem
  lowers n _ p hmem hne := by
    obtain ⟨head, hhead, hold, hnew⟩ := absorb_ne_self hne
    exact missing_length_lt _ (fun _ => contains_absorb)
      (List.mem_filterMap.mpr ⟨p, hmem, hhead⟩) hold hnew

/-- No production has a right side of nullable symbols and another head. -/
def Closed (g : Grammar) (n : Nullability) : Prop :=
  ∀ p ∈ g.productions, ∀ s, p.head? = some s →
    n.derivesLambda p.rhs = true → n.contains s = true

theorem closed_of_fixed {n : Nullability}
    (hfixed : ∀ p ∈ g.productions, n.absorb p = n) : n.Closed g := by
  intro p hmem s hhead hlambda
  rw [← hfixed p hmem]
  simp only [absorb, hhead, hlambda, if_true]
  exact contains_insertIfNew.mpr (.inr rfl)

theorem wellFounded_and_closed (g : Grammar) :
    g.nullability.WellFounded g ∧ g.nullability.Closed g := by
  have hseed : WellFounded g
      ((g.productions.filter Production.isLambda).foldl absorb ⟨⟨[]⟩⟩) := by
    apply List.foldlRecOn (motive := WellFounded g)
    · exact trivial
    · intro n hn p hp
      exact hn.absorb (List.mem_filter.mp hp).1
  have hrounds : (missing (g.productions.filterMap Production.head?)
      ((g.productions.filter Production.isLambda).foldl absorb
        ⟨⟨[]⟩⟩).contains).length ≤ g.productions.length :=
    Nat.le_trans (List.length_filter_le _ _) (List.length_filterMap_le _ _)
  have hlast := descends_absorb.iterate hseed hrounds
  exact ⟨hlast.1, closed_of_fixed hlast.2⟩

/-! ## Completeness -/

theorem Closed.contains_of_yields {n : Nullability} (hn : n.Closed g)
    {form result : Form} (hyields : g.Yields form result)
    (hresult : result = []) : ∀ s ∈ form, n.contains s = true := by
  induction hyields with
  | nil => simp
  | keep s _ _ => simp at hresult
  | expand p hmem hhead _ _ ihrhs ihrest =>
      obtain ⟨hleft, hright⟩ := List.append_eq_nil_iff.mp hresult
      intro t ht
      rcases List.mem_cons.mp ht with rfl | ht
      · exact hn p hmem t hhead (derivesLambda_iff.mpr (ihrhs hleft))
      · exact ihrest hright t ht

/-! ## Trees of the empty string -/

structure IsEmptyTree (g : Grammar) (s : Symbol) (tree : Tree) : Prop where
  valid : tree.ValidFor g
  root_eq : tree.root = s
  frontier_eq : tree.frontier = []

theorem exists_emptyForest {entries : List (Symbol × Production)}
    {form : Form}
    (hform : ∀ s ∈ form, ∃ tree, emptyTreeFrom entries s = some tree ∧
      IsEmptyTree g s tree) :
    ∃ trees, form.mapM (emptyTreeFrom entries) = some trees ∧
      Tree.AllValidFor g trees ∧ trees.map Tree.root = form ∧
      Tree.frontierOfAll trees = [] := by
  induction form with
  | nil => exact ⟨[], rfl, trivial, rfl, rfl⟩
  | cons s form ih =>
      obtain ⟨tree, htree, hempty⟩ := hform s List.mem_cons_self
      obtain ⟨trees, htrees, hvalid, hroots, hfrontier⟩ :=
        ih fun t ht => hform t (List.mem_cons_of_mem s ht)
      refine ⟨tree :: trees, ?_, ⟨hempty.valid, hvalid⟩, ?_, ?_⟩
      · simp [List.mapM_cons, htree, htrees]
      · simp [hempty.root_eq, hroots]
      · simp [Tree.frontierOfAll, hempty.frontier_eq, hfrontier]

theorem Founded.exists_emptyTree {entries : List (Symbol × Production)}
    (hfounded : Founded g entries) {s : Symbol}
    (hs : s ∈ entries.map Prod.fst) :
    ∃ tree, emptyTreeFrom entries s = some tree ∧ IsEmptyTree g s tree := by
  induction entries generalizing s with
  | nil => simp at hs
  | cons entry earlier ih =>
      obtain ⟨head, p⟩ := entry
      obtain ⟨hmem, hhead, hrhs, hearlier⟩ := hfounded
      by_cases heq : head = s
      · subst heq
        obtain ⟨trees, htrees, hvalid, hroots, hfrontier⟩ :=
          exists_emptyForest fun t ht => ih hearlier (hrhs t ht)
        refine ⟨.node head p trees, ?_, ?_⟩
        · simp [emptyTreeFrom, htrees]
        · exact ⟨⟨hmem, hhead, hroots, hvalid⟩, rfl, hfrontier⟩
      · have hs : s ∈ earlier.map Prod.fst := by
          simpa [Ne.symm heq] using hs
        obtain ⟨tree, htree, hempty⟩ := ih hearlier hs
        exact ⟨tree, by simp [emptyTreeFrom, heq, htree], hempty⟩

theorem exists_emptyTree?_of_contains {s : Symbol}
    (hs : g.nullability.contains s = true) :
    ∃ tree, g.nullability.emptyTree? s = some tree ∧
      IsEmptyTree g s tree := by
  apply (wellFounded_and_closed g).1.exists_emptyTree
  rw [List.map_reverse, List.mem_reverse]
  exact contains_iff.mp hs

/-- The nullable variables are those that yield the empty string. -/
theorem contains_iff_yields {s : Symbol} :
    g.nullability.contains s = true ↔ g.Yields [s] [] := by
  constructor
  · intro hs
    obtain ⟨tree, _, hempty⟩ := exists_emptyTree?_of_contains hs
    have hyields := Tree.ValidFor.yields tree hempty.valid
    rwa [hempty.root_eq, hempty.frontier_eq] at hyields
  · intro hyields
    exact (wellFounded_and_closed g).2.contains_of_yields hyields rfl s
      (List.mem_singleton.mpr rfl)

end Nullability

end FormalGrammars
