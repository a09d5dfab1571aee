import FormalGrammars.Proofs.Yield

/-!
# Restoring derivation trees

An elimination carries the trees over its result back to the grammar it
started from.  A tree is restored rightly when the new one is valid there and
has the same root and the same frontier.
-/

namespace FormalGrammars.Tree

variable {g : Grammar}

structure Restores (g : Grammar) (before after : Tree) : Prop where
  valid : after.ValidFor g
  root_eq : after.root = before.root
  frontier_eq : after.frontier = before.frontier

/-- The trees derive the word from the form, one tree for each symbol. -/
structure Spells (g : Grammar) (form word : Form) (trees : List Tree) :
    Prop where
  valid : AllValidFor g trees
  roots_eq : trees.map root = form
  frontier_eq : frontierOfAll trees = word

theorem restores_leaf (s : Symbol) : Restores g (.leaf s) (.leaf s) :=
  ⟨trivial, rfl, rfl⟩

theorem spells_nil : Spells g [] [] [] :=
  ⟨trivial, rfl, rfl⟩

theorem Spells.cons {s : Symbol} {tree : Tree} {form first rest : Form}
    {trees : List Tree} (hvalid : tree.ValidFor g) (hroot : tree.root = s)
    (hfrontier : tree.frontier = first) (hrest : Spells g form rest trees) :
    Spells g (s :: form) (first ++ rest) (tree :: trees) := by
  refine ⟨⟨hvalid, hrest.valid⟩, ?_, ?_⟩
  · rw [List.map_cons, hroot, hrest.roots_eq]
  · rw [frontierOfAll, hfrontier, hrest.frontier_eq]

theorem spells_map {restore : Tree → Tree} {trees : List Tree}
    (hall : ∀ tree ∈ trees, Restores g tree (restore tree)) :
    Spells g (trees.map root) (frontierOfAll trees) (trees.map restore) := by
  induction trees with
  | nil => exact spells_nil
  | cons tree trees ih =>
      have hfirst := hall tree List.mem_cons_self
      exact .cons hfirst.valid hfirst.root_eq hfirst.frontier_eq
        (ih fun other hother => hall other (List.mem_cons_of_mem tree hother))

/-- A node is restored with any production of its symbol when the new children
spell the right side. -/
theorem Spells.node {s : Symbol} {p q : Production} {before after : List Tree}
    (hmem : p ∈ g.productions) (hhead : p.head? = some s)
    (hafter : Spells g p.rhs (frontierOfAll before) after) :
    Restores g (.node s q before) (.node s p after) :=
  ⟨⟨hmem, hhead, hafter.roots_eq, hafter.valid⟩, rfl, hafter.frontier_eq⟩

end FormalGrammars.Tree
