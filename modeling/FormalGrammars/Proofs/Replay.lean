import FormalGrammars.Derivation.Step
import FormalGrammars.Proofs.Yield

/-!
# Replaying the steps of a tree

The steps of a valid tree, taken in preorder with the number of symbols to
the left, rewrite its root to its frontier inside any surroundings.  So the
derivation of a valid tree that is rooted at the start is replayed without a
fault, and its last form is the frontier.
-/

namespace FormalGrammars

variable {g : Grammar}

namespace Grammar

theorem apply_eq_ok {before after : Form} {s : Symbol} {p : Production}
    (hmem : p ∈ g.productions) (hhead : p.head? = some s) :
    g.apply (before ++ s :: after) ⟨p, before.length⟩ =
      .ok (before ++ p.rhs ++ after) := by
  have hlhs := (Production.head?_eq_some_iff.mp hhead).1
  have hrewrite : Form.rewrite? (before ++ s :: after) ⟨p, before.length⟩ =
      some (before ++ p.rhs ++ after) :=
    Form.rewrite?_eq_some_iff.mpr
      ⟨before, after, rfl, by simp [hlhs], rfl⟩
  unfold apply
  rw [if_pos (contains_iff.mpr hmem), hrewrite]

end Grammar

namespace Tree

/-- The steps of a tree rewrite its root where it stands. -/
def Replays (g : Grammar) (tree : Tree) : Prop :=
  tree.ValidFor g → ∀ before after : Form,
    (tree.stepsFrom before.length).foldlM g.apply
        (before ++ tree.root :: after) =
      .ok (before ++ tree.frontier ++ after)

theorem replays_forest {trees : List Tree}
    (hreplays : ∀ tree ∈ trees, Replays g tree)
    (hvalid : AllValidFor g trees) (before after : Form) :
    (stepsOfAllFrom before.length trees).foldlM g.apply
        (before ++ trees.map root ++ after) =
      .ok (before ++ frontierOfAll trees ++ after) := by
  induction trees generalizing before with
  | nil => rfl
  | cons tree trees ih =>
      have hfirst := hreplays tree List.mem_cons_self hvalid.1 before
        (trees.map root ++ after)
      have hrest := ih
        (fun other hother => hreplays other (List.mem_cons_of_mem tree hother))
        hvalid.2 (before ++ tree.frontier)
      simp only [List.append_assoc] at hfirst
      simp only [List.length_append, List.append_assoc] at hrest
      simp only [stepsOfAllFrom, List.foldlM_append, List.map_cons,
        frontierOfAll, List.append_assoc, List.cons_append, hfirst]
      exact hrest

theorem replays (tree : Tree) : Replays g tree := by
  induction tree using Tree.induction with
  | leaf s =>
      intro _ before after
      simp [stepsFrom, root, frontier, pure, Except.pure]
  | node s p children ih =>
      rintro ⟨hmem, hhead, hroots, hchildren⟩ before after
      have hbelow := replays_forest ih hchildren before after
      rw [hroots] at hbelow
      simp only [stepsFrom, List.foldlM_cons, root, frontier,
        Grammar.apply_eq_ok hmem hhead]
      exact hbelow

theorem replay_steps {tree : Tree} (hvalid : tree.ValidFor g)
    (hroot : g.start = some tree.root) :
    g.replay tree.steps = .ok tree.frontier := by
  have hrequire := Grammar.requireStart_eq_ok_iff.mpr hroot
  have hreplays := replays tree hvalid [] []
  rw [List.append_nil, List.nil_append] at hreplays
  unfold Grammar.replay
  rw [hrequire]
  exact hreplays

end Tree

end FormalGrammars
