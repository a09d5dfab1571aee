import FormalGrammars.Proofs.NormalForm.Chomsky

/-!
# A grammar and its Chomsky normal form

A conversion that succeeds has met neither lambda nor unit productions.  Its
result has a terminal or two variables on every right side, and the variables
that occur in the productions of the grammar derive the same terminal strings as
before, those among them too that stand for a terminal or for the rest of a
right side.  A derivation over
the grammar is kept by the rules; one in normal form is carried back by its
tree, which is restored with the same root and the same frontier.
-/

namespace FormalGrammars

variable {g : Grammar} {naming : Naming} {c : ChomskyForm}

theorem Grammar.exists_start_of_toChomskyForm
    (hc : g.toChomskyForm naming = .ok c) :
    ∃ start, g.requireContextFree = .ok start := by
  cases hstart : g.requireContextFree with
  | ok start => exact ⟨start, rfl⟩
  | error fault =>
      unfold Grammar.toChomskyForm at hc
      rw [hstart] at hc
      cases hc

namespace ChomskyForm

theorem describes_of_toChomskyForm (hg : g.Consistent)
    (hc : g.toChomskyForm naming = .ok c) : c.Describes g := by
  obtain ⟨start, hstart⟩ := Grammar.exists_start_of_toChomskyForm hc
  exact describes_toChomskyForm hg hstart hc

theorem Describes.not_mem_helpers (hc : c.Describes g) (hg : g.Consistent)
    {s : Symbol} (hs : s ∈ g.variables) : s ∉ c.helpers.keys := by
  obtain ⟨_, p, hp, hoccurs⟩ := hg.mem_variables_iff.mp hs
  exact hc.helpers_new p hp s hoccurs

theorem Describes.eq_rule (hc : c.Describes g) {q : Production}
    (hq : q ∈ c.grammar.productions) :
    ∃ s, s.isVar = true ∧
      ((∃ t, t.isTerm = true ∧ q = .rule s [t]) ∨
        ∃ first second, first.isVar = true ∧ second.isVar = true ∧
          q = .rule s [first, second]) := by
  obtain ⟨p, hp, hemits⟩ := hc.emitted q hq
  obtain ⟨s, hhead⟩ := Option.isSome_iff_exists.mp (hc.head_isSome p hp)
  have hsole : q.head? = some s := hemits.head_eq.trans hhead
  have hrule := Production.eq_rule_of_head? hsole
  refine ⟨s, Grammar.isVar_of_head? hsole, ?_⟩
  rcases hemits.rhs_cases with
    ⟨t, hterm, hrhs⟩ | ⟨first, second, hfirst, hsecond, hrhs⟩
  · rw [hrhs] at hrule
    exact .inl ⟨t, hterm, hrule⟩
  · rw [hrhs] at hrule
    exact .inr ⟨first, second, hfirst, hsecond, hrule⟩

/-- In normal form a terminal string has a tree, and the tree is restored. -/
theorem Describes.yields_iff (hc : c.Describes g) {s : Symbol}
    (hs : s ∉ c.helpers.keys) {word : Form}
    (hword : Form.isTerminal word = true) :
    c.grammar.Yields [s] word ↔ g.Yields [s] word := by
  constructor
  · intro hyields
    obtain ⟨tree, hvalid, hroot, hfrontier⟩ := Tree.exists_tree hyields
    have hrestores := hc.restores hvalid (hfrontier ▸ hword) (hroot ▸ hs)
    have hback := Tree.ValidFor.yields _ hrestores.valid
    rw [hrestores.root_eq, hroot, hrestores.frontier_eq, hfrontier] at hback
    exact hback
  · exact hc.yields_of_yields

/-- What comes out is in normal form, and a variable of the grammar derives the
same terminal strings in it. -/
theorem derives_iff_of_toChomskyForm (hg : g.Consistent)
    (hc : g.toChomskyForm naming = .ok c) :
    (∀ q ∈ c.grammar.productions, ∃ s, s.isVar = true ∧
      ((∃ t, t.isTerm = true ∧ q = .rule s [t]) ∨
        ∃ first second, first.isVar = true ∧ second.isVar = true ∧
          q = .rule s [first, second])) ∧
    ∀ s ∈ g.variables, ∀ word, Form.isTerminal word = true →
      (c.grammar.Derives [s] word ↔ g.Derives [s] word) := by
  have hdescribes := describes_of_toChomskyForm hg hc
  obtain ⟨start, hstart⟩ := Grammar.exists_start_of_toChomskyForm hc
  have hfree := (Grammar.requireContextFree_eq_ok_iff.mp hstart).2
  have hnormal := (Grammar.requireContextFree_eq_ok_iff.mp
    (hdescribes.requireContextFree_eq_ok hstart)).2
  refine ⟨fun q hq => hdescribes.eq_rule hq, fun s hs word hword => ?_⟩
  rw [← Grammar.yields_iff_derives hfree, ← Grammar.yields_iff_derives hnormal]
  exact hdescribes.yields_iff (hdescribes.not_mem_helpers hg hs) hword

/-- `S → aXYz` and `R → XYZ`, where `Z` stands for `z` and `R` for the rest of
the first right side, while the second one is itself cut. -/
def sharedRest : Grammar :=
  Grammar.withProductions { start := some (.var "S") }
    [.rule (.var "S") [.term "a", .var "X", .var "Y", .term "z"],
      .rule (.var "R") [.var "X", .var "Y", .var "Z"],
      .rule (.var "X") [.term "x"],
      .rule (.var "Y") [.term "y"],
      .rule (.var "Y") [.term "y", .var "Y"],
      .rule (.var "Z") [.term "z"]]

theorem derives_iff_sharedRest :
    ∃ c, sharedRest.toChomskyForm .numbered = .ok c ∧
      .rule (.var "S") [.var "H1", .var "R"] ∈ c.grammar.productions ∧
      Symbol.var "S" ∈ sharedRest.variables ∧
      (c.grammar.Derives [.var "S"] [.term "a", .term "x", .term "y", .term "z"] ↔
        sharedRest.Derives [.var "S"]
          [.term "a", .term "x", .term "y", .term "z"]) := by
  have hbuilt : ∃ c, sharedRest.toChomskyForm .numbered = .ok c ∧
      .rule (.var "S") [.var "H1", .var "R"] ∈ c.grammar.productions :=
    ⟨_, rfl, by decide +kernel⟩
  obtain ⟨c, hc, hreused⟩ := hbuilt
  have hvariable : Symbol.var "S" ∈ sharedRest.variables := by decide +kernel
  have hiff := (derives_iff_of_toChomskyForm
    (Grammar.consistent_of_start rfl _) hc).2
  exact ⟨c, hc, hreused, hvariable, hiff _ hvariable _ rfl⟩

/-- A tree in normal form whose root is a variable of the grammar and whose
leaves are terminals is restored to a tree over the grammar, with the same root
and the same frontier. -/
theorem restore_validFor (hg : g.Consistent)
    (hc : g.toChomskyForm naming = .ok c) {tree : Tree}
    (hvalid : tree.ValidFor c.grammar) (hroot : tree.root ∈ g.variables)
    (hword : Form.isTerminal tree.frontier = true) :
    (c.restore tree).ValidFor g ∧ (c.restore tree).root = tree.root ∧
      (c.restore tree).frontier = tree.frontier := by
  have hdescribes := describes_of_toChomskyForm hg hc
  have hrestores := hdescribes.restores hvalid hword
    (hdescribes.not_mem_helpers hg hroot)
  exact ⟨hrestores.valid, hrestores.root_eq, hrestores.frontier_eq⟩

/-- The tree of `axyz` in normal form. -/
def sharedRestTree : Tree :=
  .node (.var "S") (.rule (.var "S") [.var "H1", .var "R"])
    [.node (.var "H1") (.rule (.var "H1") [.term "a"]) [.leaf (.term "a")],
      .node (.var "R") (.rule (.var "R") [.var "X", .var "H2"])
        [.node (.var "X") (.rule (.var "X") [.term "x"]) [.leaf (.term "x")],
          .node (.var "H2") (.rule (.var "H2") [.var "Y", .var "Z"])
            [.node (.var "Y") (.rule (.var "Y") [.term "y"]) [.leaf (.term "y")],
              .node (.var "Z") (.rule (.var "Z") [.term "z"])
                [.leaf (.term "z")]]]]

/-- The node of `R` is opened, and so is the helper below it. -/
theorem restore_sharedRest :
    ∃ c, sharedRest.toChomskyForm .numbered = .ok c ∧
      sharedRestTree.ValidFor c.grammar ∧
      sharedRestTree.root ∈ sharedRest.variables ∧
      Form.isTerminal sharedRestTree.frontier = true ∧
      (c.restore sharedRestTree).ValidFor sharedRest ∧
      (c.restore sharedRestTree).children.map Tree.root =
        [.term "a", .var "X", .var "Y", .term "z"] ∧
      (c.restore sharedRestTree).frontier =
        [.term "a", .term "x", .term "y", .term "z"] := by
  have hbuilt : ∃ c, sharedRest.toChomskyForm .numbered = .ok c ∧
      sharedRestTree.ValidFor c.grammar ∧
      (c.restore sharedRestTree).children.map Tree.root =
        [.term "a", .var "X", .var "Y", .term "z"] :=
    ⟨_, rfl, by decide +kernel, by decide +kernel⟩
  obtain ⟨c, hc, hvalid, hchildren⟩ := hbuilt
  have hvariable : sharedRestTree.root ∈ sharedRest.variables := by
    decide +kernel
  have hword : Form.isTerminal sharedRestTree.frontier = true := rfl
  obtain ⟨hrestored, _, hfrontier⟩ := restore_validFor
    (Grammar.consistent_of_start rfl _) hc hvalid hvariable hword
  exact ⟨c, hc, hvalid, hvariable, hword, hrestored, hchildren, hfrontier⟩

end ChomskyForm

end FormalGrammars
