import FormalGrammars.Proofs.Elimination.Language

/-!
# What restoring puts into a tree

A tree over the grammar without unit or lambda productions has a tree over the
grammar itself, with the same root and the same frontier.  The two differ node
by node.  Without unit productions a node may stand for a chain, which is put
back above the production that was borrowed.  Without lambda productions a node
may lack children, which come back as trees of the empty string.
-/

namespace FormalGrammars

variable {g : Grammar} {start : Symbol}

/-! ## Unit productions -/

namespace UnitElimination

open Relation (TransGen)

variable {e : UnitElimination}

/-- A production that was kept has no origin. -/
theorem isUnit_of_mem_keys (hbuilt : g.eliminateUnits = .ok e) {q : Production}
    (hkey : q ∈ e.origins.keys) (hmem : q ∈ g.productions) :
    q.isUnit = true := by
  unfold Grammar.eliminateUnits at hbuilt
  cases hstart : g.requireContextFree with
  | error fault =>
      rw [hstart] at hbuilt
      cases hbuilt
  | ok start =>
      rw [hstart] at hbuilt
      cases hbuilt
      rcases List.mem_map.mp hkey with ⟨entry, hentry, rfl⟩
      rcases OrderedMap.mem_entries_foldl_insertIfNew hentry with hold | hnew
      · exact absurd hold List.not_mem_nil
      · have hother := (List.mem_filter.mp hnew).2
        simpa [hmem] using hother

theorem restore_of_mem (hbuilt : g.eliminateUnits = .ok e)
    (he : Describes g e) {q : Production} (hmem : q ∈ e.grammar.productions)
    (hkept : q ∈ g.productions) (s : Symbol) (children : List Tree) :
    e.restore (.node s q children) = .node s q (children.map e.restore) := by
  have hnew : q ∉ e.origins.keys := by
    intro hkey
    have hunit := isUnit_of_mem_keys hbuilt hkey hkept
    rw [he.isUnit_eq_false hmem] at hunit
    cases hunit
  simp only [restore, OrderedMap.get?_eq_none_iff.mpr hnew, restoreAll_eq_map]

/-- A node with a production of the grammar keeps it.  A node with a borrowed
production gets the production that it was borrowed from and, above that, a
chain of unit productions, each of which leads to the root of what is below.
The whole tree becomes one of the grammar with the same root and frontier. -/
theorem restore_reinserts_chains (hstart : g.requireContextFree = .ok start) :
    ∃ e, g.eliminateUnits = .ok e ∧
      (∀ s q children, (Tree.node s q children).ValidFor e.grammar →
        (q ∈ g.productions →
          e.restore (.node s q children) =
            .node s q (children.map e.restore)) ∧
        (q ∉ g.productions → ∃ t base,
          base ∈ g.productions ∧ base.head? = some t ∧
          base.isUnit = false ∧ base.rhs = q.rhs ∧
          TransGen (Links g) (.node t base (children.map e.restore))
            (e.restore (.node s q children)))) ∧
      ∀ tree, tree.ValidFor e.grammar →
        (e.restore tree).ValidFor g ∧
        (e.restore tree).root = tree.root ∧
        (e.restore tree).frontier = tree.frontier := by
  rcases describes_eliminateUnits hstart with ⟨e, hbuilt, he⟩
  refine ⟨e, hbuilt, ?_, ?_⟩
  · intro s q children hvalid
    rcases hvalid with ⟨hmem, hsole, _, _⟩
    constructor
    · intro hkept
      exact restore_of_mem hbuilt he hmem hkept s children
    · intro hborrowed
      have hkey : q ∈ e.origins.keys := by
        rcases (he.mem_iff q).mp hmem with hkept | hkey
        · exact absurd hkept.1 hborrowed
        · exact hkey
      rcases OrderedMap.get?_of_mem_keys hkey with ⟨origin, hget⟩
      rcases he.links_restore hsole hget with
        ⟨t, hbase, hhead, hunit, hrhs, hlinks, _⟩
      exact ⟨t, origin.base, hbase, hhead, hunit, hrhs, hlinks⟩
  · intro tree hvalid
    have hrestores := he.restores tree hvalid
    exact ⟨hrestores.valid, hrestores.root_eq, hrestores.frontier_eq⟩

/-- The tree of `cC` in which `S` has borrowed the production of `C`. -/
def borrowedTree : Tree :=
  .node (.var "S") (.rule (.var "S") [.term "c", .var "C"])
    [.leaf (.term "c"), .leaf (.var "C")]

theorem restore_borrowedTree :
    ∃ e, unitDiamond.eliminateUnits = .ok e ∧
      borrowedTree.ValidFor e.grammar ∧
      (e.restore borrowedTree).ValidFor unitDiamond ∧
      (e.restore borrowedTree).root = .var "S" ∧
      (e.restore borrowedTree).frontier = [.term "c", .var "C"] ∧
      TransGen (Links unitDiamond)
        (.node (.var "C") (.rule (.var "C") [.term "c", .var "C"])
          [.leaf (.term "c"), .leaf (.var "C")])
        (e.restore borrowedTree) := by
  rcases restore_reinserts_chains (g := unitDiamond) rfl with
    ⟨e, hbuilt, hnodes, htrees⟩
  have hmade : ∃ made, unitDiamond.eliminateUnits = .ok made ∧
      borrowedTree.ValidFor made.grammar := ⟨_, rfl, by decide +kernel⟩
  rcases hmade with ⟨made, hmade, hvalid⟩
  have hsame : made = e := Except.ok.inj (hmade.symm.trans hbuilt)
  subst hsame
  rcases htrees borrowedTree hvalid with ⟨hrestored, hroot, hfrontier⟩
  rcases (hnodes _ _ _ hvalid).2 (by decide) with
    ⟨t, base, hmem, hhead, _, hrhs, hlinks⟩
  have hsole : ∀ p ∈ unitDiamond.productions,
      p.rhs = [.term "c", .var "C"] →
        p = .rule (.var "C") [.term "c", .var "C"] := by decide
  have hbase := hsole base hmem hrhs
  subst hbase
  have hhead : t = .var "C" := (Option.some.inj hhead).symm
  subst hhead
  exact ⟨made, hbuilt, hvalid, hrestored, hroot, hfrontier, hlinks⟩

end UnitElimination

/-! ## Lambda productions -/

namespace LambdaElimination

/-- At a node the production is replaced by the one that it was cut from.  Its
kept symbols take the children in their order, and each dropped one takes a tree
of the empty string.  The whole tree becomes one of the grammar with the same
root and frontier. -/
theorem restore_rederives_dropped (hstart : g.requireContextFree = .ok start) :
    ∃ e, g.eliminateLambda = .ok e ∧
      (∀ s q children, (Tree.node s q children).ValidFor e.grammar →
        ∃ cut after, e.origins.get? q = some cut ∧
          cut.source ∈ g.productions ∧
          e.restore (.node s q children) = .node s cut.source after ∧
          Refills g cut.source.rhs cut.kept (children.map e.restore) after) ∧
      ∀ tree, tree.ValidFor e.grammar →
        (e.restore tree).ValidFor g ∧
        (e.restore tree).root = tree.root ∧
        (e.restore tree).frontier = tree.frontier := by
  rcases describes_eliminateLambda hstart with ⟨e, hbuilt, he⟩
  refine ⟨e, hbuilt, ?_, ?_⟩
  · intro s q children hvalid
    rcases hvalid with ⟨hmem, hsole, hroots, hchildren⟩
    have hkept : (children.map e.restore).map Tree.root = q.rhs := by
      rw [← hroots, List.map_map]
      apply List.map_congr_left
      intro child hchild
      have hbelow := Tree.allValidFor_iff.mp hchildren child hchild
      exact (he.restores child hbelow).root_eq
    rcases he.refills_restore hmem hsole hkept with
      ⟨cut, after, hget, hsource, _, heq, hrefills⟩
    exact ⟨cut, after, hget, hsource, heq, hrefills⟩
  · intro tree hvalid
    have hrestores := he.restores tree hvalid
    exact ⟨hrestores.valid, hrestores.root_eq, hrestores.frontier_eq⟩

/-- The tree of `a` in which everything that vanishes is dropped. -/
def shortTree : Tree :=
  .node (.var "S") (.rule (.var "S") [.var "A"])
    [.node (.var "A") (.rule (.var "A") [.term "a"]) [.leaf (.term "a")]]

/-- The root is cut from `S → AB`, and a tree of the empty string comes back
for `B`. -/
theorem restore_shortTree :
    ∃ e, vanishingPair.eliminateLambda = .ok e ∧
      shortTree.ValidFor e.grammar ∧
      (e.restore shortTree).ValidFor vanishingPair ∧
      (e.restore shortTree).root = .var "S" ∧
      (e.restore shortTree).frontier = [.term "a"] ∧
      ∃ after,
        e.restore shortTree =
          .node (.var "S") (.rule (.var "S") [.var "A", .var "B"]) after ∧
        Refills vanishingPair [.var "A", .var "B"] [true, false]
          (shortTree.children.map e.restore) after := by
  rcases restore_rederives_dropped (g := vanishingPair) rfl with
    ⟨e, hbuilt, hnodes, htrees⟩
  have hmade : ∃ made, vanishingPair.eliminateLambda = .ok made ∧
      shortTree.ValidFor made.grammar ∧
      made.origins.get? (.rule (.var "S") [.var "A"]) =
        some ⟨.rule (.var "S") [.var "A", .var "B"], [true, false]⟩ :=
    ⟨_, rfl, by decide +kernel⟩
  rcases hmade with ⟨made, hmade, hvalid, horigin⟩
  have hsame : made = e := Except.ok.inj (hmade.symm.trans hbuilt)
  subst hsame
  rcases htrees shortTree hvalid with ⟨hrestored, hroot, hfrontier⟩
  rcases hnodes _ _ _ hvalid with ⟨cut, after, hget, _, heq, hrefills⟩
  have hcut := Option.some.inj (horigin.symm.trans hget)
  subst hcut
  exact ⟨made, hbuilt, hvalid, hrestored, hroot, hfrontier, after, heq,
    hrefills⟩

end LambdaElimination

end FormalGrammars
