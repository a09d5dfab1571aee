import FormalGrammars.Proofs.Elimination.Lambda
import FormalGrammars.Proofs.Elimination.Unit
import Mathlib.Logic.Relation

/-!
# What a variable derives without lambda and unit productions

The first elimination takes the empty string from every variable and nothing
else.  The second one takes no terminal string; its productions are those that
are no unit productions and those that a variable borrows along a chain of unit
productions.  Here both results are put in terms of rewriting, and a chain is a
chain of productions, without the graph that the elimination searches.
-/

namespace FormalGrammars

variable {g : Grammar} {start : Symbol}

/-! ## Lambda productions -/

namespace LambdaElimination

/-- Every symbol derives what it derived before, but for the empty string, and
no empty right side is left.  What is lost is told for the start. -/
theorem derives_iff_of_eliminateLambda
    (hstart : g.requireContextFree = .ok start) :
    ∃ e, g.eliminateLambda = .ok e ∧
      (∀ s word, e.grammar.Derives [s] word ↔
        word ≠ [] ∧ g.Derives [s] word) ∧
      (∀ q ∈ e.grammar.productions, q.rhs ≠ []) ∧
      (e.startDerivesLambda = true ↔ g.Derives [start] []) := by
  rcases describes_eliminateLambda hstart with ⟨e, hbuilt, he⟩
  have hfree := he.contextFree
  have hresult := (Grammar.requireContextFree_eq_ok_iff.mp
    (he.requireContextFree_eq_ok hstart)).2
  have hrhs : ∀ q ∈ e.grammar.productions, q.rhs ≠ [] :=
    fun q hq => he.rhs_ne_nil hq
  refine ⟨e, hbuilt, ?_, hrhs, ?_⟩
  · intro s word
    rw [← Grammar.yields_iff_derives hfree,
      ← Grammar.yields_iff_derives hresult]
    constructor
    · intro hyields
      have hne : word ≠ [] := hyields.ne_nil hrhs (List.cons_ne_nil s [])
      exact ⟨hne, he.yields_of_yields hyields⟩
    · intro hyields
      exact (he.yields_iff hyields.1).mpr hyields.2
  · rw [he.start_iff, Nullability.contains_iff_yields,
      Grammar.yields_iff_derives hfree]

/-- `S → AB`, `A → aA | B` and `B → A | b | λ`, where `A` and `B` vanish through
each other. -/
def vanishingPair : Grammar :=
  Grammar.withProductions { start := some (.var "S") }
    [.rule (.var "S") [.var "A", .var "B"],
      .rule (.var "A") [.term "a", .var "A"],
      .rule (.var "A") [.var "B"],
      .rule (.var "B") [.var "A"],
      .rule (.var "B") [.term "b"],
      .rule (.var "B") []]

/-- The tree of `a` in which two variables are left to vanish. -/
def vanishingTree : Tree :=
  .node (.var "S") (.rule (.var "S") [.var "A", .var "B"])
    [.node (.var "A") (.rule (.var "A") [.term "a", .var "A"])
        [.leaf (.term "a"),
          .node (.var "A") (.rule (.var "A") [.var "B"])
            [.node (.var "B") (.rule (.var "B") []) []]],
      .node (.var "B") (.rule (.var "B") []) []]

theorem derives_iff_vanishingPair :
    ∃ e, vanishingPair.eliminateLambda = .ok e ∧
      vanishingPair.Derives [.var "S"] [] ∧
      e.startDerivesLambda = true ∧
      ¬ e.grammar.Derives [.var "S"] [] ∧
      e.grammar.Derives [.var "S"] [.term "a"] := by
  have hflag : ∃ e, vanishingPair.eliminateLambda = .ok e ∧
      e.startDerivesLambda = true := ⟨_, rfl, by decide +kernel⟩
  rcases hflag with ⟨built, hbuilt, hnullable⟩
  rcases derives_iff_of_eliminateLambda (g := vanishingPair) rfl with
    ⟨e, he, hderives, _, hempty⟩
  have hsame : built = e := Except.ok.inj (hbuilt.symm.trans he)
  subst hsame
  have hvalid : vanishingTree.ValidFor vanishingPair := by decide
  have hword : vanishingPair.Derives [.var "S"] [.term "a"] :=
    (Tree.ValidFor.yields _ hvalid).derives
  refine ⟨built, he, hempty.mp hnullable, hnullable, ?_, ?_⟩
  · intro hlambda
    exact ((hderives _ _).mp hlambda).1 rfl
  · exact (hderives _ _).mpr ⟨by simp, hword⟩

end LambdaElimination

/-! ## Unit productions -/

namespace Grammar

/-- A unit production leads from the one variable to the other. -/
def UnitStep (g : Grammar) (s t : Symbol) : Prop :=
  t.isVar = true ∧ Production.rule s [t] ∈ g.productions

theorem ContextFree.head?_of_rule_mem (hg : g.ContextFree) {s : Symbol}
    {rhs : Form} (hmem : Production.rule s rhs ∈ g.productions) :
    (Production.rule s rhs).head? = some s := by
  rcases Option.isSome_iff_exists.mp (hg _ hmem) with ⟨head, hhead⟩
  have hlhs := (Production.head?_eq_some_iff.mp hhead).1
  have hsame : s = head := (List.cons.inj hlhs).1
  rw [hsame] at hhead ⊢
  exact hhead

theorem ContextFree.hasEdge_iff_unitStep (hg : g.ContextFree)
    {s t : Symbol} :
    (VariableGraph.ofUnits g).hasEdge s t = true ↔ g.UnitStep s t := by
  rw [VariableGraph.hasEdge_ofUnits]
  constructor
  · intro hedge
    rcases hedge with ⟨hvar, p, hmem, hhead, hrhs⟩
    have hrule := Production.eq_rule_of_head? hhead
    rw [hrhs] at hrule
    exact ⟨hvar, hrule ▸ hmem⟩
  · intro hstep
    have hhead := hg.head?_of_rule_mem hstep.2
    exact ⟨hstep.1, _, hstep.2, hhead, rfl⟩

end Grammar

namespace UnitElimination

open Relation (ReflTransGen)

theorem leads_iff (hg : g.ContextFree) {s t : Symbol} :
    Leads g s t ↔ ReflTransGen g.UnitStep s t := by
  constructor
  · intro hleads
    rcases hleads with heq | ⟨path, hwalk⟩
    · rw [heq]
    · induction hwalk with
      | edge hedge =>
          exact .single (hg.hasEdge_iff_unitStep.mp hedge)
      | cons hedge _ ih =>
          exact .head (hg.hasEdge_iff_unitStep.mp hedge) ih
  · intro hchain
    induction hchain using ReflTransGen.head_induction_on with
    | refl => exact .inl rfl
    | head hstep _ ih =>
        have hhead := hg.head?_of_rule_mem hstep.2
        exact ih.cons hstep.2 hhead rfl hstep.1

theorem isUnit_rule_eq_false_iff {s : Symbol} (hvar : s.isVar = true)
    {rhs : Form} :
    (Production.rule s rhs).isUnit = false ↔
      ∀ u, rhs = [u] → u.isVar = false := by
  have hhead : (Production.rule s rhs).hasHead = true := by
    rw [Production.hasHead, Production.head?_rule hvar]
    rfl
  rw [Production.isUnit, hhead, Bool.true_and]
  cases rhs with
  | nil => simp [Production.rule]
  | cons u rest =>
      cases rest with
      | nil => simp [Production.rule]
      | cons v rest => simp [Production.rule]

/-- The productions of the result are the rules `A → α` that are no unit
productions and for which a chain of unit productions leads from `A` to a
variable with the right side `α`.  Every variable derives the same terminal
strings as before. -/
theorem derives_iff_of_eliminateUnits
    (hstart : g.requireContextFree = .ok start) :
    ∃ e, g.eliminateUnits = .ok e ∧
      (∀ q, q ∈ e.grammar.productions ↔
        ∃ s t rhs, q = .rule s rhs ∧ (∀ u, rhs = [u] → u.isVar = false) ∧
          ReflTransGen g.UnitStep s t ∧ .rule t rhs ∈ g.productions) ∧
      ∀ s word, Form.isTerminal word = true →
        (e.grammar.Derives [s] word ↔ g.Derives [s] word) := by
  rcases describes_eliminateUnits hstart with ⟨e, hbuilt, he⟩
  have hfree := he.contextFree
  have hresult := (Grammar.requireContextFree_eq_ok_iff.mp
    (he.requireContextFree_eq_ok hstart)).2
  refine ⟨e, hbuilt, ?_, ?_⟩
  · intro q
    rw [he.mem_productions_iff]
    constructor
    · intro hborrowed
      rcases hborrowed with ⟨s, t, base, hleads, hmem, hhead, hunit, hq⟩
      have hrule := Production.eq_rule_of_head? hhead
      rw [hrule, isUnit_rule_eq_false_iff (Grammar.isVar_of_head? hhead)]
        at hunit
      exact ⟨s, t, base.rhs, hq, hunit, (leads_iff hfree).mp hleads,
        hrule ▸ hmem⟩
    · intro hborrowed
      rcases hborrowed with ⟨s, t, rhs, hq, hunit, hchain, hmem⟩
      have hhead := hfree.head?_of_rule_mem hmem
      have hvar := Grammar.isVar_of_head? hhead
      exact ⟨s, t, .rule t rhs, (leads_iff hfree).mpr hchain, hmem, hhead,
        (isUnit_rule_eq_false_iff hvar).mpr hunit, hq⟩
  · intro s word hword
    rw [← Grammar.yields_iff_derives hfree,
      ← Grammar.yields_iff_derives hresult]
    exact he.yields_iff hword

/-- `S → A | B`, `A → C | A`, `B → C`, `C → S | cC | λ`: a cycle of unit
productions with two ways to its end and a loop. -/
def unitDiamond : Grammar :=
  Grammar.withProductions { start := some (.var "S") }
    [.rule (.var "S") [.var "A"],
      .rule (.var "S") [.var "B"],
      .rule (.var "A") [.var "C"],
      .rule (.var "A") [.var "A"],
      .rule (.var "B") [.var "C"],
      .rule (.var "C") [.var "S"],
      .rule (.var "C") [.term "c", .var "C"],
      .rule (.var "C") []]

/-- The tree of `c` that goes around the cycle once. -/
def unitDiamondTree : Tree :=
  .node (.var "S") (.rule (.var "S") [.var "A"])
    [.node (.var "A") (.rule (.var "A") [.var "C"])
      [.node (.var "C") (.rule (.var "C") [.var "S"])
        [.node (.var "S") (.rule (.var "S") [.var "B"])
          [.node (.var "B") (.rule (.var "B") [.var "C"])
            [.node (.var "C") (.rule (.var "C") [.term "c", .var "C"])
              [.leaf (.term "c"),
                .node (.var "C") (.rule (.var "C") []) []]]]]]]

theorem derives_iff_unitDiamond :
    ∃ e, unitDiamond.eliminateUnits = .ok e ∧
      .rule (.var "S") [.term "c", .var "C"] ∈ e.grammar.productions ∧
      .rule (.var "S") [.var "A"] ∉ e.grammar.productions ∧
      Form.isTerminal [.term "c"] = true ∧
      e.grammar.Derives [.var "S"] [.term "c"] := by
  rcases derives_iff_of_eliminateUnits (g := unitDiamond) rfl with
    ⟨e, he, hmem, hderives⟩
  have hchain : ReflTransGen unitDiamond.UnitStep (.var "S") (.var "C") :=
    .head ⟨rfl, by decide⟩ (.single ⟨rfl, (by decide :
      Production.rule (.var "B") [.var "C"] ∈ unitDiamond.productions)⟩)
  have hvalid : unitDiamondTree.ValidFor unitDiamond := by decide
  have hword : unitDiamond.Derives [.var "S"] [.term "c"] :=
    (Tree.ValidFor.yields _ hvalid).derives
  refine ⟨e, he, ?_, ?_, rfl, (hderives _ _ rfl).mpr hword⟩
  · exact (hmem _).mpr ⟨_, _, _, rfl, by simp, hchain, by decide⟩
  · intro hunit
    rcases (hmem _).mp hunit with ⟨s, t, rhs, hq, hrhs, _⟩
    have hsame : rhs = [.var "A"] := (Production.mk.inj hq).2.symm
    exact absurd (hrhs _ hsame) (by simp [Symbol.isVar])

end UnitElimination

end FormalGrammars
