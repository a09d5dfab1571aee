import FormalGrammars.Proofs.Predictive.Decision

/-!
# Conflict-free LL(1) tables and ambiguity

Two trees of one root in front of a stack are compared from left to right.
Both productions at the root are selected by the next symbol, so in a table
without conflicts they are the same; the children are then compared in turn,
each in front of its right siblings and the stack below.
-/

namespace FormalGrammars

namespace Tree

variable {g : Grammar} {start : Symbol}

def SelectsOne (g : Grammar) (start : Symbol) : Prop :=
  ∀ p ∈ g.productions, ∀ q ∈ g.productions, ∀ head x,
    p.head? = some head → q.head? = some head →
    g.Selects start head p x → g.Selects start head q x → p = q

/-- In front of a stack the tree is the only one of its root for its word. -/
def Forced (g : Grammar) (start : Symbol) (first : Tree) : Prop :=
  ∀ (second : Tree) (below left right : Form),
    first.ValidFor g → second.ValidFor g → first.root = second.root →
    g.Supported start (first.root :: below) →
    g.Yields below left → g.Yields below right →
    first.frontier ++ left = second.frontier ++ right →
    Form.isTerminal (first.frontier ++ left) = true →
    first = second ∧ left = right

theorem forced_leaf (s : Symbol) : Forced g start (.leaf s) := by
  intro second below left right _ hsecond hroot _ _ _ heq hword
  have hterm : s.isTerm = true := by
    simp only [frontier, List.cons_append, Form.isTerminal, List.all_cons,
      Bool.and_eq_true] at hword
    exact hword.1
  cases second with
  | leaf t =>
      simp only [root] at hroot
      subst hroot
      simp only [frontier, List.cons_append, List.nil_append,
        List.cons.injEq, true_and] at heq
      exact ⟨rfl, heq⟩
  | node t q children =>
      simp only [root] at hroot
      subst hroot
      have hvar := Grammar.isVar_of_head? hsecond.2.1
      exact absurd hvar (Symbol.not_isVar_of_isTerm hterm)

/-- Two forests over the same symbols are compared tree by tree. -/
theorem forced_forest {firsts seconds : List Tree} {below left right : Form}
    (hforced : ∀ tree ∈ firsts, Forced g start tree)
    (hfirsts : AllValidFor g firsts) (hseconds : AllValidFor g seconds)
    (hroots : firsts.map root = seconds.map root)
    (hstack : g.Supported start (firsts.map root ++ below))
    (hleft : g.Yields below left) (hright : g.Yields below right)
    (heq : frontierOfAll firsts ++ left = frontierOfAll seconds ++ right)
    (hword : Form.isTerminal (frontierOfAll firsts ++ left) = true) :
    firsts = seconds ∧ left = right := by
  induction firsts generalizing seconds with
  | nil =>
      rw [List.map_nil] at hroots
      rw [List.map_eq_nil_iff.mp hroots.symm] at heq ⊢
      exact ⟨rfl, heq⟩
  | cons first firsts ih =>
      rw [List.map_cons] at hroots
      obtain ⟨second, seconds, rfl, hroot, htails⟩ :=
        List.map_eq_cons_iff.mp hroots.symm
      simp only [frontierOfAll, List.append_assoc] at heq hword
      have hrestFirst := hfirsts.2.yields.append hleft
      have hrestSecond := hseconds.2.yields.append hright
      rw [htails] at hrestSecond
      obtain ⟨rfl, hrest⟩ := hforced first List.mem_cons_self second _ _ _
        hfirsts.1 hseconds.1 hroot.symm hstack hrestFirst hrestSecond heq hword
      have hbehind := (Grammar.isTerminal_append.mp hword).2
      obtain ⟨rfl, hlast⟩ := ih
        (fun tree htree => hforced tree (List.mem_cons_of_mem first htree))
        hfirsts.2 hseconds.2 htails.symm hstack.2 hrest hbehind
      exact ⟨rfl, hlast⟩

theorem forced (hone : SelectsOne g start) (first : Tree) :
    Forced g start first := by
  induction first using Tree.induction with
  | leaf s => exact forced_leaf s
  | node s p children ih =>
      rintro second below left right ⟨hp, hhead, hroots, hchildren⟩ hsecond
        hroot hstack hleft hright heq hword
      have hvar := Grammar.isVar_of_head? hhead
      cases second with
      | leaf t =>
          simp only [root] at hroot
          subst hroot
          rw [heq] at hword
          have hterm := (Grammar.isTerminal_cons.mp hword).1
          exact absurd hvar (Symbol.not_isVar_of_isTerm hterm)
      | node t q others =>
          simp only [root] at hroot
          subst hroot
          obtain ⟨hq, hheadOther, hrootsOther, hothers⟩ := hsecond
          simp only [frontier] at heq hword
          have hbelow := hchildren.yields
          have hbelowOther := hothers.yields
          rw [hroots] at hbelow
          rw [hrootsOther] at hbelowOther
          have hselects := hstack.selects hhead hbelow hleft hword
          have hselectsOther := hstack.selects hheadOther hbelowOther hright
            (heq ▸ hword)
          rw [← heq] at hselectsOther
          have hsame := hone p hp q hq s _ hhead hheadOther hselects
            hselectsOther
          subst hsame
          have hexpanded := hstack.expand hp hhead
          rw [← hroots] at hexpanded
          obtain ⟨rfl, hrest⟩ := forced_forest ih hchildren hothers
            (hroots.trans hrootsOther.symm) hexpanded hleft hright heq hword
          exact ⟨rfl, hrest⟩

end Tree

namespace PredictiveTable

variable {g : Grammar} {table : PredictiveTable}

theorem unambiguous_of_conflictFree (hg : g.Consistent)
    (htable : ofGrammar g = .ok table) (hfree : table.isConflictFree = true) :
    g.Unambiguous := by
  obtain ⟨start, hstart⟩ := exists_start_of_ofGrammar htable
  have hone : Tree.SelectsOne g start := by
    intro p hp q hq head x hpHead hqHead hpSelects hqSelects
    exact eq_of_mem_candidates hfree
      ((mem_candidates_iff hg hstart htable).mpr ⟨hp, hpHead, hpSelects⟩)
      ((mem_candidates_iff hg hstart htable).mpr ⟨hq, hqHead, hqSelects⟩)
  intro word first second hfirst hsecond
  have hsome := (Grammar.requireContextFree_eq_ok_iff.mp hstart).1
  have hroot : first.root = start :=
    Option.some.inj (hfirst.start_eq.symm.trans hsome)
  have hrootSecond : second.root = start :=
    Option.some.inj (hsecond.start_eq.symm.trans hsome)
  have hstack : g.Supported start [first.root] := by
    rw [hroot]
    exact Grammar.supported_start
  have heq : first.frontier ++ [] = second.frontier ++ [] := by
    rw [hfirst.frontier_eq, hsecond.frontier_eq]
  have hword : Form.isTerminal (first.frontier ++ []) = true := by
    rw [List.append_nil, hfirst.frontier_eq]
    exact hfirst.terminal
  exact (Tree.forced hone first second [] [] [] hfirst.valid hsecond.valid
    (hroot.trans hrootSecond.symm) hstack .nil .nil heq hword).1

end PredictiveTable

end FormalGrammars
