import FormalGrammars.Proofs.ShiftReduce.Decision

/-!
# Conflict-free SLR(1) tables and ambiguity

The run on a word is one run, and on the frontier of a complete tree it
accepts with the rightmost derivation of the tree.  A tree with terminal
leaves is determined by its root and its rightmost derivation, so there is one
complete tree at most.
-/

namespace FormalGrammars

namespace Tree

variable {g : Grammar}

/-- The root and what the rightmost derivation begins with determine the
tree. -/
def Readable (g : Grammar) (first : Tree) : Prop :=
  ∀ (second : Tree) (left right : List Production),
    first.ValidFor g → second.ValidFor g → first.root = second.root →
    Form.isTerminal first.frontier = true →
    Form.isTerminal second.frontier = true →
    first.rightmost ++ left = second.rightmost ++ right →
    first = second ∧ left = right

/-- A leaf is terminal, and a node is not. -/
theorem root_isVar_eq {tree : Tree} (hvalid : tree.ValidFor g)
    (hword : Form.isTerminal tree.frontier = true) :
    tree.root.isVar = true ↔ ∃ s p children, tree = .node s p children := by
  cases tree with
  | leaf s =>
      simp only [frontier, Form.isTerminal, List.all_cons, List.all_nil,
        Bool.and_true, Symbol.isTerm_eq_not_isVar] at hword
      simpa [root] using hword
  | node s p children =>
      exact ⟨fun _ => ⟨s, p, children, rfl⟩,
        fun _ => Grammar.isVar_of_head? hvalid.2.1⟩

theorem readable_forest {firsts seconds : List Tree}
    {left right : List Production}
    (hreadable : ∀ tree ∈ firsts, Readable g tree)
    (hfirsts : AllValidFor g firsts) (hseconds : AllValidFor g seconds)
    (hroots : firsts.map root = seconds.map root)
    (hfirstsWord : Form.isTerminal (frontierOfAll firsts) = true)
    (hsecondsWord : Form.isTerminal (frontierOfAll seconds) = true)
    (heq : rightmostOfAll firsts ++ left = rightmostOfAll seconds ++ right) :
    firsts = seconds ∧ left = right := by
  induction firsts generalizing seconds left right with
  | nil =>
      rw [List.map_nil] at hroots
      rw [List.map_eq_nil_iff.mp hroots.symm] at heq ⊢
      exact ⟨rfl, heq⟩
  | cons first firsts ih =>
      rw [List.map_cons] at hroots
      obtain ⟨second, seconds, rfl, hroot, htails⟩ :=
        List.map_eq_cons_iff.mp hroots.symm
      simp only [frontierOfAll, Grammar.isTerminal_append] at hfirstsWord hsecondsWord
      simp only [rightmostOfAll, List.append_assoc] at heq
      -- The last tree is rewritten first.
      obtain ⟨rfl, hbehind⟩ := ih
        (fun tree htree => hreadable tree (List.mem_cons_of_mem first htree))
        hfirsts.2 hseconds.2 htails.symm hfirstsWord.2 hsecondsWord.2 heq
      obtain ⟨rfl, hrest⟩ := hreadable first List.mem_cons_self second left
        right hfirsts.1 hseconds.1 hroot.symm hfirstsWord.1 hsecondsWord.1
        hbehind
      exact ⟨rfl, hrest⟩

theorem readable (first : Tree) : Readable g first := by
  induction first using Tree.induction with
  | leaf s =>
      intro second left right hfirst hsecond hroot hword hwordOther heq
      cases second with
      | leaf t =>
          simp only [root] at hroot
          subst hroot
          exact ⟨rfl, heq⟩
      | node t q others =>
          have hvar : s.isVar = true := by
            simp only [root] at hroot
            rw [hroot]
            exact Grammar.isVar_of_head? hsecond.2.1
          obtain ⟨_, _, _, hnode⟩ := (root_isVar_eq hfirst hword).mp hvar
          cases hnode
  | node s p children ih =>
      rintro second left right hfirst hsecond hroot hword hwordOther heq
      have hvar : second.root.isVar = true := by
        rw [← hroot]
        exact Grammar.isVar_of_head? hfirst.2.1
      obtain ⟨t, q, others, rfl⟩ := (root_isVar_eq hsecond hwordOther).mp hvar
      simp only [root] at hroot
      subst hroot
      simp only [rightmost, List.cons_append, List.cons.injEq] at heq
      obtain ⟨rfl, heq⟩ := heq
      obtain ⟨-, -, hroots, hchildren⟩ := hfirst
      obtain ⟨-, -, hrootsOther, hothers⟩ := hsecond
      obtain ⟨rfl, hrest⟩ := readable_forest ih hchildren hothers
        (hroots.trans hrootsOther.symm) hword hwordOther heq
      exact ⟨rfl, hrest⟩

end Tree

namespace SlrTable

variable {g : Grammar} {table : SlrTable}

theorem unambiguous_of_conflictFree (hg : g.Consistent)
    (htable : ofGrammar g = .ok table) (hfree : table.isConflictFree = true) :
    g.Unambiguous := by
  obtain ⟨start, hstart⟩ := exists_start_of_ofGrammar htable
  have hdescribes := describes_ofGrammar hg hstart htable
  have hsome := (Grammar.requireContextFree_eq_ok_iff.mp hstart).1
  intro word first second hfirst hsecond
  have hfixed : ∀ (done : List Production) (parser : ShiftReduceParser),
      parser.Accepted table done → parser.step table .always = parser :=
    fun _ _ haccepted => ShiftReduceParser.step_of_hasEnded (by
      simp [ShiftReduceParser.hasEnded, haccepted.1])
  obtain ⟨last, ⟨-, hleft⟩, ⟨-, hright⟩⟩ := Comes.unique
    (ShiftReduceParser.comes_accepted hdescribes hfree hsome hfirst {})
    (ShiftReduceParser.comes_accepted hdescribes hfree hsome hsecond {})
    (hfixed _) (hfixed _)
  have hroot : first.root = second.root :=
    Option.some.inj (hfirst.start_eq.symm.trans hsecond.start_eq)
  have hword := hfirst.terminal
  refine (Tree.readable first second [] [] hfirst.valid hsecond.valid hroot
    ?_ ?_ ?_).1
  · rw [hfirst.frontier_eq]
    exact hword
  · rw [hsecond.frontier_eq]
    exact hword
  · rw [← hleft, ← hright]

end SlrTable

end FormalGrammars
