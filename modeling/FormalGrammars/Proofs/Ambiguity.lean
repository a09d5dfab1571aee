import FormalGrammars.Proofs.Predictive.Unambiguity
import FormalGrammars.Proofs.ShiftReduce.Unambiguity

/-!
# Tables and ambiguity

A table without conflicts, of either kind, is proof that the grammar is not
ambiguous; so an ambiguous grammar has a conflict in both of its tables.
-/

namespace FormalGrammars.Grammar

variable {g : Grammar} {start : Symbol}

theorem ambiguous_has_conflicts (hg : g.Consistent)
    (hstart : g.requireContextFree = .ok start) :
    ∃ (predictive : PredictiveTable) (slr : SlrTable),
      PredictiveTable.ofGrammar g = .ok predictive ∧
      SlrTable.ofGrammar g = .ok slr ∧
      (predictive.isConflictFree = true ∨ slr.isConflictFree = true →
        g.Unambiguous) ∧
      (¬ g.Unambiguous → predictive.conflicts ≠ [] ∧ slr.conflicts ≠ []) := by
  obtain ⟨predictive, hpredictive⟩ := PredictiveTable.ofGrammar_eq_ok hstart
  obtain ⟨slr, hslr⟩ := SlrTable.ofGrammar_eq_ok hstart
  have hleft := PredictiveTable.unambiguous_of_conflictFree hg hpredictive
  have hright := SlrTable.unambiguous_of_conflictFree hg hslr
  refine ⟨predictive, slr, hpredictive, hslr, ?_, fun hambiguous => ⟨?_, ?_⟩⟩
  · rintro (hfree | hfree)
    · exact hleft hfree
    · exact hright hfree
  · intro hnone
    exact hambiguous (hleft (List.isEmpty_iff.mpr hnone))
  · intro hnone
    exact hambiguous (hright (List.isEmpty_iff.mpr hnone))

/-- `S → S | a`. -/
def cyclic : Grammar :=
  Grammar.withProductions { start := some (.var "S") }
    [.rule (.var "S") [.var "S"], .rule (.var "S") [.term "a"]]

theorem not_unambiguous_cyclic : ¬ cyclic.Unambiguous := by
  intro hunambiguous
  have hshort : Tree.CompleteFor cyclic [.term "a"]
      (.node (.var "S") (.rule (.var "S") [.term "a"]) [.leaf (.term "a")]) :=
    ⟨⟨by decide, rfl, rfl, trivial, trivial⟩, rfl, rfl, rfl⟩
  have hlong : Tree.CompleteFor cyclic [.term "a"]
      (.node (.var "S") (.rule (.var "S") [.var "S"])
        [.node (.var "S") (.rule (.var "S") [.term "a"])
          [.leaf (.term "a")]]) :=
    ⟨⟨by decide, rfl, rfl, hshort.valid, trivial⟩, rfl, rfl, rfl⟩
  have hsame := hunambiguous _ _ _ hshort hlong
  injection hsame with _ hproduction _
  exact absurd hproduction (by decide)

theorem cyclic_has_conflicts :
    ∃ (predictive : PredictiveTable) (slr : SlrTable),
      PredictiveTable.ofGrammar cyclic = .ok predictive ∧
      SlrTable.ofGrammar cyclic = .ok slr ∧
      predictive.conflicts ≠ [] ∧ slr.conflicts ≠ [] := by
  have hstart : cyclic.requireContextFree = .ok (.var "S") := rfl
  obtain ⟨predictive, slr, hpredictive, hslr, _, hconflicts⟩ :=
    ambiguous_has_conflicts (consistent_of_start rfl _) hstart
  exact ⟨predictive, slr, hpredictive, hslr, hconflicts not_unambiguous_cyclic⟩

end FormalGrammars.Grammar
