import FormalGrammars.Proofs.Predictive.Derivation
import FormalGrammars.Proofs.ShiftReduce.Forest

/-!
# Nothing is consumed past the first error

When the start and all variables are productive, a parser that is driven by a
table has consumed a prefix of some string of the language, at every moment and
whatever conflicts its table has.  For a predictive parser the stack completes
the consumed input, because the two are a form that the start derives.  For a
shift-reduce parser the stacked symbols yield the consumed input, and they can
be continued because the stack is a path through the automaton.
-/

namespace FormalGrammars

namespace Grammar

variable {g : Grammar} {start : Symbol}

/-- The start and every variable derive some terminal string. -/
def AllProductive (g : Grammar) (start : Symbol) : Prop :=
  ∀ s, s = start ∨ s ∈ g.variables →
    ∃ word, Form.isTerminal word = true ∧ g.Derives [s] word

theorem AllProductive.produces (hg : g.ContextFree)
    (hproductive : g.AllProductive start) {s : Symbol}
    (hs : s = start ∨ s ∈ g.variables) : g.Produces [s] := by
  rcases hproductive s hs with ⟨word, hword, hderives⟩
  exact ⟨word, hword, (yields_iff_derives hg).mpr hderives⟩

/-- A terminal front part of a derived form is the front part of a string of
the language. -/
theorem AllProductive.exists_language (hg : g.Consistent)
    (hstart : g.requireContextFree = .ok start)
    (hproductive : g.AllProductive start) {consumed behind : Form}
    (hterm : Form.isTerminal consumed = true)
    (hyields : g.Yields [start] (consumed ++ behind)) :
    ∃ rest, g.Language (consumed ++ rest) := by
  have hfree := (requireContextFree_eq_ok_iff.mp hstart).2
  obtain ⟨rest, _, _, hlanguage⟩ := hg.exists_completion hstart
    (hproductive.produces hfree (.inl rfl))
    (fun _ hs => hproductive.produces hfree (.inr hs)) hterm hyields
  exact ⟨rest, hlanguage⟩

end Grammar

variable {g : Grammar} {start : Symbol} {input : Form}

theorem PredictiveParser.Traced.exists_language {parser : PredictiveParser}
    (hg : g.Consistent) (hstart : g.requireContextFree = .ok start)
    (hproductive : g.AllProductive start)
    (hparser : parser.Traced g start input) :
    ∃ consumed rest, input = consumed ++ parser.remaining ∧
      g.Language (consumed ++ rest) := by
  have hfree := (Grammar.requireContextFree_eq_ok_iff.mp hstart).2
  have hderives := Form.rewriteAllLeftmost?_derives hparser.applied_mem
    hparser.sentential_eq
  have hyields := (Grammar.yields_iff_derives hfree).mpr hderives
  obtain ⟨rest, hlanguage⟩ := hproductive.exists_language hg hstart
    hparser.consumed_isTerminal hyields
  exact ⟨parser.consumed, rest, hparser.input_eq.symm, hlanguage⟩

theorem ShiftReduceParser.Carries.exists_language {table : SlrTable}
    {parser : ShiftReduceParser} {forest : List Tree} (hg : g.Consistent)
    (hstart : g.requireContextFree = .ok start)
    (htable : table.Describes g start) (hproductive : g.AllProductive start)
    (hparser : parser.Carries g table input forest) :
    ∃ consumed rest, input = consumed ++ parser.remaining ∧
      g.Language (consumed ++ rest) := by
  obtain ⟨behind, hyields⟩ := hparser.path.exists_continuation hg htable
  have hconsumed := hparser.valid.yields
  rw [hparser.roots_eq] at hconsumed
  obtain ⟨rest, hlanguage⟩ := hproductive.exists_language hg hstart
    hparser.consumed_isTerminal (hyields.trans (hconsumed.append (.refl behind)))
  exact ⟨_, rest, hparser.input_eq.symm, hlanguage⟩

/-- At every moment of a run, and after its end, the consumed input is the
front part of a string of the language. -/
theorem Grammar.consumed_extends_to_language (hg : g.Consistent)
    (hstart : g.requireContextFree = .ok start)
    (hproductive : g.AllProductive start) :
    ∃ (predictive : PredictiveTable) (slr : SlrTable),
      PredictiveTable.ofGrammar g = .ok predictive ∧
      SlrTable.ofGrammar g = .ok slr ∧
      ∀ (schedule : Schedule) (input : Form),
        (∀ parser, Reaches (PredictiveParser.step predictive)
            PredictiveParser.cancel
            (PredictiveParser.start predictive schedule input) parser →
          ∃ consumed rest, input = consumed ++ parser.remaining ∧
            g.Language (consumed ++ rest)) ∧
        (∀ parser, Reaches (ShiftReduceParser.step slr)
            ShiftReduceParser.cancel
            (ShiftReduceParser.start schedule input) parser →
          ∃ consumed rest, input = consumed ++ parser.remaining ∧
            g.Language (consumed ++ rest)) := by
  obtain ⟨predictive, hpredictive⟩ := PredictiveTable.ofGrammar_eq_ok hstart
  obtain ⟨slr, hslr⟩ := SlrTable.ofGrammar_eq_ok hstart
  have hentries := PredictiveParser.entriesFrom_ofGrammar hg hstart hpredictive
  have htableStart := PredictiveTable.start_ofGrammar hstart hpredictive
  have hdescribes := SlrTable.describes_ofGrammar hg hstart hslr
  refine ⟨predictive, slr, hpredictive, hslr, ?_⟩
  intro schedule input
  constructor
  · intro parser hreaches
    have hparser := PredictiveParser.Traced.of_reaches hentries hreaches
    rw [htableStart] at hparser
    exact hparser.exists_language hg hstart hproductive
  · intro parser hreaches
    obtain ⟨forest, hforest⟩ :=
      ShiftReduceParser.exists_forest_of_reaches hg hdescribes hreaches
    exact hforest.exists_language hg hstart hdescribes hproductive

theorem ShiftReduceParser.allProductive_bracketed :
    bracketed.AllProductive (.var "S") := by
  have hvariables : bracketed.variables = [.var "S"] := rfl
  intro s hs
  rw [hvariables, List.mem_singleton, or_self] at hs
  have hmem : Production.rule (.var "S") [.term "c"] ∈ bracketed.productions := by
    decide
  exact ⟨[.term "c"], rfl, hs ▸ .of_production hmem rfl⟩

/-- Both parsers have consumed `ac` when they reject `acc`. -/
theorem ShiftReduceParser.bracketed_consumed_extends :
    ∃ (predictive : PredictiveTable) (slr : SlrTable),
      PredictiveTable.ofGrammar bracketed = .ok predictive ∧
      SlrTable.ofGrammar bracketed = .ok slr ∧
      bracketed.AllProductive (.var "S") ∧
      (∃ consumed rest, [.term "a", .term "c", .term "c"] = consumed ++
          (stepTimes (PredictiveParser.step predictive .always) 5
            (PredictiveParser.start predictive {}
              [.term "a", .term "c", .term "c"])).remaining ∧
        bracketed.Language (consumed ++ rest)) ∧
      (stepTimes (step slr .always) 3 (ShiftReduceParser.start {}
        [.term "a", .term "c", .term "c"])).remaining = [.term "c"] ∧
      ∃ rest, bracketed.Language (.term "a" :: .term "c" :: rest) := by
  obtain ⟨predictive, slr, hpredictive, hslr, hall⟩ :=
    Grammar.consumed_extends_to_language (g := bracketed)
      (Grammar.consistent_of_start rfl _) rfl allProductive_bracketed
  obtain ⟨hleft, hright⟩ := hall {} [.term "a", .term "c", .term "c"]
  have hrun : ∃ built, SlrTable.ofGrammar bracketed = .ok built ∧
      (stepTimes (step built .always) 3 (ShiftReduceParser.start {}
        [.term "a", .term "c", .term "c"])).remaining = [.term "c"] :=
    ⟨_, rfl, by decide +kernel⟩
  obtain ⟨built, hbuilt, hremaining⟩ := hrun
  rw [hslr] at hbuilt
  cases hbuilt
  obtain ⟨consumed, rest, hinput, hlanguage⟩ :=
    hright _ (reaches_stepTimes .always 3)
  have hconsumed : [Symbol.term "a", .term "c"] = consumed := by
    rw [hremaining] at hinput
    exact List.append_cancel_right hinput
  rw [← hconsumed] at hlanguage
  exact ⟨predictive, slr, hpredictive, hslr, allProductive_bracketed,
    hleft _ (reaches_stepTimes .always 5), hremaining, rest, hlanguage⟩

end FormalGrammars
