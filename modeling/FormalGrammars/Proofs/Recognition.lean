import FormalGrammars.Proofs.Chart
import FormalGrammars.Proofs.Elimination.Lambda
import FormalGrammars.Proofs.Elimination.Unit
import FormalGrammars.Proofs.Elimination.Useless
import FormalGrammars.Proofs.NormalForm.Chomsky
import FormalGrammars.Proofs.Replay

/-!
# Recognition by normalization is right

The stages of a normalization keep the non-empty terminal strings, and a tree
in normal form is carried back through them to a tree of the first grammar.
So an input is accepted exactly when it is in the language, with a derivation
that can be replayed; otherwise the language is reported empty or the input is
rejected.
-/

namespace FormalGrammars

variable {g : Grammar} {start : Symbol} {n : Normalization} {word : Form}

/-! ## Normalization -/

namespace Normalization

structure Describes (g : Grammar) (start : Symbol) (n : Normalization) :
    Prop where
  start_eq : g.requireContextFree = .ok start
  lambda : n.lambda.Describes g start
  unit : n.unit.Describes n.lambda.grammar
  useless : n.useless.Describes n.unit.grammar start
  chomsky : n.chomsky.Describes n.useless.grammar

/-- The stages of a normalization that succeeds. -/
theorem stages_of_normalize {naming : Naming}
    (hn : g.normalize naming = .ok n) :
    g.eliminateLambda = .ok n.lambda ∧
      n.lambda.grammar.eliminateUnits = .ok n.unit ∧
      n.unit.grammar.eliminateUseless = .ok n.useless ∧
      n.useless.grammar.toChomskyForm naming = .ok n.chomsky := by
  unfold Grammar.normalize at hn
  cases hlambda : g.eliminateLambda with
  | error fault => simp [hlambda, bind, Except.bind] at hn
  | ok lambda =>
      cases hunit : lambda.grammar.eliminateUnits with
      | error fault => simp [hlambda, hunit, bind, Except.bind] at hn
      | ok unit =>
          cases huseless : unit.grammar.eliminateUseless with
          | error fault =>
              simp [hlambda, hunit, huseless, bind, Except.bind] at hn
          | ok useless =>
              cases hchomsky : useless.grammar.toChomskyForm naming with
              | error fault =>
                  simp [hlambda, hunit, huseless, hchomsky, bind,
                    Except.bind] at hn
              | ok chomsky =>
                  simp only [hlambda, hunit, huseless, hchomsky, bind,
                    Except.bind] at hn
                  cases hn
                  exact ⟨rfl, hunit, huseless, hchomsky⟩

theorem describes_normalize (hg : g.Consistent) {naming : Naming}
    (hn : g.normalize naming = .ok n) : ∃ start, n.Describes g start := by
  obtain ⟨hlambda, hunit, huseless, hchomsky⟩ := stages_of_normalize hn
  cases hstart : g.requireContextFree with
  | error fault =>
      simp only [Grammar.eliminateLambda, hstart, bind, Except.bind] at hlambda
      cases hlambda
  | ok start =>
      obtain ⟨lambda, hlambda', hfirst⟩ :=
        LambdaElimination.describes_eliminateLambda hstart
      cases hlambda.symm.trans hlambda'
      have hlambdaStart := hfirst.requireContextFree_eq_ok hstart
      obtain ⟨unit, hunit', hsecond⟩ :=
        UnitElimination.describes_eliminateUnits hlambdaStart
      cases hunit.symm.trans hunit'
      have hunitStart := hsecond.requireContextFree_eq_ok hlambdaStart
      obtain ⟨useless, huseless', hthird⟩ :=
        UselessElimination.describes_eliminateUseless
          (hsecond.consistent (hfirst.consistent hg)) hunitStart
      cases huseless.symm.trans huseless'
      exact ⟨start, hstart, hfirst, hsecond, hthird,
        ChomskyForm.describes_toChomskyForm hthird.consistent
          hthird.requireContextFree_eq_ok hchomsky⟩

variable (hn : n.Describes g start)

include hn

theorem Describes.requireContextFree_eq_ok :
    n.grammar.requireContextFree = .ok start :=
  hn.chomsky.requireContextFree_eq_ok hn.useless.requireContextFree_eq_ok

theorem Describes.requireStart_lambda :
    n.lambda.grammar.requireStart = .ok start := by
  rw [Grammar.requireStart_eq_ok_iff, hn.lambda.grammar_eq,
    Grammar.start_withProductions]
  exact (Grammar.requireContextFree_eq_ok_iff.mp hn.start_eq).1

theorem Describes.start_grammar : n.grammar.start = some start :=
  (Grammar.requireContextFree_eq_ok_iff.mp hn.requireContextFree_eq_ok).1

theorem Describes.yields_iff (hword : Form.isTerminal word = true)
    (hne : word ≠ []) :
    n.unit.grammar.Yields [start] word ↔ g.Yields [start] word :=
  (hn.unit.yields_iff hword).trans (hn.lambda.yields_iff hne)

theorem Describes.yields_of_language (hlanguage : g.Language word)
    (hne : word ≠ []) : n.grammar.Yields [start] word := by
  obtain ⟨hword, hyields⟩ := (Grammar.language_iff_yields hn.start_eq).mp hlanguage
  have hunit := (hn.yields_iff hword hne).mpr hyields
  exact hn.chomsky.yields_of_yields (hn.useless.yields_terminal word hword hunit)

theorem Describes.emptyLanguage_iff :
    n.useless.emptyLanguage = true ↔ ∀ other, g.Language other → other = [] := by
  rw [hn.useless.emptyLanguage_iff]
  have hlanguage : ∀ other, g.Language other ↔
      Form.isTerminal other = true ∧ g.Yields [start] other :=
    fun _ => Grammar.language_iff_yields hn.start_eq
  constructor
  · intro hall other hother
    obtain ⟨hword, hyields⟩ := (hlanguage other).mp hother
    apply Classical.byContradiction
    intro hne
    exact hne (hall other hword ((hn.yields_iff hword hne).mpr hyields))
  · intro hall other hword hyields
    apply Classical.byContradiction
    intro hne
    have hfirst := (hn.yields_iff hword hne).mp hyields
    exact hne (hall other ((hlanguage other).mpr ⟨hword, hfirst⟩))

/-- With a terminal left, the start is in some production. -/
theorem Describes.exists_start_mem_symbols
    (hterminals : n.useless.emptyLanguage = false) :
    ∃ p ∈ n.useless.grammar.productions, start ∈ p.symbols := by
  rw [hn.useless.emptyLanguage_eq, List.isEmpty_eq_false_iff] at hterminals
  obtain ⟨t, ht⟩ := List.exists_mem_of_ne_nil _ hterminals
  obtain ⟨_, p, hp, _⟩ := hn.useless.consistent.mem_terminals_iff.mp ht
  exact (hn.useless.consistent.mem_variables_iff.mp
    (hn.useless.start_mem_variables hp)).2

/-- So it is no helper. -/
theorem Describes.start_not_mem_helpers
    (hterminals : n.useless.emptyLanguage = false) :
    start ∉ n.chomsky.helpers.keys := by
  obtain ⟨p, hp, hs⟩ := hn.exists_start_mem_symbols hterminals
  exact hn.chomsky.helpers_new p hp start hs

theorem Describes.completeFor_restore
    (hterminals : n.useless.emptyLanguage = false) {tree : Tree}
    (htree : tree.CompleteFor n.grammar word) :
    (n.restore tree).CompleteFor g word := by
  have hroot : tree.root = start :=
    Option.some.inj (htree.start_eq.symm.trans hn.start_grammar)
  have hword : Form.isTerminal tree.frontier = true :=
    htree.frontier_eq ▸ htree.terminal
  have hchomsky := hn.chomsky.restores htree.valid hword
    (hroot ▸ hn.start_not_mem_helpers hterminals)
  have huseless : (n.chomsky.restore tree).ValidFor n.unit.grammar :=
    Tree.ValidFor.mono hn.useless.subset _ hchomsky.valid
  have hunit := hn.unit.restores _ huseless
  have hlambda := hn.lambda.restores _ hunit.valid
  have hroots := (hlambda.root_eq.trans hunit.root_eq).trans hchomsky.root_eq
  have hstart := (Grammar.requireContextFree_eq_ok_iff.mp hn.start_eq).1
  refine ⟨hlambda.valid, ?_, ?_, htree.terminal⟩
  · exact hstart.trans (congrArg some (hroots.trans hroot).symm)
  · exact ((hlambda.frontier_eq.trans hunit.frontier_eq).trans
      hchomsky.frontier_eq).trans htree.frontier_eq

end Normalization

/-! ## Recognition -/

namespace Recognition

/-- The answer is right for the grammar and the input. -/
structure RightFor (g : Grammar) (word : Form) (result : Recognition) :
    Prop where
  accepted_iff : (∃ tree, result = accepted tree) ↔ g.Language word
  replay : ∀ tree, result = accepted tree → g.replay tree.steps = .ok word
  emptyLanguage_iff : result = emptyLanguage ↔
    word ≠ [] ∧ ∀ other, g.Language other → other = []
  rejected_iff : result = rejected ↔ ¬ g.Language word ∧
    ¬ (word ≠ [] ∧ ∀ other, g.Language other → other = [])

theorem language_of_completeFor {tree : Tree}
    (htree : tree.CompleteFor g word) : g.Language word := by
  have hyields := Tree.ValidFor.yields tree htree.valid
  rw [htree.frontier_eq] at hyields
  exact ⟨htree.terminal, tree.root, htree.start_eq, hyields.derives⟩

theorem rightFor_accepted {tree : Tree} (htree : tree.CompleteFor g word) :
    RightFor g word (accepted tree) := by
  have hlanguage := language_of_completeFor htree
  constructor
  · exact iff_of_true ⟨tree, rfl⟩ hlanguage
  · intro other hother
    cases hother
    rw [Tree.replay_steps htree.valid htree.start_eq, htree.frontier_eq]
  · exact iff_of_false (by simp) fun h => h.1 (h.2 word hlanguage)
  · exact iff_of_false (by simp) fun h => h.1 hlanguage

theorem rightFor_emptyLanguage (hne : word ≠ [])
    (hempty : ∀ other, g.Language other → other = []) :
    RightFor g word emptyLanguage := by
  constructor
  · exact iff_of_false (by simp) fun h => hne (hempty word h)
  · simp
  · exact iff_of_true rfl ⟨hne, hempty⟩
  · exact iff_of_false (by simp) fun h => h.2 ⟨hne, hempty⟩

theorem rightFor_rejected (hlanguage : ¬ g.Language word)
    (hempty : ¬ (word ≠ [] ∧ ∀ other, g.Language other → other = [])) :
    RightFor g word rejected := by
  constructor
  · exact iff_of_false (by simp) hlanguage
  · simp
  · exact iff_of_false (by simp) hempty
  · exact iff_of_true rfl ⟨hlanguage, hempty⟩

/-- An answer for the reason for which it is given. -/
inductive Settles (g : Grammar) (word : Form) : Recognition → Prop where
  | accepted {tree : Tree} (htree : tree.CompleteFor g word) :
      Settles g word (accepted tree)
  | emptyLanguage (hne : word ≠ [])
      (hempty : ∀ other, g.Language other → other = []) :
      Settles g word emptyLanguage
  | rejected (hlanguage : ¬ g.Language word)
      (hempty : ¬ (word ≠ [] ∧ ∀ other, g.Language other → other = [])) :
      Settles g word rejected

theorem Settles.rightFor {result : Recognition}
    (hsettles : result.Settles g word) : result.RightFor g word := by
  cases hsettles with
  | accepted htree => exact rightFor_accepted htree
  | emptyLanguage hne hempty => exact rightFor_emptyLanguage hne hempty
  | rejected hlanguage hempty => exact rightFor_rejected hlanguage hempty

end Recognition

namespace Normalization

/-- The empty input is decided by the nullable variables. -/
theorem Describes.settles_nil (hn : n.Describes g start) :
    ∃ result, n.recognize [] = .ok result ∧ result.Settles g [] := by
  have hstart := (Grammar.requireContextFree_eq_ok_iff.mp hn.start_eq).1
  unfold recognize
  rw [hn.requireStart_lambda]
  simp only [bind, Except.bind, List.isEmpty_nil, if_true, pure, Except.pure]
  cases hnull : n.lambda.startDerivesLambda with
  | true =>
      have hcontains : g.nullability.contains start = true :=
        hn.lambda.start_iff.symm.trans hnull
      obtain ⟨tree, htree, hempty⟩ :=
        Nullability.exists_emptyTree?_of_contains hcontains
      rw [hn.lambda.nullability_eq, htree]
      refine ⟨.accepted tree, rfl, .accepted ?_⟩
      exact ⟨hempty.valid, hempty.root_eq ▸ hstart, hempty.frontier_eq, rfl⟩
  | false =>
      refine ⟨.rejected, rfl, .rejected ?_ (by simp)⟩
      intro hlanguage
      obtain ⟨_, hyields⟩ :=
        (Grammar.language_iff_yields hn.start_eq).mp hlanguage
      have hcontains := Nullability.contains_iff_yields.mpr hyields
      rw [← hn.lambda.start_iff, hnull] at hcontains
      cases hcontains

/-- Any other input is looked up in a chart, unless no terminal is left. -/
theorem Describes.settles_of_ne_nil (hn : n.Describes g start)
    (hne : word ≠ []) :
    ∃ result, n.recognize word = .ok result ∧ result.Settles g word := by
  unfold recognize
  rw [hn.requireStart_lambda, List.isEmpty_eq_false_iff.mpr hne]
  simp only [bind, Except.bind, Bool.false_eq_true, if_false, pure, Except.pure]
  cases hempty : n.useless.emptyLanguage with
  | true =>
      exact ⟨.emptyLanguage, rfl,
        .emptyLanguage hne (hn.emptyLanguage_iff.mp hempty)⟩
  | false =>
      have hnormal : Chart.InNormalForm n.grammar :=
        fun q hq => hn.chomsky.isChomsky hq
      have hparser := ChartParser.ofGrammar_eq_ok hnormal
        hn.requireContextFree_eq_ok word
      simp only [hparser, Bool.false_eq_true, if_false]
      refine ⟨_, rfl, ?_⟩
      cases htree : (ChartParser.idle n.grammar start word).run.tree? with
      | some tree =>
          exact .accepted (hn.completeFor_restore hempty
            (ChartParser.completeFor_of_tree?_run hnormal hn.start_grammar hne
              htree))
      | none =>
          apply Recognition.Settles.rejected
          · intro hlanguage
            obtain ⟨tree, hsome⟩ := ChartParser.exists_tree?_run hnormal
              hn.chomsky.consistent hn.start_grammar hlanguage.1 hne
              (hn.yields_of_language hlanguage hne)
            rw [htree] at hsome
            cases hsome
          · rintro ⟨_, hall⟩
            rw [hn.emptyLanguage_iff.mpr hall] at hempty
            cases hempty

theorem Describes.exists_settles (hn : n.Describes g start) (word : Form) :
    ∃ result, n.recognize word = .ok result ∧ result.Settles g word := by
  by_cases hne : word = []
  · subst hne
    exact hn.settles_nil
  · exact hn.settles_of_ne_nil hne

theorem Describes.recognize_nil (hn : n.Describes g start) :
    ∃ result, n.recognize [] = .ok result ∧ result.RightFor g [] := by
  obtain ⟨result, hresult, hsettles⟩ := hn.settles_nil
  exact ⟨result, hresult, hsettles.rightFor⟩

theorem Describes.recognize_of_ne_nil (hn : n.Describes g start)
    (hne : word ≠ []) :
    ∃ result, n.recognize word = .ok result ∧ result.RightFor g word := by
  obtain ⟨result, hresult, hsettles⟩ := hn.settles_of_ne_nil hne
  exact ⟨result, hresult, hsettles.rightFor⟩

/-- Every input is answered, and the answer is right. -/
theorem recognize_rightFor (hg : g.Consistent) {naming : Naming}
    (hn : g.normalize naming = .ok n) (word : Form) :
    ∃ result, n.recognize word = .ok result ∧ result.RightFor g word := by
  obtain ⟨start, hn⟩ := describes_normalize hg hn
  by_cases hne : word = []
  · subst hne
    exact hn.recognize_nil
  · exact hn.recognize_of_ne_nil hne

/-- `S → aSb | T` and `T → cT | λ`, where every stage has something to do. -/
def filledPairs : Grammar :=
  Grammar.withProductions { start := some (.var "S") }
    [.rule (.var "S") [.term "a", .var "S", .term "b"],
      .rule (.var "S") [.var "T"],
      .rule (.var "T") [.term "c", .var "T"],
      .rule (.var "T") [],
      .rule (.var "T") [.var "U", .term "c"]]

theorem recognize_rightFor_filledPairs :
    ∃ n, filledPairs.normalize .numbered = .ok n ∧
      ∃ result, n.recognize [.term "a", .term "c", .term "b"] = .ok result ∧
        result.RightFor filledPairs [.term "a", .term "c", .term "b"] := by
  have hbuilt : ∃ n, filledPairs.normalize .numbered = .ok n := ⟨_, rfl⟩
  obtain ⟨n, hn⟩ := hbuilt
  exact ⟨n, hn, recognize_rightFor (Grammar.consistent_of_start rfl _) hn _⟩

end Normalization

end FormalGrammars
