import FormalGrammars.Proofs.Replay
import FormalGrammars.Proofs.Tabulation

/-!
# The derivation a chart parser gives

After any number of steps a chart parser is idle, has filled the rows up to
some length, or has turned the input down.  Only a full chart with the start in
its last cell is accepted, and there the reasons of the cells lead from the
start down to every symbol of the input.  The tree that is read off this way is
a derivation of the input that can be replayed; before, and after a rejection,
there is none.
-/

namespace FormalGrammars.ChartParser

variable {g : Grammar} {start : Symbol} {input : Form} {parser : ChartParser}

theorem tree?_eq_none (hstatus : parser.status ≠ .accepted) :
    parser.tree? = none := by
  unfold tree?
  cases hparser : parser.status with
  | accepted => exact absurd hparser hstatus
  | idle => rfl
  | running length => rfl
  | rejected => rfl

/-- The parser before its first step, and after it the one that runs or has
ended, with the rows that it has filled. -/
inductive Stage (g : Grammar) (start : Symbol) (input : Form) :
    ChartParser → Prop where
  | idle : Stage g start input (idle g start input)
  | turnedDown (hspells : ¬ g.Spells input) : Stage g start input
      { ChartParser.idle g start input with status := .rejected }
  | filled {length : Nat} {parser : ChartParser}
      (hspells : g.Spells input) (hle : length ≤ input.length)
      (hrunning : Running g start input length parser) :
      Stage g start input parser

theorem stage_stepTimes (hform : Chart.InNormalForm g) (count : Nat) :
    Stage g start input (stepTimes step count (idle g start input)) := by
  cases count with
  | zero => exact .idle
  | succ count =>
      have hpos := Nat.succ_pos count
      by_cases hspells : g.Spells input
      · by_cases hle : count + 1 ≤ input.length
        · exact .filled hspells hle
            (running_stepTimes_of_spells hform hspells hpos hle)
        · -- the steps after the last row change nothing
          rw [stepTimes_eq_last hform hspells (by omega)]
          exact .filled hspells (Nat.le_refl _)
            (running_stepTimes_of_spells hform hspells
              (List.length_pos_iff.mpr hspells.1) (Nat.le_refl _))
      · rw [stepTimes_of_not_spells hspells hpos]
        exact .turnedDown hspells

/-- There is a derivation of the input when the parser has accepted it, and
none otherwise. -/
structure Traces (g : Grammar) (input : Form) (parser : ChartParser) : Prop where
  exists_tree? : parser.status = .accepted →
    ∃ tree, parser.tree? = some tree ∧ tree.CompleteFor g input ∧
      g.replay tree.steps = .ok input
  tree?_eq_none : parser.status ≠ .accepted → parser.tree? = none

theorem Stage.traces (hstart : g.start = some start)
    (hstage : Stage g start input parser) : Traces g input parser := by
  constructor
  · intro haccepted
    cases hstage with
    | idle => cases haccepted
    | turnedDown _ => cases haccepted
    | @filled length _ hspells hle hrunning =>
        have hall : length = input.length := by
          by_contra hne
          rw [hrunning.status_eq_running (by omega)] at haccepted
          cases haccepted
        rw [hall] at hrunning
        rcases hrunning.exists_tree? haccepted with
          ⟨tree, htree, hvalid, hroot, hfrontier⟩
        have hrooted : g.start = some tree.root := by rw [hroot, hstart]
        have hreplay := Tree.replay_steps hvalid hrooted
        rw [hfrontier] at hreplay
        have hinput := isTerminal_of_known hspells.all_hasTerminal
        exact ⟨tree, htree, ⟨hvalid, hrooted, hfrontier, hinput⟩, hreplay⟩
  · exact ChartParser.tree?_eq_none

/-- A parser of a grammar in normal form gives a derivation tree of its input
once it has accepted it, and no tree in any other state. -/
theorem stepTimes_traces (hform : Chart.InNormalForm g)
    (hstart : g.start = some start) (input : Form) :
    ∃ parser, ofGrammar g input = .ok parser ∧
      ∀ count, Traces g input (stepTimes step count parser) := by
  have hcontextFree : g.requireContextFree = .ok start :=
    Grammar.requireContextFree_eq_ok_iff.mpr ⟨hstart, hform.contextFree⟩
  refine ⟨ChartParser.idle g start input,
    ofGrammar_eq_ok hform hcontextFree input, ?_⟩
  intro count
  exact (stage_stepTimes hform count).traces hstart

theorem stepTimes_traces_eitherWay :
    ∃ parser tree,
      ofGrammar eitherWay (List.replicate 3 (.term "a")) = .ok parser ∧
      (stepTimes step 2 parser).tree? = none ∧
      (stepTimes step 3 parser).tree? = some tree ∧
      tree.CompleteFor eitherWay (List.replicate 3 (.term "a")) ∧
      eitherWay.replay tree.steps = .ok (List.replicate 3 (.term "a")) := by
  have hform : Chart.InNormalForm eitherWay := by
    unfold Chart.InNormalForm
    decide +kernel
  rcases stepTimes_traces hform rfl (List.replicate 3 (.term "a")) with
    ⟨parser, hparser, htraces⟩
  have hbuilt : idle eitherWay (.var "S") (List.replicate 3 (.term "a")) =
      parser := Except.ok.inj hparser
  subst hbuilt
  rcases (htraces 3).exists_tree? (by decide +kernel) with
    ⟨tree, htree, hcomplete, hreplay⟩
  exact ⟨_, tree, hparser, (htraces 2).tree?_eq_none (by decide +kernel),
    htree, hcomplete, hreplay⟩

end FormalGrammars.ChartParser
