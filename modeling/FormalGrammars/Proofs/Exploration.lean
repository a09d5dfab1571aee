import FormalGrammars.Derivation.Exploration
import FormalGrammars.Proofs.History
import FormalGrammars.Proofs.Search.Viability

/-!
# Explorations replay

The user of an exploration takes steps and goes back, as often and in whatever
order.  The steps that are taken are those on offer, for an occurrence of a
non-empty left side ends inside the form and so begins before its end.  A step
that is refused changes nothing, and going back moves the cursor alone, so the
history records derivations from the start and only grows.
-/

namespace FormalGrammars

variable {g : Grammar} {form next : Form} {step : Step}

/-! ## Steps on offer -/

namespace Grammar

theorem apply_eq_ok_iff :
    g.apply form step = .ok next ↔
      step.production ∈ g.productions ∧
        Form.rewrite? form step = some next := by
  unfold apply
  by_cases hmem : step.production ∈ g.productions
  · rw [if_pos (contains_iff.mpr hmem)]
    cases Form.rewrite? form step with
    | none => simp
    | some other => simp [hmem]
  · rw [if_neg (fun hcontains => hmem (contains_iff.mp hcontains))]
    simp [hmem]

theorem fault_of_apply {fault : Fault}
    (happly : g.apply form step = .error fault) :
    fault = .notApplicable step.production step.position := by
  unfold apply at happly
  split at happly
  next => cases happly
  next =>
    cases happly
    rfl

/-- A form admits the steps that apply to it, unless a left side is empty. -/
theorem mem_options_iff_apply (hlhs : ∀ p ∈ g.productions, p.lhs ≠ []) :
    step ∈ g.options form ↔ ∃ next, g.apply form step = .ok next := by
  simp only [mem_options, apply_eq_ok_iff]
  constructor
  · rintro ⟨hlt, hmem, after, hafter⟩
    have hform : form =
        form.take step.position ++ step.production.lhs ++ after := by
      rw [List.append_assoc, hafter, List.take_append_drop]
    have hlength : (form.take step.position).length = step.position := by
      simp [Nat.le_of_lt hlt]
    exact ⟨_, hmem, Form.rewrite?_eq_some_iff.mpr
      ⟨form.take step.position, after, hlength, hform, rfl⟩⟩
  · rintro ⟨next, hmem, hrewrite⟩
    obtain ⟨before, after, hlength, hform, _⟩ :=
      Form.rewrite?_eq_some_iff.mp hrewrite
    have hpos : 0 < step.production.lhs.length :=
      List.length_pos_iff.mpr (hlhs _ hmem)
    refine ⟨?_, hmem, after, ?_⟩
    · rw [hform, ← hlength]
      simp only [List.length_append]
      omega
    · rw [hform, ← hlength, List.append_assoc, List.drop_left]

end Grammar

/-! ## Calls -/

namespace Exploration

/-- What a user does. -/
inductive Call where
  | take (step : Step)
  | back
  deriving DecidableEq, Repr

/-- A step that does not apply is not taken, and there is no way back from the
root. -/
def Call.perform (e : Exploration) : Call → Exploration
  | .take step =>
    match e.apply step with
    | .ok after => after
    | .error _ => e
  | .back => e.back?.getD e

def performAll (calls : List Call) (e : Exploration) : Exploration :=
  calls.foldl Call.perform e

variable {e before after : Exploration} {root : Symbol}

theorem apply_eq_ok_iff :
    e.apply step = .ok after ↔
      ∃ next, e.grammar.apply e.form step = .ok next ∧
        after =
          { e with
            history := e.history.addChild e.cursor next step
            cursor := e.history.size } := by
  unfold apply
  cases happly : e.grammar.apply e.form step with
  | error fault => simp [bind, Except.bind]
  | ok next => simp [bind, Except.bind, pure, Except.pure, eq_comm]

theorem apply_eq_error_iff {fault : Fault} :
    e.apply step = .error fault ↔
      e.grammar.apply e.form step = .error fault := by
  unfold apply
  cases e.grammar.apply e.form step with
  | error other => simp [bind, Except.bind]
  | ok next => simp [bind, Except.bind, pure, Except.pure]

theorem back?_eq_some_iff :
    e.back? = some before ↔
      ∃ parent, e.history.parent? e.cursor = some parent ∧
        before = { e with cursor := parent } := by
  unfold back?
  rw [Option.map_eq_some_iff]
  simp only [eq_comm]

/-- The history records derivations from the start, and the cursor is in it. -/
structure Explored (g : Grammar) (root : Symbol) (e : Exploration) :
    Prop where
  grammar_eq : e.grammar = g
  records : e.history.Records g root
  cursor_lt : e.cursor < e.history.size

theorem explored_start (hstart : g.start = some root) :
    ∃ first, start g = .ok first ∧ first.form = [root] ∧
      first.Explored g root := by
  have hrequire := Grammar.requireStart_eq_ok_iff.mpr hstart
  refine ⟨⟨g, .ofRoot [root], 0⟩, ?_, rfl, rfl, History.records_ofRoot,
    Nat.one_pos⟩
  unfold start
  rw [hrequire]
  rfl

theorem Explored.apply (he : e.Explored g root)
    (happly : e.apply step = .ok after) : after.Explored g root := by
  obtain ⟨next, hnext, rfl⟩ := apply_eq_ok_iff.mp happly
  rw [he.grammar_eq, Grammar.apply_eq_ok_iff] at hnext
  refine ⟨he.grammar_eq, ?_, ?_⟩
  · exact he.records.addChild he.cursor_lt hnext.1 hnext.2
  · simp [History.size_addChild]

/-- Behind every form but the root stands the form that it was made from. -/
theorem Explored.exists_made (he : e.Explored g root) (hcursor : e.cursor ≠ 0) :
    ∃ parent step, e.history.parent? e.cursor = some parent ∧
      parent < e.cursor ∧
      e.history.stepsTo e.cursor = e.history.stepsTo parent ++ [step] ∧
      Form.rewrite? (e.history.form parent) step = some e.form := by
  obtain ⟨entry, hentry⟩ := History.exists_entry he.cursor_lt
  obtain ⟨parent, step, horigin, hlt, _, hrewrite⟩ :=
    he.records.made _ entry hentry hcursor
  rw [← History.form_of_entry hentry] at hrewrite
  refine ⟨parent, step, ?_, hlt,
    History.stepsTo_of_parent hentry horigin hlt, hrewrite⟩
  simp [History.parent?, hentry, horigin]

theorem Explored.back?_eq_none_iff (he : e.Explored g root) :
    e.back? = none ↔ e.cursor = 0 := by
  constructor
  · intro hback
    rcases Nat.eq_zero_or_pos e.cursor with hzero | hpos
    · exact hzero
    · obtain ⟨parent, _, hparent, _⟩ :=
        he.exists_made (Nat.pos_iff_ne_zero.mp hpos)
      simp [back?, hparent] at hback
  · intro hcursor
    simp [back?, hcursor, History.parent?, he.records.root]

/-- Going back undoes the last step on the way to the current form. -/
theorem Explored.back (he : e.Explored g root)
    (hback : e.back? = some before) :
    before.Explored g root ∧ before.history = e.history ∧
      ∃ step, e.steps = before.steps ++ [step] ∧
        Form.rewrite? before.form step = some e.form := by
  have hcursor : e.cursor ≠ 0 := fun hzero => by
    simp [he.back?_eq_none_iff.mpr hzero] at hback
  obtain ⟨parent, step, hparent, hlt, hsteps, hrewrite⟩ :=
    he.exists_made hcursor
  obtain ⟨other, hother, rfl⟩ := back?_eq_some_iff.mp hback
  rw [hparent, Option.some.injEq] at hother
  subst hother
  refine ⟨⟨he.grammar_eq, he.records, ?_⟩, rfl, step, hsteps, hrewrite⟩
  exact Nat.lt_trans hlt he.cursor_lt

theorem perform_take_of_ok (happly : e.apply step = .ok after) :
    (Call.take step).perform e = after := by
  rw [Call.perform, happly]

theorem perform_take_of_error {fault : Fault}
    (happly : e.apply step = .error fault) :
    (Call.take step).perform e = e := by
  rw [Call.perform, happly]

theorem Explored.perform (he : e.Explored g root) (call : Call) :
    (call.perform e).Explored g root ∧
      e.history.GrowsTo (call.perform e).history := by
  cases call with
  | take step =>
      cases happly : e.apply step with
      | error fault =>
          rw [perform_take_of_error happly]
          exact ⟨he, .refl _⟩
      | ok after =>
          obtain ⟨next, _, hafter⟩ := apply_eq_ok_iff.mp happly
          rw [perform_take_of_ok happly]
          refine ⟨he.apply happly, ?_⟩
          rw [hafter]
          exact .addChild _ _ _ _
  | back =>
      rw [Call.perform]
      cases hback : e.back? with
      | none => exact ⟨he, .refl _⟩
      | some before =>
          obtain ⟨hbefore, hhistory, _⟩ := he.back hback
          rw [Option.getD_some, hhistory]
          exact ⟨hbefore, .refl _⟩

theorem Explored.performAll (he : e.Explored g root) (calls : List Call) :
    (performAll calls e).Explored g root ∧
      e.history.GrowsTo (performAll calls e).history := by
  induction calls generalizing e with
  | nil => exact ⟨he, .refl _⟩
  | cons call calls ih =>
      obtain ⟨hnext, hgrows⟩ := he.perform call
      obtain ⟨hlast, hlater⟩ := ih hnext
      exact ⟨hlast, hgrows.trans hlater⟩

theorem Explored.mem_options_iff (he : e.Explored g root)
    (hlhs : ∀ p ∈ g.productions, p.lhs ≠ []) :
    step ∈ e.options ↔ ∃ after, e.apply step = .ok after := by
  unfold options
  rw [he.grammar_eq, Grammar.mem_options_iff_apply hlhs]
  constructor
  · rintro ⟨next, hnext⟩
    rw [← he.grammar_eq] at hnext
    exact ⟨_, apply_eq_ok_iff.mpr ⟨next, hnext, rfl⟩⟩
  · rintro ⟨after, hafter⟩
    obtain ⟨next, hnext, _⟩ := apply_eq_ok_iff.mp hafter
    exact ⟨next, he.grammar_eq ▸ hnext⟩

/-- A step that is taken leads from the form before to the current one. -/
theorem Explored.steps_of_apply (he : e.Explored g root)
    (happly : e.apply step = .ok after) :
    after.steps = e.steps ++ [step] ∧
      Form.rewrite? e.form step = some after.form ∧
      e.history.GrowsTo after.history := by
  obtain ⟨next, hnext, rfl⟩ := apply_eq_ok_iff.mp happly
  have hgrows := History.GrowsTo.addChild e.history e.cursor next step
  refine ⟨?_, ?_, hgrows⟩
  · unfold steps
    rw [History.stepsTo_of_parent History.entry_addChild_size rfl he.cursor_lt,
      hgrows.stepsTo_eq he.cursor_lt]
  · unfold form
    rw [History.form_addChild_size]
    exact (Grammar.apply_eq_ok_iff.mp hnext).2

/-- Whatever the user does, the steps to every form of the history replay to it,
the steps on offer are those that are taken, and no call changes what is in the
history. -/
theorem calls_keep_derivation (hstart : g.start = some root)
    (hlhs : ∀ p ∈ g.productions, p.lhs ≠ []) (calls : List Call) :
    ∃ first, start g = .ok first ∧ first.form = [root] ∧
      let e := Exploration.performAll calls first
      g.replay e.steps = .ok e.form ∧
      (∀ number < e.history.size,
        g.replay (e.history.stepsTo number) =
          .ok (e.history.form number)) ∧
      (∀ step, (∃ after, e.apply step = .ok after) ↔ step ∈ e.options) ∧
      (∀ step after, e.apply step = .ok after →
        Form.rewrite? e.form step = some after.form ∧
          after.steps = e.steps ++ [step] ∧
          (Call.take step).perform e = after) ∧
      (∀ step fault, e.apply step = .error fault →
        fault = .notApplicable step.production step.position ∧
          (Call.take step).perform e = e) ∧
      (e.back? = none ↔ e.cursor = 0) ∧
      (∀ before, e.back? = some before →
        e.history.parent? e.cursor = some before.cursor ∧
          before.history = e.history ∧ Call.back.perform e = before ∧
          ∃ step, e.steps = before.steps ++ [step] ∧
            Form.rewrite? before.form step = some e.form) ∧
      ∀ more, e.history.GrowsTo
        (Exploration.performAll more e).history := by
  obtain ⟨first, hfirst, hform, hexplored⟩ := explored_start hstart
  refine ⟨first, hfirst, hform, ?_⟩
  intro e
  have he : e.Explored g root := (hexplored.performAll calls).1
  refine ⟨he.records.replay hstart he.cursor_lt,
    fun number hlt => he.records.replay hstart hlt,
    fun step => (he.mem_options_iff hlhs).symm, ?_, ?_,
    he.back?_eq_none_iff, ?_, fun more => (he.performAll more).2⟩
  · intro step after happly
    obtain ⟨hsteps, hrewrite, _⟩ := he.steps_of_apply happly
    exact ⟨hrewrite, hsteps, perform_take_of_ok happly⟩
  · intro step fault happly
    exact ⟨Grammar.fault_of_apply (apply_eq_error_iff.mp happly),
      perform_take_of_error happly⟩
  · intro before hback
    obtain ⟨_, hhistory, hstep⟩ := he.back hback
    obtain ⟨parent, hparent, hbefore⟩ := back?_eq_some_iff.mp hback
    refine ⟨?_, hhistory, ?_, hstep⟩
    · rw [hparent, hbefore]
    · rw [Call.perform, hback, Option.getD_some]

/-- `S → aaa`, `aa → b` and `aa → a`: left sides overlap in `aaa`. -/
def overlapping : Grammar :=
  Grammar.withProductions
    { validity := .unrestricted, start := some (.var "S") }
    [.rule (.var "S") [.term "a", .term "a", .term "a"],
      ⟨[.term "a", .term "a"], [.term "b"]⟩,
      ⟨[.term "a", .term "a"], [.term "a"]⟩]

/-- Takes `S → aaa` and `aa → b`, goes back, and takes `aa → b` where only the
last `a` is left and then where it applies. -/
def overlappingCalls : List Call :=
  [.take ⟨.rule (.var "S") [.term "a", .term "a", .term "a"], 0⟩,
    .take ⟨⟨[.term "a", .term "a"], [.term "b"]⟩, 0⟩, .back,
    .take ⟨⟨[.term "a", .term "a"], [.term "b"]⟩, 2⟩,
    .take ⟨⟨[.term "a", .term "a"], [.term "b"]⟩, 1⟩]

theorem overlappingCalls_keep_derivation :
    overlapping.start = some (.var "S") ∧
      (∀ p ∈ overlapping.productions, p.lhs ≠ []) ∧
      ∃ first, start overlapping = .ok first ∧
        let e := performAll overlappingCalls first
        e.form = [.term "a", .term "b"] ∧ e.history.size = 4 ∧
        overlapping.replay e.steps = .ok [.term "a", .term "b"] ∧
        overlapping.replay (e.history.stepsTo 2) =
          .ok [.term "b", .term "a"] ∧
        e.options = [] ∧ ∀ step after, e.apply step ≠ .ok after := by
  have hlhs : ∀ p ∈ overlapping.productions, p.lhs ≠ [] := by
    decide
  obtain ⟨first, hfirst, _, hreplay, hnodes, hoptions, _⟩ :=
    calls_keep_derivation (g := overlapping) rfl hlhs overlappingCalls
  have hmade : ∃ made, start overlapping = .ok made ∧
      (performAll overlappingCalls made).form = [.term "a", .term "b"] ∧
      (performAll overlappingCalls made).history.size = 4 ∧
      (performAll overlappingCalls made).history.form 2 =
        [.term "b", .term "a"] ∧
      (performAll overlappingCalls made).options = [] :=
    ⟨_, rfl, by decide +kernel⟩
  obtain ⟨made, hmade, hform, hsize, hother, hnone⟩ := hmade
  have hsame : made = first := Except.ok.inj (hmade.symm.trans hfirst)
  subst hsame
  have hsecond := hnodes 2 (by rw [hsize]; decide)
  rw [hform] at hreplay
  rw [hother] at hsecond
  refine ⟨rfl, hlhs, made, hmade, hform, hsize, hreplay, hsecond, hnone, ?_⟩
  intro step after happly
  have hoffered := (hoptions step).mp ⟨after, happly⟩
  rw [hnone] at hoffered
  cases hoffered

end Exploration

end FormalGrammars
