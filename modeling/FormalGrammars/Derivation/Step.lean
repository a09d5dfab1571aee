import FormalGrammars.Grammar.Basic

/-!
# Derivation steps

A step replaces one occurrence of the left side of a production by its right
side.  A list of steps is replayed from the start of a grammar; each step must
use a production of the grammar and must fit where it is applied.
-/

namespace FormalGrammars

/-- A production and the index in a form at which it is applied. -/
structure Step where
  production : Production
  position : Nat
  deriving DecidableEq, Repr, Inhabited

namespace Form

/-- The form after a step, if the left side of the production stands at the
position. -/
def rewrite? (form : Form) (step : Step) : Option Form :=
  if step.position ≤ form.length &&
      step.production.lhs.isPrefixOf (form.drop step.position) then
    some (form.take step.position ++ step.production.rhs ++
      form.drop (step.position + step.production.lhs.length))
  else none

/-- A step fits a form exactly when the left side of its production stands
between the symbols before the position and the rest. -/
theorem rewrite?_eq_some_iff {form result : Form} {step : Step} :
    rewrite? form step = some result ↔
      ∃ before after, before.length = step.position ∧
        form = before ++ step.production.lhs ++ after ∧
        result = before ++ step.production.rhs ++ after := by
  unfold rewrite?
  constructor
  · intro hrewrite
    split at hrewrite
    next hfits =>
      simp only [Bool.and_eq_true, decide_eq_true_eq] at hfits
      obtain ⟨after, hafter⟩ := List.isPrefixOf_iff_prefix.mp hfits.2
      simp only [Option.some.injEq] at hrewrite
      refine ⟨form.take step.position, after, ?_, ?_, ?_⟩
      · simp [hfits.1]
      · rw [List.append_assoc, hafter, List.take_append_drop]
      · rw [← hrewrite, ← List.drop_drop, ← hafter]
        simp
    next => simp at hrewrite
  · rintro ⟨before, after, hlength, rfl, rfl⟩
    rw [← hlength]
    have hdrop : (before ++ step.production.lhs ++ after).drop
        (before.length + step.production.lhs.length) = after := by
      rw [← List.length_append, List.drop_left]
    rw [if_pos, hdrop]
    · simp
    · simp

end Form

namespace Grammar

def apply (g : Grammar) (form : Form) (step : Step) : Except Fault Form :=
  match if g.contains step.production then Form.rewrite? form step else none with
  | some next => .ok next
  | none => .error (.notApplicable step.production step.position)

/-- The last form of the derivation that the steps describe. -/
def replay (g : Grammar) (steps : List Step) : Except Fault Form := do
  let start ← g.requireStart
  steps.foldlM g.apply [start]

end Grammar

end FormalGrammars
