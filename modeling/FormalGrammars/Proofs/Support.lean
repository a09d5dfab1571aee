import FormalGrammars.Proofs.Follow

/-!
# Supported stacks

A stack is what the rest of an input has to be derived from.  It is supported
when every variable on it is followed by whatever the stack below can begin
with.  The start alone is supported, and the right side of a production may
stand in the place of its head, because FOLLOW is closed under its rules.
-/

namespace FormalGrammars.Grammar

/-- The look-aheads in front of the strings that a form yields. -/
def Faces (g : Grammar) (form : Form) : Lookahead → Prop
  | .endOfInput => g.Yields form []
  | .lambda => False
  | .symbol t => t.isTerm = true ∧ ∃ rest, g.Yields form (t :: rest)

/-- Every variable is followed by whatever the stack below it faces. -/
def Supported (g : Grammar) (start : Symbol) : Form → Prop
  | [] => True
  | s :: below =>
    (s.isVar = true → ∀ x, g.Faces below x → g.Follows start s x) ∧
      Supported g start below

variable {g : Grammar} {start : Symbol}

theorem faces_ofRest {form word : Form} (hyields : g.Yields form word)
    (hword : Form.isTerminal word = true) :
    g.Faces form (.ofRest word) := by
  cases word with
  | nil => exact hyields
  | cons t rest =>
      simp only [Form.isTerminal, List.all_cons, Bool.and_eq_true] at hword
      exact ⟨hword.1, rest, hyields⟩

/-- A form in two parts begins with its first part, or with its second one
when the first is nullable. -/
theorem Faces.of_append {form below : Form} {x : Lookahead}
    (hfaces : g.Faces (form ++ below) x) :
    (x ≠ .lambda ∧ g.Begins form x) ∨
      (g.Yields form [] ∧ g.Faces below x) := by
  cases x with
  | lambda => exact hfaces.elim
  | endOfInput =>
      obtain ⟨left, right, heq, hleft, hright⟩ := hfaces.exists_append
      obtain ⟨rfl, rfl⟩ := List.append_eq_nil_iff.mp heq.symm
      exact .inr ⟨hleft, hright⟩
  | symbol t =>
      obtain ⟨hterm, rest, hyields⟩ := hfaces
      obtain ⟨left, right, heq, hleft, hright⟩ := hyields.exists_append
      cases left with
      | nil => exact .inr ⟨hleft, hterm, rest, heq ▸ hright⟩
      | cons u left =>
          obtain ⟨rfl, -⟩ := List.cons.inj heq
          exact .inl ⟨by simp, hterm, left, hleft⟩

theorem Faces.of_yields {form next : Form} {x : Lookahead}
    (hyields : g.Yields form next) (hfaces : g.Faces next x) :
    g.Faces form x := by
  cases x with
  | lambda => exact hfaces.elim
  | endOfInput => exact hyields.trans hfaces
  | symbol t =>
      obtain ⟨hterm, rest, hrest⟩ := hfaces
      exact ⟨hterm, rest, hyields.trans hrest⟩

theorem supported_start : g.Supported start [start] := by
  refine ⟨fun _ x hfaces => ?_, trivial⟩
  cases x with
  | lambda => exact hfaces.elim
  | endOfInput => exact .atEnd
  | symbol t =>
      obtain ⟨_, rest, hyields⟩ := hfaces
      exact absurd hyields.eq_nil (by simp)

theorem Supported.expand {s : Symbol} {below : Form}
    (hstack : g.Supported start (s :: below)) {p : Production}
    (hmem : p ∈ g.productions) (hhead : p.head? = some s) :
    g.Supported start (p.rhs ++ below) := by
  have hsuffix : ∀ before after, p.rhs = before ++ after →
      g.Supported start (after ++ below) := by
    intro before after
    induction after generalizing before with
    | nil => exact fun _ => hstack.2
    | cons t after ih =>
        intro hrhs
        refine ⟨fun hvar x hfaces => ?_, ih (before ++ [t]) (by simp [hrhs])⟩
        have hprecedes : g.Precedes s t after :=
          ⟨hvar, p, hmem, hhead, before, hrhs⟩
        rcases hfaces.of_append with ⟨hx, hbegins⟩ | ⟨hnull, hbelow⟩
        · exact .tail hprecedes hx hbegins
        · exact .head hprecedes hnull (hstack.1 (isVar_of_head? hhead) x hbelow)
  exact hsuffix [] p.rhs rfl

/-- Any part of a stack may be expanded. -/
theorem Supported.yields {form below result : Form}
    (hstack : g.Supported start (form ++ below))
    (hyields : g.Yields form result) :
    g.Supported start (result ++ below) := by
  induction hyields generalizing below with
  | nil => exact hstack
  | keep s hrest ih =>
      refine ⟨fun hvar x hfaces => hstack.1 hvar x ?_, ih hstack.2⟩
      exact hfaces.of_yields (hrest.append (.refl below))
  | @expand s p rest left right hmem hhead hrhs hrest ihrhs ihrest =>
      -- The rest is expanded first, so that the right side stands on it.
      have hright : g.Supported start (s :: (right ++ below)) := by
        refine ⟨fun hvar x hfaces => hstack.1 hvar x ?_, ihrest hstack.2⟩
        exact hfaces.of_yields (hrest.append (.refl below))
      rw [List.append_assoc]
      exact ihrhs (hright.expand hmem hhead)

theorem supported_of_yields {form : Form} (hyields : g.Yields [start] form) :
    g.Supported start form := by
  have hstack : g.Supported start ([start] ++ []) := supported_start
  have hform := hstack.yields hyields
  rwa [List.append_nil] at hform

/-- The stack below may be expanded. -/
theorem Supported.narrow {s : Symbol} {below word : Form}
    (hstack : g.Supported start (s :: below)) (hyields : g.Yields below word) :
    g.Supported start (s :: word) := by
  rw [← List.append_nil (s :: below)] at hstack
  have hword := hstack.yields (.keep s hyields)
  rwa [List.append_nil] at hword

theorem Supported.suffix {before after : Form}
    (hstack : g.Supported start (before ++ after)) :
    g.Supported start after := by
  induction before with
  | nil => exact hstack
  | cons s before ih => exact ih hstack.2

end FormalGrammars.Grammar
