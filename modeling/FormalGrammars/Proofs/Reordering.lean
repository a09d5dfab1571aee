import FormalGrammars.Proofs.Yield

/-!
# Derivations in another order

In a context-free grammar a step rewrites one variable and leaves alone what
stands before and behind it.  A derivation of a terminal string rewrites every
variable of a form at some time, and nothing that comes before has to do with
it, so any of them can be rewritten first.  The number of steps does not
change.
-/

namespace FormalGrammars

variable {g : Grammar} {count : Nat} {before after next word : Form}
  {s : Symbol}

theorem Form.exists_first_variable {form : Form}
    (hform : ∃ s ∈ form, s.isVar = true) :
    ∃ before s after, form = before ++ s :: after ∧
      Form.isTerminal before = true ∧ s.isVar = true := by
  induction form with
  | nil =>
      rcases hform with ⟨s, hs, _⟩
      exact absurd hs List.not_mem_nil
  | cons t form ih =>
      cases hvar : t.isVar with
      | true => exact ⟨[], t, form, rfl, rfl, hvar⟩
      | false =>
          have hrest : ∃ s ∈ form, s.isVar = true := by
            rcases hform with ⟨s, hs, hsvar⟩
            rcases List.mem_cons.mp hs with heq | hs
            · rw [heq, hvar] at hsvar
              cases hsvar
            · exact ⟨s, hs, hsvar⟩
          rcases ih hrest with ⟨before, s, after, hsplit, hbefore, hs⟩
          refine ⟨t :: before, s, after, ?_, ?_, hs⟩
          · rw [hsplit, List.cons_append]
          · exact Grammar.isTerminal_cons.mpr
              ⟨Symbol.isTerm_of_isVar_eq_false hvar, hbefore⟩

namespace Grammar

/-- A step rewrites a given symbol, or something on one side of it. -/
theorem Rewrites.around (hg : g.ContextFree)
    (hstep : g.Rewrites (before ++ s :: after) next) :
    (∃ p ∈ g.productions, p.head? = some s ∧
      next = before ++ p.rhs ++ after) ∨
    (∃ front, g.Rewrites before front ∧ next = front ++ s :: after) ∨
    ∃ back, g.Rewrites after back ∧ next = before ++ s :: back := by
  generalize hform : before ++ s :: after = form at hstep
  cases hstep with
  | intro p left right hmem =>
      rcases Option.isSome_iff_exists.mp (hg p hmem) with ⟨t, hhead⟩
      have hlhs := (Production.head?_eq_some_iff.mp hhead).1
      rw [hlhs, List.append_assoc, List.singleton_append] at hform
      rcases List.append_eq_append_iff.mp hform with
        ⟨middle, hleft, hright⟩ | ⟨middle, hbefore, hright⟩
      · cases middle with
        | nil =>
            rw [List.nil_append, List.cons.injEq] at hright
            rw [List.append_nil] at hleft
            rw [hright.1, hright.2, hleft]
            exact .inl ⟨p, hmem, hhead, rfl⟩
        | cons _ middle =>
            -- the step is behind the symbol
            rw [List.cons_append, List.cons.injEq] at hright
            have hback := Rewrites.intro p middle right hmem
            rw [hlhs, List.append_assoc, List.singleton_append,
              ← hright.2] at hback
            refine .inr (.inr ⟨_, hback, ?_⟩)
            rw [hleft, hright.1]
            simp
      · cases middle with
        | nil =>
            rw [List.nil_append, List.cons.injEq] at hright
            rw [List.append_nil] at hbefore
            rw [← hright.1, ← hright.2, hbefore]
            exact .inl ⟨p, hmem, hhead, rfl⟩
        | cons _ middle =>
            rw [List.cons_append, List.cons.injEq] at hright
            have hfront := Rewrites.intro p left middle hmem
            rw [hlhs, List.append_assoc, List.singleton_append, hright.1,
              ← hbefore] at hfront
            refine .inr (.inl ⟨_, hfront, ?_⟩)
            rw [hright.2]
            simp

/-- In a derivation of a terminal string any variable can be rewritten
first. -/
theorem DerivesIn.rewrite_first (hg : g.ContextFree) (hvar : s.isVar = true)
    (hword : Form.isTerminal word = true)
    (hderives : g.DerivesIn count (before ++ s :: after) word) :
    ∃ rest, count = rest + 1 ∧ ∃ p ∈ g.productions, p.head? = some s ∧
      g.DerivesIn rest (before ++ p.rhs ++ after) word := by
  generalize hform : before ++ s :: after = form at hderives
  induction hderives generalizing before after with
  | refl word =>
      rw [← hform] at hword
      have hterm := (isTerminal_cons.mp (isTerminal_append.mp hword).2).1
      exact absurd hvar (Symbol.not_isVar_of_isTerm hterm)
  | @head count _ second _ hstep hrest ih =>
      rw [← hform] at hstep
      rcases hstep.around hg with
        ⟨p, hp, hhead, hnext⟩ | ⟨front, hfront, hnext⟩ | ⟨back, hback, hnext⟩
      · rw [hnext] at hrest
        exact ⟨count, rfl, p, hp, hhead, hrest⟩
      · rcases ih hword hnext.symm with ⟨rest, hcount, p, hp, hhead, hderives⟩
        have hmoved := hfront.context [] (p.rhs ++ after)
        simp only [List.nil_append, ← List.append_assoc] at hmoved
        exact ⟨count, rfl, p, hp, hhead, hcount ▸ .head hmoved hderives⟩
      · rcases ih hword hnext.symm with ⟨rest, hcount, p, hp, hhead, hderives⟩
        have hmoved := hback.context (before ++ p.rhs) []
        simp only [List.append_nil] at hmoved
        exact ⟨count, rfl, p, hp, hhead, hcount ▸ .head hmoved hderives⟩

/-- A form from which steps are left has a variable. -/
theorem Rewrites.exists_variable (hg : g.ContextFree) {form : Form}
    (hstep : g.Rewrites form next) : ∃ s ∈ form, s.isVar = true := by
  cases hstep with
  | intro p before after hmem =>
      rcases Option.isSome_iff_exists.mp (hg p hmem) with ⟨s, hhead⟩
      rw [(Production.head?_eq_some_iff.mp hhead).1]
      exact ⟨s, by simp, isVar_of_head? hhead⟩

/-- A derivation of a terminal string can begin with the first variable. -/
theorem DerivesIn.exists_leftmost (hg : g.ContextFree) {form : Form}
    (hword : Form.isTerminal word = true)
    (hderives : g.DerivesIn (count + 1) form word) :
    ∃ before s after, form = before ++ s :: after ∧
      Form.isTerminal before = true ∧ ∃ p ∈ g.productions, p.head? = some s ∧
        g.DerivesIn count (before ++ p.rhs ++ after) word := by
  have hvariable : ∃ s ∈ form, s.isVar = true := by
    cases hderives with
    | head hstep _ => exact hstep.exists_variable hg
  rcases Form.exists_first_variable hvariable with
    ⟨before, s, after, hform, hbefore, hvar⟩
  rw [hform] at hderives
  rcases hderives.rewrite_first hg hvar hword with
    ⟨rest, hcount, p, hp, hhead, hrest⟩
  rw [← Nat.succ.inj hcount] at hrest
  exact ⟨before, s, after, hform, hbefore, p, hp, hhead, hrest⟩

end Grammar

end FormalGrammars
