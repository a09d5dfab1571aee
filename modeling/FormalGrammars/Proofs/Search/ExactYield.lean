import FormalGrammars.Proofs.Search.Yield
import Mathlib.Order.Bounds.Basic

/-!
# The shortest yields are exact

A length is entered or lowered only to that of a right side, and when the
lengths in the right side are those of strings, so is their sum, if nothing
overflows.  So without a greatest number every entry is, in the course of the
passes, the length of a string that its variable derives, although it need not
be the shortest one yet.  No string is shorter than the last entries, so these
are the shortest lengths.

A shortest length is not lowered any more.  So the passes have come to rest
when there have been as many as there are variables.
-/

namespace FormalGrammars

/-! ## Lengths that are attained -/

namespace Grammar

variable {g : Grammar} {s : Symbol} {form : Form} {p : Production} {m n : Nat}

/-- The form yields a terminal string of this length. -/
def YieldsLength (g : Grammar) (form : Form) (length : Nat) : Prop :=
  ∃ word, Form.isTerminal word = true ∧ g.Yields form word ∧
    word.length = length

theorem yieldsLength_nil : g.YieldsLength [] 0 :=
  ⟨[], rfl, .nil, rfl⟩

theorem yieldsLength_of_isTerm (hterm : s.isTerm = true) :
    g.YieldsLength [s] 1 :=
  ⟨[s], isTerminal_cons.mpr ⟨hterm, rfl⟩, .refl [s], rfl⟩

theorem YieldsLength.cons (hfirst : g.YieldsLength [s] m)
    (hrest : g.YieldsLength form n) : g.YieldsLength (s :: form) (m + n) := by
  rcases hfirst with ⟨left, hleft, hs, rfl⟩
  rcases hrest with ⟨right, hright, hform, rfl⟩
  exact ⟨left ++ right, isTerminal_append.mpr ⟨hleft, hright⟩,
    hs.append hform, List.length_append⟩

theorem YieldsLength.of_production (hp : p ∈ g.productions)
    (hhead : p.head? = some s) (hrhs : g.YieldsLength p.rhs n) :
    g.YieldsLength [s] n := by
  rcases hrhs with ⟨word, hword, hyields, hlength⟩
  exact ⟨word, hword, (Yields.of_production hp hhead).trans hyields, hlength⟩

end Grammar

/-! ## The passes -/

namespace Yields

variable {g : Grammar} {yields : Yields} {s : Symbol} {p : Production}
  {form : Form} {n : Nat}

/-- Every variable has one entry at most, and that is the length of a string
that it yields. -/
structure Attained (g : Grammar) (yields : Yields) : Prop where
  keys_nodup : (OrderedMap.keys yields).Nodup
  attained : ∀ s length, OrderedMap.get? yields s = some length →
    g.YieldsLength [s] length

theorem attained_empty : Attained g ⟨[]⟩ := by
  constructor
  · exact List.nodup_nil
  · intro s length hget
    cases hget

theorem Attained.ofForm? (hyields : Attained g yields)
    (hform : yields.ofForm? .unbounded form = some n) : g.YieldsLength form n := by
  induction form generalizing n with
  | nil =>
      cases hform
      exact Grammar.yieldsLength_nil
  | cons s form ih =>
      rw [Yields.ofForm?] at hform
      split at hform
      next first rest hfirst hrest =>
        cases hform
        apply Grammar.YieldsLength.cons _ (ih hrest)
        cases hvar : s.isVar with
        | true =>
            rw [ofSymbol?_of_isVar hvar] at hfirst
            exact hyields.attained s first hfirst
        | false =>
            have hterm := Symbol.isTerm_of_isVar_eq_false hvar
            rw [ofSymbol?, if_pos hterm] at hfirst
            cases hfirst
            exact Grammar.yieldsLength_of_isTerm hterm
      next => cases hform

theorem Attained.absorb (hyields : Attained g yields)
    (hp : p ∈ g.productions) : Attained g (yields.absorb .unbounded p) := by
  unfold Yields.absorb
  split
  next head length hhead hlength =>
    have hnew := (hyields.ofForm? hlength).of_production hp hhead
    constructor
    · rw [OrderedMap.keys_alter]
      exact nodup_insertNew hyields.keys_nodup head
    · intro s n hget
      rw [OrderedMap.get?_alter] at hget
      split at hget
      next heq =>
        -- the entry is the new length or stays as it was
        cases hget
        rw [heq, OrderedMap.getD]
        cases hold : OrderedMap.get? yields head with
        | none =>
            rw [Option.getD_none, Nat.min_self]
            exact hnew
        | some old =>
            rw [Option.getD_some]
            rcases Nat.le_total length old with hle | hle
            · rw [Nat.min_eq_left hle]
              exact hnew
            · rw [Nat.min_eq_right hle]
              exact hyields.attained head old hold
      next => exact hyields.attained s n hget
  next => exact hyields

end Yields

namespace Grammar

variable {g : Grammar} {s : Symbol} {p : Production} {k : Nat}

theorem attained_shortestYields (g : Grammar) :
    FormalGrammars.Yields.Attained g (g.shortestYields .unbounded) := by
  rw [shortestYields_eq_stepTimes]
  apply stepTimes_induct _ _ Yields.attained_empty
  intro yields hyields
  rw [yieldPass, FormalGrammars.Yields.pass_fst]
  apply List.foldlRecOn (motive := Yields.Attained g) _ _ hyields
  intro later hlater p hp
  exact hlater.absorb hp

/-! ## Exact lengths -/

theorem atMost_of_yieldsLength (hg : g.Consistent) (hvar : s.isVar = true)
    (hlength : g.YieldsLength [s] k) :
    FormalGrammars.Yields.AtMost
      (OrderedMap.get? (g.shortestYields .unbounded) s) k := by
  rcases hlength with ⟨word, hword, hyields, rfl⟩
  rcases Yields.atMost_cons_iff.mp (atMost_shortestYields hg hword hyields)
    with ⟨first, rest, hfirst, _, hle⟩
  rw [Yields.ofSymbol?_of_isVar hvar] at hfirst
  rcases hfirst with ⟨length, hget, hshort⟩
  exact ⟨length, hget, by omega⟩

theorem get?_shortestYields_iff (hg : g.Consistent) (hvar : s.isVar = true) :
    OrderedMap.get? (g.shortestYields .unbounded) s = some k ↔
      IsLeast {n | g.YieldsLength [s] n} k := by
  constructor
  · intro hget
    refine ⟨(attained_shortestYields g).attained s k hget, ?_⟩
    intro n hn
    rcases atMost_of_yieldsLength hg hvar hn with ⟨length, hlength, hle⟩
    rw [hget, Option.some.injEq] at hlength
    exact hlength ▸ hle
  · rintro ⟨hmem, hleast⟩
    rcases atMost_of_yieldsLength hg hvar hmem with ⟨length, hget, hle⟩
    have hge := hleast ((attained_shortestYields g).attained s length hget)
    rw [hget, Nat.le_antisymm hle hge]

theorem get?_shortestYields_eq_none_iff (hg : g.Consistent)
    (hvar : s.isVar = true) :
    OrderedMap.get? (g.shortestYields .unbounded) s = none ↔
      ∀ n, ¬ g.YieldsLength [s] n := by
  constructor
  · intro hnone n hn
    rcases atMost_of_yieldsLength hg hvar hn with ⟨length, hget, _⟩
    rw [hnone] at hget
    cases hget
  · intro hnever
    cases hget : OrderedMap.get? (g.shortestYields .unbounded) s with
    | none => rfl
    | some length =>
        exact absurd ((attained_shortestYields g).attained s length hget)
          (hnever length)

/-- No production lowers a length any more. -/
theorem absorb_shortestYields (hg : g.Consistent) (hp : p ∈ g.productions) :
    (g.shortestYields .unbounded).absorb .unbounded p =
      g.shortestYields .unbounded := by
  have hattained := attained_shortestYields g
  unfold Yields.absorb
  split
  next head length hhead hlength =>
    have hnew := (hattained.ofForm? hlength).of_production hp hhead
    rcases atMost_of_yieldsLength hg (isVar_of_head? hhead) hnew with
      ⟨known, hknown, hle⟩
    apply OrderedMap.alter_eq_self hattained.keys_nodup
      (OrderedMap.mem_keys_of_get? hknown)
    rw [OrderedMap.getD, hknown]
    exact Nat.min_eq_right hle
  next => rfl

/-- The passes come to rest, and what they leave is for every variable the
length of the shortest terminal string that it derives, or no entry when it
derives none. -/
theorem shortestYields_exact (hg : g.Consistent) (hfree : g.ContextFree) :
    Comes (g.yieldPass .unbounded) ⟨[]⟩
        (fun yields => yields = g.shortestYields .unbounded ∧
          ∀ p ∈ g.productions, yields.absorb .unbounded p = yields) ∧
      ∀ s, s.isVar = true →
        (∀ k, OrderedMap.get? (g.shortestYields .unbounded) s = some k ↔
          IsLeast {n | ∃ word, Form.isTerminal word = true ∧
            g.Derives [s] word ∧ word.length = n} k) ∧
        (OrderedMap.get? (g.shortestYields .unbounded) s = none ↔
          ¬ ∃ word, Form.isTerminal word = true ∧ g.Derives [s] word) := by
  constructor
  · refine ⟨g.variables.length + 1, (shortestYields_eq_stepTimes g).symm, ?_⟩
    intro p hp
    have hfixed := absorb_shortestYields hg hp
    rw [shortestYields_eq_stepTimes] at hfixed
    exact hfixed
  · intro s hvar
    simp only [← yields_iff_derives hfree]
    refine ⟨fun k => get?_shortestYields_iff hg hvar, ?_⟩
    rw [get?_shortestYields_eq_none_iff hg hvar]
    constructor
    · rintro hnever ⟨word, hword, hyields⟩
      exact hnever word.length ⟨word, hword, hyields, rfl⟩
    · rintro hnever n ⟨word, hword, hyields, _⟩
      exact hnever ⟨word, hword, hyields⟩

/-- `S → AA`, `A → aaa | B | C`, `B → Bb | b` and `C → Ca`, where the length of
`A` is lowered when that of `B` is known, and `C` has none. -/
def loweredLater : Grammar :=
  Grammar.withProductions { start := some (.var "S") }
    [.rule (.var "S") [.var "A", .var "A"],
      .rule (.var "A") [.term "a", .term "a", .term "a"],
      .rule (.var "A") [.var "B"],
      .rule (.var "A") [.var "C"],
      .rule (.var "B") [.var "B", .term "b"],
      .rule (.var "B") [.term "b"],
      .rule (.var "C") [.var "C", .term "a"]]

theorem shortestYields_loweredLater :
    (∀ p ∈ loweredLater.productions, p.hasHead = true) ∧
      (∀ word, Form.isTerminal word = true →
        loweredLater.Derives [.var "S"] word → 2 ≤ word.length) ∧
      (∃ word, Form.isTerminal word = true ∧
        loweredLater.Derives [.var "S"] word ∧ word.length = 2) ∧
      ¬ ∃ word, Form.isTerminal word = true ∧
        loweredLater.Derives [.var "C"] word := by
  have hfree : ∀ p ∈ loweredLater.productions, p.hasHead = true := by
    decide
  have hexact := (shortestYields_exact (g := loweredLater)
    (consistent_of_start rfl _) hfree).2
  have htwo : OrderedMap.get? (loweredLater.shortestYields .unbounded) (.var "S") =
      some 2 := by decide +kernel
  have hnone : OrderedMap.get? (loweredLater.shortestYields .unbounded) (.var "C") =
      none := by decide +kernel
  have hleast := ((hexact (.var "S") rfl).1 2).mp htwo
  refine ⟨hfree, ?_, hleast.1, (hexact (.var "C") rfl).2.mp hnone⟩
  intro word hword hderives
  exact hleast.2 ⟨word, hword, hderives, rfl⟩

end Grammar

end FormalGrammars
