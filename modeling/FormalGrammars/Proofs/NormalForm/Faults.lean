import FormalGrammars.NormalForm.Normalization
import FormalGrammars.Proofs.Elimination.Lambda
import FormalGrammars.Proofs.Elimination.Unit
import FormalGrammars.Proofs.Elimination.Useless
import FormalGrammars.Proofs.NormalForm.Supply

/-!
# When a normalization is refused

A normalization starts by asking for a start and for heads.  A grammar that has
both passes all eliminations, and what comes out has neither lambda nor unit
productions, so no production is refused when it is split.  What is left is the
supply of names, and only letters run out.  None of this depends on the tally.
-/

namespace FormalGrammars

variable {g : Grammar} {start : Symbol}

/-! ## The eliminations -/

namespace Pruning

/-- What no pass changes, for whatever tally. -/
structure Narrows (g : Grammar) (pruning : Pruning) : Prop where
  start_eq : pruning.grammar.start = g.start
  subset : ∀ p ∈ pruning.grammar.productions, p ∈ g.productions

theorem Narrows.pass {pruning : Pruning} (hnarrows : pruning.Narrows g) :
    pruning.pass.Narrows g := by
  rw [pass_eq]
  constructor
  · exact ((start_without _ _).trans (start_without _ _)).trans
      hnarrows.start_eq
  · intro p hp
    exact hnarrows.subset p (mem_without.mp (mem_without.mp hp).1).1

theorem narrows_iterate (g : Grammar) (count : Nat) :
    (iterateUntilStable pass count ⟨g, [], []⟩).Narrows g := by
  rw [iterateUntilStable_eq_stepTimes]
  exact stepTimes_induct (fun _ hnarrows => hnarrows.pass) _ ⟨rfl, fun _ hp => hp⟩

end Pruning

theorem UselessElimination.exists_eliminateUseless
    (hstart : g.requireContextFree = .ok start) :
    ∃ e, g.eliminateUseless = .ok e ∧
      e.grammar.requireContextFree = .ok start ∧
      ∀ p ∈ e.grammar.productions, p ∈ g.productions := by
  have hnarrows := Pruning.narrows_iterate g g.productions.length
  have hcheck := Grammar.requireContextFree_eq_ok_iff.mp hstart
  unfold Grammar.eliminateUseless
  rw [hstart]
  refine ⟨_, rfl, ?_, hnarrows.subset⟩
  exact Grammar.requireContextFree_eq_ok_iff.mpr
    ⟨hnarrows.start_eq.trans hcheck.1,
      fun p hp => hcheck.2 p (hnarrows.subset p hp)⟩

/-! ## The check at the entry -/

theorem Production.hasHead_iff {p : Production} :
    p.hasHead = true ↔ ∃ s, p.lhs = [s] ∧ s.isVar = true := by
  rw [hasHead, Option.isSome_iff_exists]
  simp only [head?_eq_some_iff]

namespace Grammar

theorem requireContextFree_of_start_none (hnone : g.start = none) :
    g.requireContextFree = .error .missingStart := by
  rw [requireContextFree, requireStart, hnone]
  rfl

theorem requireContextFree_of_headless {before after : List Production}
    {p : Production} (hsome : g.start = some start)
    (hsplit : g.productions = before ++ p :: after)
    (hbefore : ∀ q ∈ before, q.hasHead = true) (hp : p.hasHead = false) :
    g.requireContextFree = .error (.notContextFree p) := by
  have hfind : g.productions.find? (fun q => !q.hasHead) = some p := by
    rw [hsplit, List.find?_eq_some_iff_append]
    exact ⟨by simp [hp], before, after, rfl, by simpa using hbefore⟩
  rw [requireContextFree, requireStart, hsome]
  simp only [bind, Except.bind, hfind]

theorem requireContextFree_ne (g : Grammar) (p : Production) :
    g.requireContextFree ≠ .error (.outsideNormalForm p) := by
  rw [requireContextFree, requireStart]
  cases g.start with
  | none => simp [bind, Except.bind]
  | some start =>
      cases hfind : g.productions.find? fun p => !p.hasHead with
      | none => simp [bind, Except.bind]
      | some q => simp [bind, Except.bind]

end Grammar

/-! ## All stages -/

namespace Normalization

/-- Neither lambda nor unit productions, and heads everywhere. -/
structure Plain (g : Grammar) (start : Symbol) : Prop where
  requireContextFree_eq : g.requireContextFree = .ok start
  rhs_ne_nil : ∀ p ∈ g.productions, p.rhs ≠ []
  isUnit_eq : ∀ p ∈ g.productions, p.isUnit = false

theorem exists_stages (hstart : g.requireContextFree = .ok start) :
    ∃ lambda unit useless, g.eliminateLambda = .ok lambda ∧
      lambda.grammar.eliminateUnits = .ok unit ∧
      unit.grammar.eliminateUseless = .ok useless ∧
      Plain unit.grammar start ∧ Plain useless.grammar start ∧
      ∀ p ∈ useless.grammar.productions, p ∈ unit.grammar.productions := by
  obtain ⟨lambda, hlambda, hfirst⟩ :=
    LambdaElimination.describes_eliminateLambda hstart
  have hlambdaStart := hfirst.requireContextFree_eq_ok hstart
  obtain ⟨unit, hunit, hsecond⟩ :=
    UnitElimination.describes_eliminateUnits hlambdaStart
  have hunitStart := hsecond.requireContextFree_eq_ok hlambdaStart
  obtain ⟨useless, huseless, huselessStart, hsubset⟩ :=
    UselessElimination.exists_eliminateUseless hunitStart
  have hplain : Plain unit.grammar start :=
    ⟨hunitStart,
      fun p hp => hsecond.rhs_ne_nil (fun q hq => hfirst.rhs_ne_nil hq) hp,
      fun p hp => hsecond.isUnit_eq_false hp⟩
  exact ⟨lambda, unit, useless, hlambda, hunit, huseless, hplain,
    ⟨huselessStart, fun p hp => hplain.rhs_ne_nil p (hsubset p hp),
      fun p hp => hplain.isUnit_eq p (hsubset p hp)⟩, hsubset⟩

theorem Plain.exists_finish (hplain : Plain g start) (naming : Naming) :
    ∃ last : Splitting, g.toChomskyForm naming = last.finish g ∧
      (naming = .numbered → last.names.missing = 0) := by
  have hlambda : ∀ p ∈ g.productions, p.isLambda = false := by
    intro p hp
    have hne := hplain.rhs_ne_nil p hp
    simp [Production.isLambda, hne]
  rcases Grammar.exists_last_splitting hplain.requireContextFree_eq hlambda
    hplain.isUnit_eq naming with ⟨last, hlast⟩
  refine ⟨last, Grammar.toChomskyForm_eq_finish hplain.requireContextFree_eq
    hlast, ?_⟩
  intro hnaming
  rw [hnaming] at hlast
  exact Splitting.missing_eq_zero_of_numbered hlast

/-- A grammar that is refused at the entry is refused in the same way by the
whole normalization. -/
theorem normalize_of_refused {fault : Fault}
    (hrefused : g.requireContextFree = .error fault) (naming : Naming) :
    g.normalize naming = .error fault := by
  simp only [Grammar.normalize, Grammar.eliminateLambda, hrefused, bind,
    Except.bind]

theorem normalize_of_accepted (hstart : g.requireContextFree = .ok start)
    (naming : Naming) :
    (∃ n, g.normalize naming = .ok n) ∨
      naming = .letters ∧ ∃ missing, 0 < missing ∧
        g.normalize naming = .error (.lettersExhausted missing) := by
  obtain ⟨lambda, unit, useless, hlambda, hunit, huseless, _, hplain, _⟩ :=
    exists_stages hstart
  obtain ⟨last, hfinish, hmissing⟩ := hplain.exists_finish naming
  by_cases hpositive : 0 < last.names.missing
  · right
    have hletters : naming = .letters := by
      cases naming with
      | numbered => exact absurd (hmissing rfl) (Nat.ne_of_gt hpositive)
      | letters => rfl
    refine ⟨hletters, last.names.missing, hpositive, ?_⟩
    simp only [Grammar.normalize, hlambda, hunit, huseless, hfinish,
      Splitting.finish_of_missing hpositive, bind, Except.bind]
  · left
    rcases Splitting.exists_finish (Nat.eq_zero_of_not_pos hpositive)
      useless.grammar with ⟨c, hc, _⟩
    simp only [Grammar.normalize, hlambda, hunit, huseless, hfinish, hc, bind,
      Except.bind]
    exact ⟨_, rfl⟩

theorem Plain.rhs_spec (hplain : Plain g start) {p : Production}
    (hp : p ∈ g.productions) :
    p.rhs ≠ [] ∧ ∀ s, p.rhs = [s] → s.isVar = false := by
  refine ⟨hplain.rhs_ne_nil p hp, fun s hrhs => ?_⟩
  have hhead := (Grammar.requireContextFree_eq_ok_iff.mp
    hplain.requireContextFree_eq).2 p hp
  simpa [Production.isUnit, hhead, hrhs] using hplain.isUnit_eq p hp

/-- Exactly which grammars are refused, and with which fault.  The stages before
the last leave nothing that the last one would refuse. -/
theorem normalize_faults (g : Grammar) :
    ((∃ n, g.normalize .numbered = .ok n) ↔
      (∃ start, g.start = some start) ∧
        ∀ p ∈ g.productions, ∃ s, p.lhs = [s] ∧ s.isVar = true) ∧
    (g.start = none → ∀ naming, g.normalize naming = .error .missingStart) ∧
    (∀ start before p after, g.start = some start →
      g.productions = before ++ p :: after →
      (∀ q ∈ before, ∃ s, q.lhs = [s] ∧ s.isVar = true) →
      (¬ ∃ s, p.lhs = [s] ∧ s.isVar = true) →
      ∀ naming, g.normalize naming = .error (.notContextFree p)) ∧
    (∀ start, g.start = some start →
      (∀ p ∈ g.productions, ∃ s, p.lhs = [s] ∧ s.isVar = true) →
      ((∃ n, g.normalize .letters = .ok n) ∨ ∃ missing, 0 < missing ∧
        g.normalize .letters = .error (.lettersExhausted missing)) ∧
      ∃ lambda unit useless, g.eliminateLambda = .ok lambda ∧
        lambda.grammar.eliminateUnits = .ok unit ∧
        unit.grammar.eliminateUseless = .ok useless ∧
        (∀ p ∈ unit.grammar.productions,
          p.rhs ≠ [] ∧ ∀ s, p.rhs = [s] → s.isVar = false) ∧
        ∀ p ∈ useless.grammar.productions,
          p ∈ unit.grammar.productions) ∧
    ∀ naming p, g.normalize naming ≠ .error (.outsideNormalForm p) := by
  simp only [← Production.hasHead_iff]
  refine ⟨⟨?_, ?_⟩, ?_, ?_, ?_, ?_⟩
  · rintro ⟨n, hn⟩
    cases hstart : g.requireContextFree with
    | error fault =>
        rw [normalize_of_refused hstart] at hn
        cases hn
    | ok start =>
        obtain ⟨hsome, hfree⟩ := Grammar.requireContextFree_eq_ok_iff.mp hstart
        exact ⟨⟨start, hsome⟩, hfree⟩
  · rintro ⟨⟨start, hsome⟩, hfree⟩
    have hstart := Grammar.requireContextFree_eq_ok_iff.mpr ⟨hsome, hfree⟩
    rcases normalize_of_accepted hstart .numbered with hn | ⟨hletters, _⟩
    · exact hn
    · cases hletters
  · intro hnone naming
    exact normalize_of_refused
      (Grammar.requireContextFree_of_start_none hnone) naming
  · intro start before p after hsome hsplit hbefore hp naming
    refine normalize_of_refused ?_ naming
    exact Grammar.requireContextFree_of_headless hsome hsplit hbefore
      (by simpa using hp)
  · intro start hsome hfree
    have hstart := Grammar.requireContextFree_eq_ok_iff.mpr ⟨hsome, hfree⟩
    obtain ⟨lambda, unit, useless, hlambda, hunit, huseless, hplain, _,
      hsubset⟩ := exists_stages hstart
    refine ⟨?_, lambda, unit, useless, hlambda, hunit, huseless,
      fun p hp => hplain.rhs_spec hp, hsubset⟩
    exact (normalize_of_accepted hstart .letters).imp_right And.right
  · intro naming p hp
    cases hstart : g.requireContextFree with
    | error fault =>
        rw [normalize_of_refused hstart] at hp
        cases hp
        exact Grammar.requireContextFree_ne g p hstart
    | ok start =>
        rcases normalize_of_accepted hstart naming with
          ⟨n, hn⟩ | ⟨_, missing, _, hn⟩
        · rw [hn] at hp
          cases hp
        · rw [hn] at hp
          cases hp

end Normalization

end FormalGrammars
