import FormalGrammars.Proofs.NormalForm.Faults
import FormalGrammars.Proofs.NormalForm.Usefulness
import FormalGrammars.Proofs.Recognition

/-!
# A normal form is normalized to itself

A useful grammar in Chomsky normal form has no nullable variables, no unit
productions and no useless variables, so the eliminations find nothing to do,
and no production is split.  Each stage returns the productions in the order in
which it gets them.  The result of a normalization is such a grammar, so a
second normalization changes nothing, however helpers are to be named.
-/

namespace FormalGrammars

variable {g h : Grammar} {start : Symbol}

/-- A useful grammar in Chomsky normal form. -/
structure Grammar.Normal (g : Grammar) (start : Symbol) : Prop where
  consistent : g.Consistent
  start_eq : g.start = some start
  isChomsky : ∀ p ∈ g.productions, p.isChomsky = true
  useful : g.Useful start

/-! ## Productions in normal form -/

namespace Production

variable {p : Production}

theorem isUnit_of_isChomsky (hp : p.isChomsky = true) : p.isUnit = false := by
  rw [isChomsky, Bool.and_eq_true] at hp
  rw [isUnit, hp.1, Bool.true_and]
  have hshape := hp.2
  split at hshape
  next s hrhs =>
    rw [hrhs]
    exact Bool.eq_false_iff.mpr (Symbol.not_isVar_of_isTerm hshape)
  next s t hrhs =>
    rw [hrhs]
  next => cases hshape

theorem rhs_ne_nil_of_isChomsky (hp : p.isChomsky = true) : p.rhs ≠ [] := by
  intro hrhs
  simp [isChomsky, hrhs] at hp

theorem isLambda_of_isChomsky (hp : p.isChomsky = true) :
    p.isLambda = false := by
  rw [isLambda, List.isEmpty_eq_false_iff.mpr (rhs_ne_nil_of_isChomsky hp),
    Bool.and_false]

end Production

namespace Grammar

theorem Normal.requireContextFree_eq (hg : g.Normal start) :
    g.requireContextFree = .ok start :=
  requireContextFree_eq_ok_iff.mpr ⟨hg.start_eq,
    fun p hp => Production.hasHead_of_isChomsky (hg.isChomsky p hp)⟩

theorem Normal.of_productions_eq (hg : g.Normal start) (hh : h.Consistent)
    (hstart : h.start = g.start) (hsame : h.productions = g.productions) :
    h.Normal start :=
  ⟨hh, hstart.trans hg.start_eq, fun p hp => hg.isChomsky p (hsame ▸ hp),
    hg.useful.of_productions_eq hsame⟩

theorem Consistent.productions_withProductions_self (hg : g.Consistent) :
    (g.withProductions g.productions).productions = g.productions := by
  rw [productions_withProductions]
  exact extendNew_eq_append hg.productions_nodup

theorem Normal.withProductions (hg : g.Normal start) :
    (g.withProductions g.productions).Normal start :=
  hg.of_productions_eq (hg.consistent.withProductions _)
    (start_withProductions _) hg.consistent.productions_withProductions_self

/-! ## No nullable variables -/

theorem Normal.contains_nullability (hg : g.Normal start) (s : Symbol) :
    g.nullability.contains s = false := by
  rw [Bool.eq_false_iff]
  intro hs
  have hyields := Nullability.contains_iff_yields.mp hs
  exact hyields.ne_nil (fun p hp =>
    Production.rhs_ne_nil_of_isChomsky (hg.isChomsky p hp)) (by simp) rfl

end Grammar

theorem Nullability.eq_keepAll_of_allows {n : Nullability}
    (hn : ∀ s, n.contains s = false) {form : Form} {mask : List Bool}
    (hallows : n.Allows form mask) : mask = form.map fun _ => true := by
  induction form generalizing mask with
  | nil =>
      cases mask with
      | nil => rfl
      | cons => exact hallows.elim
  | cons s form ih =>
      cases mask with
      | nil => exact hallows.elim
      | cons kept mask =>
          cases kept with
          | true => rw [ih hallows.2, List.map_cons]
          | false => simpa [hn s] using hallows.1 rfl

theorem Nullability.IsVariant.eq {n : Nullability}
    (hn : ∀ s, n.contains s = false) {p q : Production} {mask : List Bool}
    (hvariant : n.IsVariant p q mask) : q = p := by
  obtain ⟨head, hhead, rfl⟩ := hvariant.eq_rule
  rw [eq_keepAll_of_allows hn hvariant.allows, select_keepAll]
  exact (Production.eq_rule_of_head? hhead).symm

namespace LambdaElimination

theorem keys_unchanged (hg : g.Normal start) :
    (unchanged g).keys = g.productions := by
  have hkept : (g.productions.filter fun p => !p.isLambda) = g.productions := by
    rw [List.filter_eq_self]
    intro p hp
    rw [Production.isLambda_of_isChomsky (hg.isChomsky p hp)]
    rfl
  have hfold : unchanged g = (g.productions.map fun p =>
      (p, (⟨p, p.rhs.map fun _ => true⟩ : Cut))).foldl
        (fun m entry => m.insert entry.1 entry.2) ⟨[]⟩ := by
    rw [unchanged, hkept, List.foldl_map]
  rw [hfold, OrderedMap.keys_foldl_insert, List.map_map]
  have hmap : (Prod.fst ∘ fun p : Production =>
      (p, (⟨p, p.rhs.map fun _ => true⟩ : Cut))) = id := rfl
  rw [hmap, List.map_id]
  exact extendNew_eq_append hg.consistent.productions_nodup

theorem keys_originsOf (hg : g.Normal start) :
    (originsOf g g.nullability).keys = g.productions := by
  rw [originsOf_eq, OrderedMap.keys_foldl_insertIfNew, keys_unchanged hg]
  apply extendNew_eq_self
  intro q hq
  obtain ⟨entry, hentry, rfl⟩ := List.mem_map.mp hq
  obtain ⟨p, hp, hmem⟩ := List.mem_flatMap.mp hentry
  obtain ⟨⟨variant, kept⟩, hvariant, rfl⟩ := List.mem_map.mp hmem
  have heq := (Nullability.isVariant_of_mem_variants hvariant).eq
    hg.contains_nullability
  exact heq.symm ▸ hp

end LambdaElimination

theorem Grammar.Normal.eliminateLambda (hg : g.Normal start) :
    ∃ e, g.eliminateLambda = .ok e ∧ e.grammar.Normal start ∧
      e.grammar.productions = g.productions := by
  obtain ⟨e, he, hdescribes⟩ :=
    LambdaElimination.describes_eliminateLambda hg.requireContextFree_eq
  have hgrammar : e.grammar = g.withProductions g.productions := by
    rw [hdescribes.grammar_eq, hdescribes.origins_eq,
      LambdaElimination.keys_originsOf hg]
  refine ⟨e, he, ?_, ?_⟩
  · exact hgrammar ▸ hg.withProductions
  · exact hgrammar ▸ hg.consistent.productions_withProductions_self

/-! ## No unit productions, no useless variables -/

namespace Grammar

theorem Normal.not_hasEdge (hg : g.Normal start) (s t : Symbol) :
    ¬ (VariableGraph.ofUnits g).hasEdge s t = true := by
  intro hedge
  obtain ⟨hvar, p, hp, hhead, hrhs⟩ := VariableGraph.hasEdge_ofUnits.mp hedge
  have hunit := Production.isUnit_of_isChomsky (hg.isChomsky p hp)
  simp [Production.isUnit, Production.hasHead, hhead, hrhs, hvar] at hunit

theorem Normal.borrowedBy_eq_nil (hg : g.Normal start) (s : Symbol) :
    g.borrowedBy (.ofUnits g) s = [] := by
  rw [List.eq_nil_iff_forall_not_mem]
  rintro ⟨q, borrowing⟩ hmem
  cases UnitElimination.borrows_of_mem_borrowedBy hmem with
  | intro hwalk =>
      cases hwalk with
      | edge hedge => exact hg.not_hasEdge _ _ hedge
      | cons hedge _ => exact hg.not_hasEdge _ _ hedge

theorem Normal.eliminateUnits (hg : g.Normal start) :
    ∃ e, g.eliminateUnits = .ok e ∧ e.grammar.Normal start ∧
      e.grammar.productions = g.productions := by
  have hkept : (g.productions.filter fun p => !p.isUnit) = g.productions := by
    rw [List.filter_eq_self]
    intro p hp
    rw [Production.isUnit_of_isChomsky (hg.isChomsky p hp)]
    rfl
  have hnone : (VariableGraph.ofUnits g).nodes.flatMap
      (g.borrowedBy (.ofUnits g)) = [] :=
    List.flatMap_eq_nil_iff.mpr fun s _ => hg.borrowedBy_eq_nil s
  unfold Grammar.eliminateUnits
  rw [hg.requireContextFree_eq]
  simp only [bind, Except.bind, pure, Except.pure, hkept, hnone]
  refine ⟨_, rfl, ?_, ?_⟩
  · simpa [OrderedMap.keys] using hg.withProductions
  · simpa [OrderedMap.keys] using
      hg.consistent.productions_withProductions_self

theorem Normal.eliminateUseless (hg : g.Normal start) :
    ∃ e, g.eliminateUseless = .ok e ∧ e.grammar = g ∧ e.unproductive = [] ∧
      e.unreachable = [] := by
  have hfixed : Pruning.pass ⟨g, [], []⟩ = ⟨g, [], []⟩ :=
    Pruning.pass_eq_self (hg.useful.dead_eq_nil hg.consistent)
      (hg.useful.lost_eq_nil hg.consistent hg.start_eq)
  have hlast : iterateUntilStable Pruning.pass g.productions.length
      ⟨g, [], []⟩ = ⟨g, [], []⟩ := by
    rw [iterateUntilStable_eq_stepTimes]
    exact stepTimes_of_fixed hfixed _
  unfold Grammar.eliminateUseless
  rw [hg.requireContextFree_eq]
  simp only [bind, Except.bind, pure, Except.pure, hlast]
  exact ⟨_, rfl, rfl, rfl, rfl⟩

end Grammar

/-! ## Nothing to split -/

namespace Splitting

theorem split_of_isChomsky (c : Splitting) {p : Production}
    (hp : p.isChomsky = true) :
    c.split p = .ok ([p], { c with output := insertNew c.output p }) := by
  obtain ⟨head, hhead⟩ :=
    Option.isSome_iff_exists.mp (Production.hasHead_of_isChomsky hp)
  unfold split Production.shape
  simp [Production.hasHead, hhead, Production.isLambda_of_isChomsky hp,
    Production.isUnit_of_isChomsky hp, hp]

theorem foldlM_split_of_isChomsky {ps : List Production}
    (hps : ∀ p ∈ ps, p.isChomsky = true) (c : Splitting) :
    ps.foldlM (fun c p => (c.split p).map Prod.snd) c =
      .ok { c with output := extendNew c.output ps } := by
  induction ps generalizing c with
  | nil => rfl
  | cons p ps ih =>
      rw [List.foldlM_cons, split_of_isChomsky c (hps p List.mem_cons_self)]
      exact ih (fun q hq => hps q (List.mem_cons_of_mem p hq)) _

end Splitting

theorem Grammar.Normal.toChomskyForm (hg : g.Normal start) (naming : Naming) :
    ∃ c, g.toChomskyForm naming = .ok c ∧ c.grammar.start = some start ∧
      c.grammar.productions = g.productions ∧ c.helpers.entries = [] := by
  have houtput : extendNew [] g.productions = g.productions :=
    extendNew_eq_append hg.consistent.productions_nodup
  have hfold := Splitting.foldlM_split_of_isChomsky hg.isChomsky
    (Splitting.ofGrammar g naming)
  rw [toChomskyForm_eq_finish hg.requireContextFree_eq hfold]
  refine ⟨_, Splitting.finish_eq_ok_iff.mpr ⟨rfl, rfl⟩,
    (start_withProductions _).trans hg.start_eq, ?_, rfl⟩
  rw [productions_withProductions]
  exact (congrArg (extendNew []) houtput).trans houtput

/-! ## Normalizing twice -/

namespace Normalization

variable {n : Normalization} {naming : Naming}

theorem normal_grammar (hg : g.Consistent)
    (hn : g.normalize naming = .ok n) :
    ∃ start, n.grammar.Normal start := by
  obtain ⟨start, hdescribes⟩ := describes_normalize hg hn
  have huseful := ChomskyForm.useful_toChomskyForm hdescribes.useless.consistent
    hdescribes.useless.requireContextFree_eq_ok hdescribes.useless.useful
    (stages_of_normalize hn).2.2.2
  exact ⟨start, hdescribes.chomsky.consistent, hdescribes.start_grammar,
    fun p hp => hdescribes.chomsky.isChomsky hp, huseful⟩

/-- The eliminations leave a normal grammar as it is, and no helper is minted
for it. -/
theorem normalize_normal (hg : g.Normal start) (naming : Naming) :
    ∃ m, g.normalize naming = .ok m ∧ m.grammar.start = g.start ∧
      m.grammar.productions = g.productions ∧
      m.chomsky.helpers.entries = [] ∧ m.useless.unproductive = [] ∧
      m.useless.unreachable = [] ∧ m.useless.grammar = m.unit.grammar := by
  obtain ⟨lambda, hlambda, hfirst, hfirstSame⟩ := hg.eliminateLambda
  obtain ⟨unit, hunit, hsecond, hsecondSame⟩ := hfirst.eliminateUnits
  obtain ⟨useless, huseless, hgrammar, hdead, hlost⟩ := hsecond.eliminateUseless
  obtain ⟨chomsky, hchomsky, hstart, hsame, hhelpers⟩ :=
    hsecond.toChomskyForm naming
  refine ⟨⟨lambda, unit, useless, chomsky⟩, ?_, ?_, ?_, hhelpers, hdead, hlost,
    hgrammar⟩
  · simp only [Grammar.normalize, hlambda, hunit, huseless, hgrammar, hchomsky,
      bind, Except.bind]
    rfl
  · exact hstart.trans hg.start_eq.symm
  · exact (hsame.trans hsecondSame).trans hfirstSame

/-- Normalizing the result of a normalization again changes nothing. -/
theorem normalize_again (hg : g.Consistent) (hn : g.normalize naming = .ok n)
    (other : Naming) :
    ∃ m, n.grammar.normalize other = .ok m ∧
      m.grammar.start = n.grammar.start ∧
      m.grammar.productions = n.grammar.productions ∧
      m.chomsky.helpers.entries = [] ∧ m.useless.unproductive = [] ∧
      m.useless.unreachable = [] ∧ m.useless.grammar = m.unit.grammar := by
  obtain ⟨start, hnormal⟩ := normal_grammar hg hn
  exact normalize_normal hnormal other

/-- The second normalization may name its helpers by letters. -/
theorem normalize_again_filledPairs :
    ∃ n m, filledPairs.normalize .numbered = .ok n ∧
      n.grammar.normalize .letters = .ok m ∧
      m.grammar.productions = n.grammar.productions ∧
      n.chomsky.helpers.entries ≠ [] ∧ m.chomsky.helpers.entries = [] := by
  have hbuilt : ∃ n, filledPairs.normalize .numbered = .ok n ∧
      n.chomsky.helpers.entries ≠ [] := ⟨_, rfl, by decide +kernel⟩
  obtain ⟨n, hn, hhelpers⟩ := hbuilt
  obtain ⟨m, hm, _, hsame, hnone, _⟩ :=
    normalize_again (Grammar.consistent_of_start rfl _) hn .letters
  exact ⟨n, m, hn, hm, hsame, hhelpers, hnone⟩

end Normalization

end FormalGrammars
