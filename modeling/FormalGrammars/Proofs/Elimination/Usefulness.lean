import FormalGrammars.Proofs.Elimination.Useless
import Mathlib.Tactic.ByContra

/-!
# What is left of a grammar without useless variables

A grammar is useful when each of its variables derives a terminal string and
occurs in a form that the start derives.  After the first cut every variable
that is left still derives a terminal string, and after the second one it still
occurs in a form that the start derives, so one pass leaves a useful grammar.
In a useful grammar there is nothing to cut, and the passes end.  A variable
that is cut goes with its last production, hence the variables of the grammar
are those that are left, the unproductive ones and the unreachable ones.
-/

namespace FormalGrammars

variable {g : Grammar} {start : Symbol}

/-! ## Useful grammars -/

namespace Grammar

def Occurs (g : Grammar) (start s : Symbol) : Prop :=
  ∃ before after, g.Yields [start] (before ++ s :: after)

theorem Occurs.of_mem_rhs {s t : Symbol} (hs : g.Occurs start s)
    {p : Production} (hmem : p ∈ g.productions) (hhead : p.head? = some s)
    (ht : t ∈ p.rhs) : g.Occurs start t := by
  obtain ⟨before, after, hyields⟩ := hs
  obtain ⟨left, right, hrhs⟩ := List.append_of_mem ht
  have hinside := (Yields.refl before).append
    ((Yields.of_production hmem hhead).append (Yields.refl after))
  refine ⟨before ++ left, right ++ after, ?_⟩
  simpa [hrhs] using hyields.trans hinside

/-- Every variable derives a terminal string and occurs in a form that the start
derives. -/
structure Useful (g : Grammar) (start : Symbol) : Prop where
  produces : ∀ p ∈ g.productions, ∀ s ∈ p.symbols, s.isVar = true →
    g.Produces [s]
  occurs : ∀ p ∈ g.productions, ∀ s ∈ p.symbols, s.isVar = true →
    g.Occurs start s

theorem Useful.produces_of_mem (hg : g.Useful start) {p : Production}
    (hp : p ∈ g.productions) {s : Symbol} (hs : s ∈ p.symbols) :
    g.Produces [s] := by
  cases hvar : s.isVar with
  | true => exact hg.produces p hp s hs hvar
  | false => exact produces_of_isTerm (Symbol.isTerm_of_isVar_eq_false hvar)

theorem Yields.forall_reachable (hstart : g.start = some start)
    {form result : Form} (hyields : g.Yields form result)
    (hform : ∀ s ∈ form, s.isVar = true → s ∈ g.reachable) :
    ∀ s ∈ result, s.isVar = true → s ∈ g.reachable := by
  induction hyields with
  | nil => exact hform
  | keep s _ ih =>
      obtain ⟨hfirst, hrest⟩ := List.forall_mem_cons.mp hform
      exact List.forall_mem_cons.mpr ⟨hfirst, ih hrest⟩
  | @expand s p rest left right hmem hhead _ _ ihrhs ihrest =>
      obtain ⟨hfirst, hrest⟩ := List.forall_mem_cons.mp hform
      have hs := hfirst (isVar_of_head? hhead)
      have hleft := ihrhs fun t ht =>
        mem_reachable_of_mem_rhs hstart hs hmem hhead ht
      intro t ht
      rcases List.mem_append.mp ht with ht | ht
      · exact hleft t ht
      · exact ihrest hrest t ht

theorem Useful.mem_reachable (hg : g.Useful start)
    (hstart : g.start = some start) {p : Production} (hp : p ∈ g.productions)
    {s : Symbol} (hs : s ∈ p.symbols) (hvar : s.isVar = true) :
    s ∈ g.reachable := by
  obtain ⟨before, after, hyields⟩ := hg.occurs p hp s hs hvar
  refine hyields.forall_reachable hstart ?_ s (by simp) hvar
  intro t ht _
  rw [List.mem_singleton.mp ht]
  exact (mem_reachable_iff hstart).mpr (.inl rfl)

theorem Useful.dead_eq_nil (hg : g.Useful start) (hconsistent : g.Consistent) :
    Pruning.dead g = [] := by
  rw [List.eq_nil_iff_forall_not_mem]
  intro s hs
  obtain ⟨hvariable, hunproductive⟩ := Pruning.mem_dead.mp hs
  obtain ⟨hvar, p, hp, hoccurs⟩ := hconsistent.mem_variables_iff.mp hvariable
  obtain ⟨word, hword, hyields⟩ := hg.produces p hp s hoccurs hvar
  exact hunproductive (hyields.mem_productive hword s (by simp) hvar)

theorem Useful.lost_eq_nil (hg : g.Useful start) (hconsistent : g.Consistent)
    (hstart : g.start = some start) : Pruning.lost g = [] := by
  rw [List.eq_nil_iff_forall_not_mem]
  intro s hs
  obtain ⟨hvariable, hunreachable⟩ := Pruning.mem_lost.mp hs
  obtain ⟨hvar, p, hp, hoccurs⟩ := hconsistent.mem_variables_iff.mp hvariable
  exact hunreachable (hg.mem_reachable hstart hp hoccurs hvar)

theorem Useful.of_productions_eq {h : Grammar} (hg : g.Useful start)
    (hsame : h.productions = g.productions) : h.Useful start := by
  have hmono : ∀ {form result}, g.Yields form result → h.Yields form result :=
    fun hyields => hyields.mono fun p hp => hsame ▸ hp
  constructor
  · intro p hp s hs hvar
    obtain ⟨word, hword, hyields⟩ := hg.produces p (hsame ▸ hp) s hs hvar
    exact ⟨word, hword, hmono hyields⟩
  · intro p hp s hs hvar
    obtain ⟨before, after, hyields⟩ := hg.occurs p (hsame ▸ hp) s hs hvar
    exact ⟨before, after, hmono hyields⟩

end Grammar

theorem UselessElimination.Describes.useful {e : UselessElimination}
    (he : e.Describes g start) : e.grammar.Useful start := by
  have hvariable : ∀ p ∈ e.grammar.productions, ∀ s ∈ p.symbols,
      s.isVar = true → s ∈ e.grammar.variables := fun p hp s hs hvar =>
    he.consistent.mem_variables_iff.mpr ⟨hvar, p, hp, hs⟩
  constructor
  · exact fun p hp s hs hvar => he.productive s (hvariable p hp s hs hvar)
  · intro p hp s hs hvar
    have hs := he.reachable s (hvariable p hp s hs hvar)
    rcases (Grammar.mem_reachable_iff he.start_eq).mp hs with rfl | ⟨path, hwalk⟩
    · exact ⟨[], [], .refl [s]⟩
    · exact Grammar.exists_yields_of_walk hwalk

/-! ## One pass -/

namespace Pruning

theorem productions_without (hg : g.Consistent) (symbols : List Symbol) :
    (without g symbols).productions =
      g.productions.filter fun p => !p.symbols.any (symbols.contains ·) := by
  unfold without
  split
  next hempty =>
    rw [List.isEmpty_iff.mp hempty]
    exact (List.filter_eq_self.mpr fun p _ => by simp).symm
  next =>
    rw [Grammar.productions_withProductions]
    apply extendNew_eq_append
    exact List.Pairwise.filter _ hg.productions_nodup

/-- A variable that still derives a terminal string has a production left. -/
theorem mem_variables_without (hg : g.Consistent) {symbols : List Symbol}
    (hproduces : ∀ s ∈ g.variables, s ∉ symbols →
      (without g symbols).Produces [s]) {s : Symbol} :
    s ∈ (without g symbols).variables ↔ s ∈ g.variables ∧ s ∉ symbols := by
  have hconsistent := consistent_without hg symbols
  constructor
  · intro hs
    rcases hconsistent.mem_variables_iff.mp hs with ⟨hvar, p, hp, hoccurs⟩
    have hkept := mem_without.mp hp
    exact ⟨hg.mem_variables_iff.mpr ⟨hvar, p, hkept.1, hoccurs⟩,
      hkept.2 s hoccurs⟩
  · intro hs
    have hvar := (hg.mem_variables_iff.mp hs.1).1
    rcases hproduces s hs.1 hs.2 with ⟨word, hword, hyields⟩
    rcases hyields.exists_production hvar hword with ⟨p, hp, hhead, _⟩
    exact hconsistent.mem_variables_of_head? hp hhead

/-- The grammar after the first cut of a pass. -/
def alive (g : Grammar) : Grammar :=
  without g (dead g)

/-- The grammar after both cuts of a pass. -/
def core (g : Grammar) : Grammar :=
  without (alive g) (lost (alive g))

theorem produces_alive {s : Symbol} (hs : s ∈ g.variables)
    (halive : s ∉ dead g) : (alive g).Produces [s] := by
  have hmem : s ∈ g.productive := by
    by_contra hunproductive
    exact halive (mem_dead.mpr ⟨hs, hunproductive⟩)
  rcases ((Grammar.allProduce_and_fixed g).1 s hmem).2 with
    ⟨word, hword, hyields⟩
  exact ⟨word, hword, yields_without_dead hyields hword⟩

theorem consistent_alive (hg : g.Consistent) : (alive g).Consistent :=
  consistent_without hg _

theorem start_alive (g : Grammar) : (alive g).start = g.start :=
  start_without _ _

theorem mem_variables_alive (hg : g.Consistent) {s : Symbol} :
    s ∈ (alive g).variables ↔ s ∈ g.variables ∧ s ∉ dead g :=
  mem_variables_without hg fun _ => produces_alive

theorem produces_core (hg : g.Consistent) (hstart : g.start = some start)
    {s : Symbol} (hs : s ∈ (alive g).variables)
    (hreachable : s ∈ (alive g).reachable) : (core g).Produces [s] := by
  have hsource := (mem_variables_alive hg).mp hs
  rcases produces_alive hsource.1 hsource.2 with ⟨word, hword, hyields⟩
  have halive := (start_alive g).trans hstart
  refine ⟨word, hword, yields_without_lost halive hyields ?_⟩
  intro t ht _
  rw [List.mem_singleton.mp ht]
  exact hreachable

theorem mem_reachable_of_not_mem_lost {s : Symbol} (hs : s ∈ g.variables)
    (hkept : s ∉ lost g) : s ∈ g.reachable := by
  by_contra hunreachable
  exact hkept (mem_lost.mpr ⟨hs, hunreachable⟩)

theorem mem_variables_core (hg : g.Consistent) (hstart : g.start = some start)
    {s : Symbol} :
    s ∈ (core g).variables ↔ s ∈ (alive g).variables ∧ s ∉ lost (alive g) :=
  mem_variables_without (consistent_alive hg) fun _ hs hkept =>
    produces_core hg hstart hs (mem_reachable_of_not_mem_lost hs hkept)

theorem occurs_core (hstart : g.start = some start) {s : Symbol}
    (hreachable : s ∈ (alive g).reachable) : (core g).Occurs start s := by
  have halive := (start_alive g).trans hstart
  rcases (Grammar.mem_reachable_iff halive).mp hreachable with
    heq | ⟨path, hwalk⟩
  · rw [heq]
    exact ⟨[], [], .refl [start]⟩
  · rcases Grammar.exists_yields_of_walk hwalk with ⟨before, after, hyields⟩
    refine ⟨before, after, yields_without_lost halive hyields ?_⟩
    intro t ht _
    rw [List.mem_singleton.mp ht]
    exact (Grammar.mem_reachable_iff halive).mpr (.inl rfl)

theorem consistent_core (hg : g.Consistent) : (core g).Consistent :=
  consistent_without (consistent_alive hg) _

theorem start_core (g : Grammar) : (core g).start = g.start :=
  (start_without _ _).trans (start_alive g)

theorem useful_core (hg : g.Consistent) (hstart : g.start = some start) :
    (core g).Useful start := by
  have hkept : ∀ p ∈ (core g).productions, ∀ s ∈ p.symbols, s.isVar = true →
      s ∈ (alive g).variables ∧ s ∈ (alive g).reachable := by
    intro p hp s hs hvar
    have hmem := (consistent_core hg).mem_variables_iff.mpr ⟨hvar, p, hp, hs⟩
    have hsource := (mem_variables_core hg hstart).mp hmem
    exact ⟨hsource.1, mem_reachable_of_not_mem_lost hsource.1 hsource.2⟩
  constructor
  · intro p hp s hs hvar
    have hsource := hkept p hp s hs hvar
    exact produces_core hg hstart hsource.1 hsource.2
  · intro p hp s hs hvar
    exact occurs_core hstart (hkept p hp s hs hvar).2

theorem pass_eq_core (hg : g.Consistent) :
    pass ⟨g, [], []⟩ = ⟨core g, dead g, lost (alive g)⟩ := by
  have hdead : extendNew [] (dead g) = dead g :=
    extendNew_eq_append (List.Pairwise.filter _ hg.variables_nodup)
  have hlost : extendNew [] (lost (alive g)) = lost (alive g) := by
    apply extendNew_eq_append
    exact List.Pairwise.filter _ (consistent_alive hg).variables_nodup
  change Pruning.mk (core g) (extendNew [] (dead g))
    (extendNew [] (lost (alive g))) = _
  rw [hdead, hlost]

theorem sublist_core (hg : g.Consistent) :
    (core g).productions.Sublist g.productions := by
  have hfirst : (alive g).productions.Sublist g.productions := by
    rw [alive, productions_without hg]
    exact List.filter_sublist
  have hsecond : (core g).productions.Sublist (alive g).productions := by
    rw [core, productions_without (consistent_alive hg)]
    exact List.filter_sublist
  exact hsecond.trans hfirst

/-- The variables that are left and those that are cut, each listed once. -/
theorem nodup_parts (hg : g.Consistent) (hstart : g.start = some start) :
    ((core g).variables ++ dead g ++ lost (alive g)).Nodup := by
  have hcore := (consistent_core hg).variables_nodup
  have hdead : (dead g).Nodup :=
    List.Pairwise.filter _ hg.variables_nodup
  have hlost : (lost (alive g)).Nodup :=
    List.Pairwise.filter _ (consistent_alive hg).variables_nodup
  have hsource : ∀ s ∈ (core g).variables,
      s ∉ dead g ∧ s ∉ lost (alive g) := by
    intro s hs
    have hkept := (mem_variables_core hg hstart).mp hs
    exact ⟨((mem_variables_alive hg).mp hkept.1).2, hkept.2⟩
  have hapart : ∀ s ∈ lost (alive g), s ∉ dead g := by
    intro s hs
    exact ((mem_variables_alive hg).mp (mem_lost.mp hs).1).2
  have hleft : ((core g).variables ++ dead g).Nodup := by
    refine List.nodup_append.mpr ⟨hcore, hdead, ?_⟩
    intro s hs t ht heq
    exact (hsource s hs).1 (heq ▸ ht)
  refine List.nodup_append.mpr ⟨hleft, hlost, ?_⟩
  intro s hs t ht heq
  rw [← heq] at ht
  rcases List.mem_append.mp hs with hin | hin
  · exact (hsource s hin).2 ht
  · exact hapart s ht hin

theorem mem_parts (hg : g.Consistent) (hstart : g.start = some start)
    {s : Symbol} :
    s ∈ g.variables ↔
      s ∈ (core g).variables ++ dead g ++ lost (alive g) := by
  rw [List.mem_append, List.mem_append, mem_variables_core hg hstart]
  constructor
  · intro hs
    by_cases hdead : s ∈ dead g
    · exact .inl (.inr hdead)
    · have halive := (mem_variables_alive hg).mpr ⟨hs, hdead⟩
      by_cases hlost : s ∈ lost (alive g)
      · exact .inr hlost
      · exact .inl (.inl ⟨halive, hlost⟩)
  · intro hs
    rcases hs with (hcore | hdead) | hlost
    · exact ((mem_variables_alive hg).mp hcore.1).1
    · exact (mem_dead.mp hdead).1
    · exact ((mem_variables_alive hg).mp (mem_lost.mp hlost).1).1

end Pruning

/-! ## The result -/

namespace UselessElimination

open Pruning

/-- The passes that are granted are enough for the one that cuts. -/
theorem eliminateUseless_eq (hg : g.Consistent)
    (hstart : g.requireContextFree = .ok start) :
    g.eliminateUseless = .ok ⟨core g, dead g, lost (alive g),
      (core g).terminals.isEmpty⟩ := by
  have hsome := (Grammar.requireContextFree_eq_ok_iff.mp hstart).1
  have hlast : iterateUntilStable Pruning.pass g.productions.length ⟨g, [], []⟩ =
      ⟨core g, dead g, lost (alive g)⟩ := by
    rw [← pass_eq_core hg]
    cases hcount : g.productions.length with
    | zero =>
        have hnothing := (prunes_iterate hg hsome).2
        simp only [hcount, iterateUntilStable] at hnothing
        exact (pass_eq_self hnothing.1 hnothing.2).symm
    | succ count =>
        have huseful := useful_core hg hsome
        have hcore := consistent_core hg
        rw [iterateUntilStable_eq_stepTimes, stepTimes, pass_eq_core hg]
        apply stepTimes_of_fixed
        exact pass_eq_self (huseful.dead_eq_nil hcore)
          (huseful.lost_eq_nil hcore ((start_core g).trans hsome))
  unfold Grammar.eliminateUseless
  rw [hstart]
  simp only [bind, Except.bind, pure, Except.pure, hlast]

/-- The first pass cuts whatever is to be cut and the second one finds nothing,
so the passes end there.  Within a pass the productive variables are collected
until nothing changes, and a search goes on until every discovered node was
visited: more rounds would change neither. -/
structure Ends (g : Grammar) (last : Pruning) : Prop where
  pass_eq : Pruning.pass ⟨g, [], []⟩ = last
  dead_eq_nil : dead last.grammar = []
  lost_eq_nil : lost last.grammar = []
  productive_fixed : ∀ h : Grammar,
    h.productions.foldl absorbProductive h.productive = h.productive
  search_fixed : ∀ (graph : VariableGraph) (source : Symbol) (extra : Nat),
    graph.explore (graph.edgeCount + extra) 0 (graph.visit ⟨[]⟩ source) =
      graph.search source

/-- What is left of a grammar and what was cut. -/
structure Partitions (g : Grammar) (start : Symbol)
    (e : UselessElimination) : Prop where
  start_eq : e.grammar.start = some start
  derives_iff : ∀ word, Form.isTerminal word = true →
    (e.grammar.Derives [start] word ↔ g.Derives [start] word)
  sublist : e.grammar.productions.Sublist g.productions
  occurs : ∀ s ∈ e.grammar.variables,
    ∃ before after, e.grammar.Derives [start] (before ++ s :: after)
  produces : ∀ s ∈ e.grammar.variables,
    ∃ word, Form.isTerminal word = true ∧ e.grammar.Derives [s] word
  nodup : (e.grammar.variables ++ e.unproductive ++ e.unreachable).Nodup
  mem_iff : ∀ s, s ∈ g.variables ↔
    s ∈ e.grammar.variables ++ e.unproductive ++ e.unreachable
  unproductive_iff : ∀ s, s ∈ e.unproductive ↔ s ∈ g.variables ∧
    ¬ ∃ word, Form.isTerminal word = true ∧ g.Derives [s] word
  emptyLanguage_iff : e.emptyLanguage = true ↔
    ∀ word, g.Language word → word = []

theorem ends_core (hg : g.Consistent) (hstart : g.start = some start) :
    Ends g ⟨core g, dead g, lost (alive g)⟩ := by
  have huseful := useful_core hg hstart
  have hcore := consistent_core hg
  constructor
  · exact pass_eq_core hg
  · exact huseful.dead_eq_nil hcore
  · exact huseful.lost_eq_nil hcore ((start_core g).trans hstart)
  · intro h
    exact foldl_eq_self (Grammar.allProduce_and_fixed h).2
  · exact VariableGraph.explore_eq_search

theorem mem_dead_iff_not_produces {s : Symbol} :
    s ∈ dead g ↔ s ∈ g.variables ∧ ¬ g.Produces [s] := by
  rw [mem_dead]
  refine and_congr_right fun hs => not_congr ?_
  constructor
  · intro hmem
    exact ((Grammar.allProduce_and_fixed g).1 s hmem).2
  · intro hproduces
    rcases hproduces with ⟨word, hword, hyields⟩
    have hvar : s.isVar = true := (List.mem_filter.mp hs).2
    exact hyields.mem_productive hword s List.mem_cons_self hvar

theorem describes_core (hg : g.Consistent)
    (hstart : g.requireContextFree = .ok start) :
    Describes g start ⟨core g, dead g, lost (alive g),
      (core g).terminals.isEmpty⟩ := by
  rcases describes_eliminateUseless hg hstart with ⟨e, hbuilt, he⟩
  rw [eliminateUseless_eq hg hstart] at hbuilt
  rwa [Except.ok.inj hbuilt]

theorem occurs_and_produces_core (hg : g.Consistent)
    (hstart : g.start = some start) {s : Symbol}
    (hs : s ∈ (core g).variables) :
    (core g).Occurs start s ∧ (core g).Produces [s] := by
  have huseful := useful_core hg hstart
  rcases (consistent_core hg).mem_variables_iff.mp hs with
    ⟨hvar, p, hp, hoccurs⟩
  exact ⟨huseful.occurs p hp s hoccurs hvar,
    huseful.produces p hp s hoccurs hvar⟩

theorem partitions_core (hg : g.Consistent)
    (hstart : g.requireContextFree = .ok start) :
    Partitions g start ⟨core g, dead g, lost (alive g),
      (core g).terminals.isEmpty⟩ := by
  have hsome := (Grammar.requireContextFree_eq_ok_iff.mp hstart).1
  have hfree := (Grammar.requireContextFree_eq_ok_iff.mp hstart).2
  have he := describes_core hg hstart
  constructor
  · exact he.start_eq
  · intro word hword
    rw [← Grammar.yields_iff_derives hfree,
      ← Grammar.yields_iff_derives he.contextFree]
    exact he.yields_iff hword
  · exact sublist_core hg
  · intro s hs
    rcases (occurs_and_produces_core hg hsome hs).1 with
      ⟨before, after, hyields⟩
    exact ⟨before, after, hyields.derives⟩
  · intro s hs
    rcases (occurs_and_produces_core hg hsome hs).2 with
      ⟨word, hword, hyields⟩
    exact ⟨word, hword, hyields.derives⟩
  · exact nodup_parts hg hsome
  · intro s
    exact mem_parts hg hsome
  · intro s
    simp only [← Grammar.yields_iff_derives hfree]
    exact mem_dead_iff_not_produces
  · rw [he.emptyLanguage_iff]
    simp only [Grammar.language_iff_yields hstart, and_imp]

/-- The elimination ends.  It keeps the terminal strings of the start and the
order of the productions, leaves useful variables only, and lists each variable
that is cut once: the unproductive ones, and those that are unreachable then. -/
theorem eliminateUseless_partitions (hg : g.Consistent)
    (hstart : g.requireContextFree = .ok start) :
    ∃ e, g.eliminateUseless = .ok e ∧
      Ends g ⟨e.grammar, e.unproductive, e.unreachable⟩ ∧
      e.Partitions g start := by
  have hsome := (Grammar.requireContextFree_eq_ok_iff.mp hstart).1
  exact ⟨_, eliminateUseless_eq hg hstart, ends_core hg hsome,
    partitions_core hg hstart⟩

/-- `S → AB | aC`, `A → aA`, `B → b`, `C → c | λ` and `D → S`: without `A`
nothing leads to `B` any more. -/
def orphaned : Grammar :=
  Grammar.withProductions { start := some (.var "S") }
    [.rule (.var "S") [.var "A", .var "B"],
      .rule (.var "S") [.term "a", .var "C"],
      .rule (.var "A") [.term "a", .var "A"],
      .rule (.var "B") [.term "b"],
      .rule (.var "C") [.term "c"],
      .rule (.var "C") [],
      .rule (.var "D") [.var "S"]]

theorem eliminateUseless_orphaned :
    ∃ e, orphaned.eliminateUseless = .ok e ∧
      e.grammar.variables = [.var "S", .var "C"] ∧
      e.unproductive = [.var "A"] ∧ e.unreachable = [.var "B", .var "D"] ∧
      (¬ ∃ word, Form.isTerminal word = true ∧
        orphaned.Derives [.var "A"] word) ∧
      ∃ before after,
        e.grammar.Derives [.var "S"] (before ++ .var "C" :: after) := by
  have hbuilt : ∃ e, orphaned.eliminateUseless = .ok e ∧
      e.grammar.variables = [.var "S", .var "C"] ∧
      e.unproductive = [.var "A"] ∧ e.unreachable = [.var "B", .var "D"] :=
    ⟨_, rfl, by decide +kernel, by decide +kernel, by decide +kernel⟩
  rcases hbuilt with ⟨built, hbuilt, hleft, hdead, hlost⟩
  rcases eliminateUseless_partitions (Grammar.consistent_of_start rfl _)
    (g := orphaned) rfl with ⟨e, he, _, hparts⟩
  have hsame : built = e := Except.ok.inj (hbuilt.symm.trans he)
  subst hsame
  refine ⟨built, he, hleft, hdead, hlost, ?_, ?_⟩
  · have hunproductive := hparts.unproductive_iff (.var "A")
    rw [hdead] at hunproductive
    exact (hunproductive.mp List.mem_cons_self).2
  · apply hparts.occurs
    rw [hleft]
    decide

end UselessElimination

end FormalGrammars
