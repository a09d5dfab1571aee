import FormalGrammars.Proofs.NormalForm.Equivalence
import FormalGrammars.Proofs.NormalForm.Supply

/-!
# Helpers are new

The names of all symbols that occur in the productions are taken before the
first helper is minted, and each helper takes its name.  So the helpers have
different names, and none has the name of a symbol that occurs, be it a
variable or a terminal.

The start of the grammar need not occur.  When it does not, its name is free,
and a helper can get it: the start of the normal form then derives what that
helper stands for, while it derives no terminal string in the grammar.  Any
other start derives the same terminal strings as before.
-/

namespace FormalGrammars

variable {g : Grammar} {naming : Naming} {start : Symbol}

/-! ## Names in the course of a splitting -/

namespace Splitting

variable {c d : Splitting} {used : List String}

/-- The names in use and those of the helpers are taken, and they differ. -/
structure Distinct (used : List String) (names : NameSource)
    (helpers : OrderedMap Symbol Form) : Prop where
  used_taken : ∀ name ∈ used, name ∈ names.taken
  helpers_taken : ∀ s ∈ helpers.keys, s.name ∈ names.taken
  names_new : ∀ s ∈ helpers.keys, s.name ∉ used
  names_nodup : (helpers.keys.map Symbol.name).Nodup

theorem distinct_ofGrammar (g : Grammar) (naming : Naming) :
    Distinct (NameSource.ofGrammar g naming).taken
      (ofGrammar g naming).names (ofGrammar g naming).helpers := by
  constructor
  · intro name hname
    exact hname
  · intro s hs
    exact absurd hs List.not_mem_nil
  · intro s hs
    exact absurd hs List.not_mem_nil
  · exact List.nodup_nil

theorem Distinct.mint (c : Splitting) (form : Form)
    (hc : Distinct used c.names c.helpers) :
    Distinct used (c.mint form).2.names (c.mint form).2.helpers := by
  have hfree : (c.mint form).1.name ∉ c.names.taken :=
    (NameSource.mint_spec c.names).1
  have hkeys := keys_mint hc.helpers_taken form
  constructor
  · intro name hname
    rw [taken_mint]
    exact List.mem_cons_of_mem _ (hc.used_taken name hname)
  · exact helpers_taken_mint hc.helpers_taken form
  · intro s hs
    rw [hkeys, List.mem_append, List.mem_singleton] at hs
    rcases hs with hold | hhelper
    · exact hc.names_new s hold
    · intro hused
      rw [hhelper] at hused
      exact hfree (hc.used_taken _ hused)
  · rw [hkeys, List.map_append, List.map_singleton, List.nodup_append]
    refine ⟨hc.names_nodup, List.nodup_singleton _, ?_⟩
    intro name hname other hother heq
    rcases List.mem_map.mp hname with ⟨s, hs, hsname⟩
    rw [List.mem_singleton.mp hother, ← hsname] at heq
    apply hfree
    rw [← heq]
    exact hc.helpers_taken s hs

/-- Every name in use was taken from the beginning. -/
theorem distinct_of_foldlM
    (hfold : g.productions.foldlM (fun c p => (c.split p).map Prod.snd)
      (ofGrammar g naming) = .ok d) :
    Distinct (NameSource.ofGrammar g naming).taken d.names d.helpers :=
  supply_foldlM Distinct.mint (distinct_ofGrammar g naming) hfold

end Splitting

/-! ## What a helper derives -/

namespace ChomskyForm

variable {c : ChomskyForm}

theorem Describes.yields_of_replaces (hc : c.Describes g) {form heads : Form}
    (hreplaces : Replaces (c.rules g) form heads) {word : Form}
    (hword : Form.isTerminal word = true)
    (hyields : c.grammar.Yields heads word) : c.grammar.Yields form word := by
  induction hreplaces generalizing word with
  | nil => exact hyields
  | keep hvar _ ih =>
      rcases hyields.exists_cons with ⟨left, right, hsplit, hfirst, hrest⟩
      rw [hsplit, Grammar.isTerminal_append] at hword
      rw [hsplit]
      exact hfirst.append (ih hword.2 hrest)
  | replace hterm hstands _ ih =>
      rcases hyields.exists_cons with ⟨left, right, hsplit, hfirst, hrest⟩
      rw [hsplit, Grammar.isTerminal_append] at hword
      have hletter := hc.eq_of_stands_terminal hstands hterm hword.1 hfirst
      rw [hsplit, hletter]
      exact .keep _ (ih hword.2 hrest)

/-- Whatever a stand-in derives, the form that it stands for derives. -/
theorem Describes.yields_of_stands (hc : c.Describes g) {s : Symbol}
    {form word : Form} (hstands : Stands (c.rules g) s form)
    (hword : Form.isTerminal word = true)
    (hyields : c.grammar.Yields [s] word) : c.grammar.Yields form word := by
  induction hlength : form.length using Nat.strongRecOn
    generalizing s form word with
  | ind length ih =>
      rcases hyields.exists_production hstands.isVar hword with
        ⟨q, hq, hhead, hbelow⟩
      rcases hc.emitted q hq with ⟨p, hp, hemits⟩
      have hrhs := hstands.rhs_eq p hp (hemits.head_eq.symm.trans hhead)
      cases hemits with
      | terminal =>
          rw [← hrhs]
          exact hbelow
      | split hsplits =>
          rcases hsplits.exists_heads with ⟨heads, hreplaces, hcuts⟩
          rw [hrhs] at hreplaces
          apply hc.yields_of_replaces hreplaces hword
          have hheads := hreplaces.length_eq
          generalize q.rhs = pair at hcuts hbelow
          cases hcuts with
          | pair first second => exact hbelow
          | chain first hlong hrest =>
              -- the rest is shorter than the form, and has a stand-in
              rw [List.length_cons] at hheads
              rcases hbelow.exists_cons with ⟨left, right, hsplit, hfirst, hlast⟩
              rw [hsplit, Grammar.isTerminal_append] at hword
              rw [hsplit]
              exact hfirst.append
                (ih _ (by omega) hrest hword.2 hlast rfl)

theorem Describes.yields_stands_iff (hc : c.Describes g) {s : Symbol}
    {form word : Form} (hstands : Stands (c.rules g) s form)
    (hword : Form.isTerminal word = true) :
    c.grammar.Yields [s] word ↔ c.grammar.Yields form word := by
  constructor
  · exact hc.yields_of_stands hstands hword
  · intro hyields
    exact (hc.yields_rule hstands.rule_mem
      (Production.head?_rule hstands.isVar form)).trans hyields

theorem stands_of_expansion? (hg : g.Consistent)
    (hstart : g.requireContextFree = .ok start)
    (hc : g.toChomskyForm naming = .ok c) {helper : Symbol} {form : Form}
    (hexpansion : c.expansion? helper = some form) :
    Stands (c.rules g) helper form := by
  have hfree := (Grammar.requireContextFree_eq_ok_iff.mp hstart).2
  rcases exists_last hstart hc with ⟨last, hfold, hfinish⟩
  have hsupplied := ((Splitting.complete_ofGrammar hg hfree naming).foldlM
    hfree (fun p hp => hp) hfold).sound.toSupplied
  rcases Splitting.finish_eq_ok_iff.mp hfinish with ⟨_, rfl⟩
  exact hsupplied.stands_helper (OrderedMap.mem_entries_of_get? hexpansion)

theorem distinct_of_toChomskyForm (hstart : g.requireContextFree = .ok start)
    (hc : g.toChomskyForm naming = .ok c) :
    ∃ names, Splitting.Distinct (NameSource.ofGrammar g naming).taken names
      c.helpers := by
  rcases exists_last hstart hc with ⟨last, hfold, hfinish⟩
  refine ⟨last.names, ?_⟩
  rcases Splitting.finish_eq_ok_iff.mp hfinish with ⟨_, rfl⟩
  exact Splitting.distinct_of_foldlM hfold

/-! ## The start -/

/-- A start that occurs in no production derives no terminal string. -/
theorem not_language_of_unused (hstart : g.requireContextFree = .ok start)
    (hvar : start.isVar = true)
    (hunused : ∀ p ∈ g.productions, start ∉ p.symbols) (word : Form) :
    ¬ g.Language word := by
  intro hlanguage
  rcases (Grammar.language_iff_yields hstart).mp hlanguage with ⟨hword, hyields⟩
  rcases hyields.exists_production hvar hword with ⟨p, hp, hhead, _⟩
  exact hunused p hp (Production.head_mem_symbols hhead)

/-- The helpers have names of their own, and the start keeps its language
unless a helper has its name. -/
structure HelpersNew (g : Grammar) (c : ChomskyForm) : Prop where
  names_nodup : (c.helpers.keys.map Symbol.name).Nodup
  names_new : ∀ helper ∈ c.helpers.keys, ∀ p ∈ g.productions,
    ∀ s ∈ p.symbols, helper.name ≠ s.name
  start_eq : c.grammar.start = g.start
  language_iff : ∀ start, g.start = some start → c.isHelper start = false →
    ∀ word, c.grammar.Language word ↔ g.Language word
  start_lost : ∀ start form, g.start = some start →
    c.expansion? start = some form → ∀ word, ¬ g.Language word ∧
      (c.grammar.Language word ↔
        Form.isTerminal word = true ∧ c.grammar.Derives form word)

theorem toChomskyForm_helpersNew (hg : g.Consistent)
    (hc : g.toChomskyForm naming = .ok c) : HelpersNew g c := by
  rcases Grammar.exists_start_of_toChomskyForm hc with ⟨first, hfirst⟩
  have hdescribes := describes_toChomskyForm hg hfirst hc
  have hsome := (Grammar.requireContextFree_eq_ok_iff.mp hfirst).1
  have hnormal := hdescribes.requireContextFree_eq_ok hfirst
  rcases distinct_of_toChomskyForm hfirst hc with ⟨names, hdistinct⟩
  constructor
  · exact hdistinct.names_nodup
  · intro helper hhelper p hp s hs heq
    apply hdistinct.names_new helper hhelper
    rw [heq]
    exact NameSource.name_mem_taken (hg.mem_keys_iff.mpr ⟨p, hp, hs⟩)
  · exact hdescribes.start_eq
  · intro start hstart hhelper word
    rw [hsome, Option.some.injEq] at hstart
    rw [← hstart] at hhelper
    have hnot : first ∉ c.helpers.keys := by
      intro hmem
      rw [← OrderedMap.contains_iff_mem_keys] at hmem
      rw [isHelper, hmem] at hhelper
      cases hhelper
    rw [Grammar.language_iff_yields hnormal, Grammar.language_iff_yields hfirst]
    constructor
    · intro hword
      exact ⟨hword.1, (hdescribes.yields_iff hnot hword.1).mp hword.2⟩
    · intro hword
      exact ⟨hword.1, (hdescribes.yields_iff hnot hword.1).mpr hword.2⟩
  · intro start form hstart hexpansion word
    rw [hsome, Option.some.injEq] at hstart
    rw [← hstart] at hexpansion
    have hstands := stands_of_expansion? hg hfirst hc hexpansion
    have hmem : first ∈ c.helpers.keys :=
      OrderedMap.mem_keys_of_get? hexpansion
    constructor
    · apply not_language_of_unused hfirst hstands.isVar
      intro p hp hs
      exact hdescribes.helpers_new p hp first hs hmem
    · have hfree := (Grammar.requireContextFree_eq_ok_iff.mp hnormal).2
      rw [Grammar.language_iff_yields hnormal,
        ← Grammar.yields_iff_derives hfree]
      exact and_congr_right fun hword =>
        hdescribes.yields_stands_iff hstands hword

/-- `S → aH1b` and `H1 → ab`, where a user took the first numbered name. -/
def namedLikeHelper : Grammar :=
  Grammar.withProductions { start := some (.var "S") }
    [.rule (.var "S") [.term "a", .var "H1", .term "b"],
      .rule (.var "H1") [.term "a", .term "b"]]

theorem helpersNew_namedLikeHelper :
    ∃ c, namedLikeHelper.toChomskyForm .numbered = .ok c ∧
      c.helpers.keys = [.var "H2", .var "H3", .var "H4"] ∧
      c.isHelper (.var "S") = false ∧ HelpersNew namedLikeHelper c := by
  have hbuilt : ∃ c, namedLikeHelper.toChomskyForm .numbered = .ok c ∧
      c.helpers.keys = [.var "H2", .var "H3", .var "H4"] ∧
      c.isHelper (.var "S") = false :=
    ⟨_, rfl, by decide +kernel, by decide +kernel⟩
  rcases hbuilt with ⟨c, hc, hkeys, hstart⟩
  exact ⟨c, hc, hkeys, hstart,
    toChomskyForm_helpersNew (Grammar.consistent_of_start rfl _) hc⟩

/-- `S → ab`, where the start is `H1` and occurs nowhere. -/
def unusedStart : Grammar :=
  Grammar.withProductions { start := some (.var "H1") }
    [.rule (.var "S") [.term "a", .term "b"]]

/-- The start derives nothing before, and `a` as a helper. -/
theorem unusedStart_becomes_helper :
    ∃ c, unusedStart.toChomskyForm .numbered = .ok c ∧
      unusedStart.start = some (.var "H1") ∧
      Symbol.var "H1" ∈ c.helpers.keys ∧
      c.grammar.Language [.term "a"] ∧ ¬ unusedStart.Language [.term "a"] := by
  have hbuilt : ∃ c, unusedStart.toChomskyForm .numbered = .ok c ∧
      Symbol.var "H1" ∈ c.helpers.keys ∧
      .rule (.var "H1") [.term "a"] ∈ c.grammar.productions :=
    ⟨_, rfl, by decide +kernel, by decide +kernel⟩
  rcases hbuilt with ⟨c, hc, hhelper, hrule⟩
  have hstart : unusedStart.requireContextFree = .ok (.var "H1") := rfl
  have hdescribes :=
    describes_toChomskyForm (Grammar.consistent_of_start rfl _) hstart hc
  refine ⟨c, hc, rfl, hhelper, ⟨rfl, .var "H1", hdescribes.start_eq, ?_⟩, ?_⟩
  · exact Grammar.Derives.of_production hrule rfl
  · exact not_language_of_unused hstart rfl (by decide +kernel) _

end ChomskyForm

end FormalGrammars
