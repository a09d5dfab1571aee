import FormalGrammars.Elimination.Useless
import FormalGrammars.Proofs.FixedPoint
import FormalGrammars.Proofs.VariableGraph
import FormalGrammars.Proofs.Yield

/-!
# Elimination of useless variables keeps the terminal strings

The productive variables are those that yield a terminal string, and the
reachable ones are those that occur in a form that the start yields.  A
derivation of a terminal string from the start uses no others, so it survives
every cut.  A cut removes a production, and at the end there is nothing left
to cut.  Then every terminal that is left occurs in a string of the language,
which is why the language is known to have no non-empty string when no
terminal is left.
-/

namespace FormalGrammars

open VariableGraph (Walk)

variable {g h : Grammar} {start : Symbol}

namespace Grammar

/-! ## Productive variables -/

def AllProduce (g : Grammar) (productive : List Symbol) : Prop :=
  ∀ s ∈ productive, s.isVar = true ∧ g.Produces [s]

theorem AllProduce.produces_rhs {productive : List Symbol}
    (hproductive : g.AllProduce productive) {p : Production}
    (hrhs : (p.rhs.all fun s => s.isTerm || productive.contains s) = true) :
    g.Produces p.rhs := by
  rw [produces_iff_forall]
  intro s hs
  have hknown := List.all_eq_true.mp hrhs s hs
  rw [Bool.or_eq_true, List.contains_iff_mem] at hknown
  rcases hknown with hterm | hmem
  · exact produces_of_isTerm hterm
  · exact (hproductive s hmem).2

theorem AllProduce.absorb {productive : List Symbol}
    (hproductive : g.AllProduce productive) {p : Production}
    (hmem : p ∈ g.productions) :
    g.AllProduce (absorbProductive productive p) := by
  unfold absorbProductive
  split
  next => exact hproductive
  next head hhead =>
    split
    next hrhs =>
      intro s hs
      rcases mem_insertNew.mp hs with hold | rfl
      · exact hproductive s hold
      · obtain ⟨word, hword, hyields⟩ := hproductive.produces_rhs hrhs
        exact ⟨isVar_of_head? hhead, word, hword,
          (Yields.of_production hmem hhead).trans hyields⟩
    next => exact hproductive

theorem absorbProductive_ne_self {productive : List Symbol} {p : Production}
    (hne : absorbProductive productive p ≠ productive) :
    ∃ head, p.head? = some head ∧ head ∉ productive ∧
      absorbProductive productive p = insertNew productive head := by
  unfold absorbProductive at hne ⊢
  split at hne
  next => exact absurd rfl hne
  next head hhead =>
    split at hne
    next hrhs =>
      refine ⟨head, hhead, fun hold => hne (insertNew_eq_self hold), ?_⟩
      exact if_pos hrhs
    next => exact absurd rfl hne

theorem descends_absorbProductive :
    Descends absorbProductive g.productions g.AllProduce fun productive =>
      (missing (g.productions.filterMap Production.head?)
        productive.contains).length where
  keeps productive hproductive p hmem := hproductive.absorb hmem
  lowers productive _ p hmem hne := by
    obtain ⟨head, hhead, hold, hnew⟩ := absorbProductive_ne_self hne
    rw [hnew]
    apply missing_length_lt head
    · intro s hs
      rw [List.contains_iff_mem] at hs ⊢
      exact mem_insertNew.mpr (.inl hs)
    · exact List.mem_filterMap.mpr ⟨p, hmem, hhead⟩
    · simpa using hold
    · rw [List.contains_iff_mem]
      exact mem_insertNew.mpr (.inr rfl)

theorem allProduce_and_fixed (g : Grammar) :
    g.AllProduce g.productive ∧
      ∀ p ∈ g.productions, absorbProductive g.productive p = g.productive := by
  apply descends_absorbProductive.iterate
  · exact fun _ hs => absurd hs List.not_mem_nil
  · exact Nat.le_trans (List.length_filter_le _ _)
      (List.length_filterMap_le _ _)

theorem Yields.mem_productive {form word : Form}
    (hyields : g.Yields form word) (hword : Form.isTerminal word = true) :
    ∀ s ∈ form, s.isVar = true → s ∈ g.productive := by
  induction hyields with
  | nil => simp
  | keep t _ ih =>
      obtain ⟨hterm, hrest⟩ := isTerminal_cons.mp hword
      intro s hs hvar
      rcases List.mem_cons.mp hs with rfl | hs
      · exact absurd hvar (Symbol.not_isVar_of_isTerm hterm)
      · exact ih hrest s hs hvar
  | @expand t p rest left right hmem hhead _ _ ihrhs ihrest =>
      obtain ⟨hleft, hright⟩ := isTerminal_append.mp hword
      intro s hs hvar
      rcases List.mem_cons.mp hs with rfl | hs
      · have hrhs : (p.rhs.all fun u =>
            u.isTerm || g.productive.contains u) = true := by
          rw [List.all_eq_true]
          intro u hu
          rw [Bool.or_eq_true, List.contains_iff_mem]
          cases huvar : u.isVar with
          | false => exact .inl (Symbol.isTerm_of_isVar_eq_false huvar)
          | true => exact .inr (ihrhs hleft u hu huvar)
        rw [← (allProduce_and_fixed g).2 p hmem]
        simp only [absorbProductive, hhead, hrhs, if_true]
        exact mem_insertNew.mpr (.inr rfl)
      · exact ihrest hright s hs hvar

/-! ## Reachable variables -/

theorem mem_reachable_iff (hstart : g.start = some start) {s : Symbol} :
    s ∈ g.reachable ↔
      s = start ∨ ∃ path, Walk (.ofOccurrences g) start s path := by
  simp only [reachable, hstart, List.mem_cons,
    ← VariableGraph.mem_dependencies_iff]
  by_cases heq : s = start
  · simp [heq]
  · simp [heq, List.mem_erase_of_ne heq]

theorem mem_reachable_of_mem_rhs (hstart : g.start = some start)
    {s t : Symbol} (hs : s ∈ g.reachable) {p : Production}
    (hmem : p ∈ g.productions) (hhead : p.head? = some s) (ht : t ∈ p.rhs)
    (hvar : t.isVar = true) : t ∈ g.reachable := by
  have hedge := VariableGraph.hasEdge_ofOccurrences.mpr
    ⟨hvar, p, hmem, hhead, ht⟩
  rw [mem_reachable_iff hstart] at hs ⊢
  rcases hs with rfl | ⟨path, hwalk⟩
  · exact .inr ⟨_, .edge hedge⟩
  · exact .inr ⟨_, hwalk.snoc hedge⟩

theorem exists_yields_of_hasEdge {s t : Symbol}
    (hedge : (VariableGraph.ofOccurrences g).hasEdge s t = true) :
    ∃ before after, g.Yields [s] (before ++ t :: after) := by
  obtain ⟨_, p, hmem, hhead, ht⟩ :=
    VariableGraph.hasEdge_ofOccurrences.mp hedge
  obtain ⟨before, after, hrhs⟩ := List.append_of_mem ht
  exact ⟨before, after, hrhs ▸ .of_production hmem hhead⟩

theorem exists_yields_of_walk {s t : Symbol} {path : List Symbol}
    (hwalk : Walk (.ofOccurrences g) s t path) :
    ∃ before after, g.Yields [s] (before ++ t :: after) := by
  induction hwalk with
  | edge hedge => exact exists_yields_of_hasEdge hedge
  | @cons s next t _ hedge _ ih =>
      obtain ⟨before, after, hfirst⟩ := exists_yields_of_hasEdge hedge
      obtain ⟨left, right, hrest⟩ := ih
      have hinside := (Yields.refl before).append
        (hrest.append (Yields.refl after))
      exact ⟨before ++ left, right ++ after, by
        simpa using hfirst.trans hinside⟩

end Grammar

/-! ## Cuts -/

namespace Pruning

theorem mem_without {symbols : List Symbol} {p : Production} :
    p ∈ (without g symbols).productions ↔
      p ∈ g.productions ∧ ∀ s ∈ p.symbols, s ∉ symbols := by
  unfold without
  split
  next hempty =>
    rw [List.isEmpty_iff.mp hempty]
    simp
  next =>
    rw [Grammar.productions_withProductions, mem_extendNew, List.mem_filter]
    simp

theorem start_without (g : Grammar) (symbols : List Symbol) :
    (without g symbols).start = g.start := by
  unfold without
  split
  next => rfl
  next => exact Grammar.start_withProductions _

theorem consistent_without (hg : g.Consistent) (symbols : List Symbol) :
    (without g symbols).Consistent := by
  unfold without
  split
  next => exact hg
  next => exact hg.withProductions _

theorem length_without_le (hg : g.Consistent) (symbols : List Symbol) :
    (without g symbols).productions.length ≤ g.productions.length := by
  apply (consistent_without hg symbols).productions_nodup.length_le_of_subset
  exact fun p hp => (mem_without.mp hp).1

theorem length_without_lt (hg : g.Consistent) {symbols : List Symbol}
    {s : Symbol} (hs : s ∈ symbols) (hvar : s ∈ g.variables) :
    (without g symbols).productions.length < g.productions.length := by
  obtain ⟨_, p, hmem, hoccurs⟩ := hg.mem_variables_iff.mp hvar
  have hlost : p ∉ (without g symbols).productions := fun hp =>
    (mem_without.mp hp).2 s hoccurs hs
  have hnodup : (p :: (without g symbols).productions).Nodup :=
    List.nodup_cons.mpr
      ⟨hlost, (consistent_without hg symbols).productions_nodup⟩
  apply hnodup.length_le_of_subset
  intro q hq
  rcases List.mem_cons.mp hq with rfl | hq
  · exact hmem
  · exact (mem_without.mp hq).1

def dead (g : Grammar) : List Symbol :=
  g.variables.filter fun s => !g.productive.contains s

def lost (g : Grammar) : List Symbol :=
  g.variables.filter fun s => !g.reachable.contains s

theorem mem_dead {s : Symbol} :
    s ∈ dead g ↔ s ∈ g.variables ∧ s ∉ g.productive := by
  simp [dead]

theorem mem_lost {s : Symbol} :
    s ∈ lost g ↔ s ∈ g.variables ∧ s ∉ g.reachable := by
  simp [lost]

theorem pass_eq (pruning : Pruning) :
    pruning.pass =
      let alive := without pruning.grammar (dead pruning.grammar)
      ⟨without alive (lost alive),
        extendNew pruning.unproductive (dead pruning.grammar),
        extendNew pruning.unreachable (lost alive)⟩ := rfl

/-- Unproductive variables do not occur in derivations of terminal strings. -/
theorem yields_without_dead {form word : Form} (hyields : g.Yields form word)
    (hword : Form.isTerminal word = true) :
    (without g (dead g)).Yields form word := by
  induction hyields with
  | nil => exact .nil
  | keep s _ ih =>
      exact .keep s (ih (Grammar.isTerminal_cons.mp hword).2)
  | @expand s p rest left right hmem hhead hrhs _ ihrhs ihrest =>
      obtain ⟨hleft, hright⟩ := Grammar.isTerminal_append.mp hword
      have hkept : p ∈ (without g (dead g)).productions := by
        refine mem_without.mpr ⟨hmem, fun t ht hdead => ?_⟩
        obtain ⟨hoccurs, hunproductive⟩ := mem_dead.mp hdead
        have hvar := (List.mem_filter.mp hoccurs).2
        have hbelow := (Grammar.Yields.of_production hmem hhead).trans hrhs
        rw [Production.symbols_eq_cons hhead] at ht
        rcases List.mem_cons.mp ht with rfl | ht
        · exact hunproductive
            (hbelow.mem_productive hleft t List.mem_cons_self hvar)
        · exact hunproductive (hrhs.mem_productive hleft t ht hvar)
      exact .expand p hkept hhead (ihrhs hleft) (ihrest hright)

/-- Unreachable variables do not occur in derivations from reachable ones. -/
theorem yields_without_lost (hstart : g.start = some start)
    {form word : Form} (hyields : g.Yields form word)
    (hform : ∀ s ∈ form, s.isVar = true → s ∈ g.reachable) :
    (without g (lost g)).Yields form word := by
  induction hyields with
  | nil => exact .nil
  | keep s _ ih =>
      exact .keep s (ih fun t ht => hform t (List.mem_cons_of_mem s ht))
  | @expand s p rest left right hmem hhead _ _ ihrhs ihrest =>
      have hs := hform s List.mem_cons_self (Grammar.isVar_of_head? hhead)
      have hrhs : ∀ t ∈ p.rhs, t.isVar = true → t ∈ g.reachable :=
        fun t => Grammar.mem_reachable_of_mem_rhs hstart hs hmem hhead
      have hkept : p ∈ (without g (lost g)).productions := by
        refine mem_without.mpr ⟨hmem, fun t ht hlost => ?_⟩
        obtain ⟨hoccurs, hunreachable⟩ := mem_lost.mp hlost
        rw [Production.symbols_eq_cons hhead] at ht
        rcases List.mem_cons.mp ht with rfl | ht
        · exact hunreachable hs
        · exact hunreachable (hrhs t ht (List.mem_filter.mp hoccurs).2)
      exact .expand p hkept hhead (ihrhs hrhs)
        (ihrest fun t ht => hform t (List.mem_cons_of_mem s ht))

/-! ## Passes -/

/-- What every pass keeps: the terminal strings of the start. -/
structure Prunes (g : Grammar) (start : Symbol) (pruning : Pruning) : Prop where
  consistent : pruning.grammar.Consistent
  start_eq : pruning.grammar.start = some start
  subset : ∀ p ∈ pruning.grammar.productions, p ∈ g.productions
  yields : ∀ word, Form.isTerminal word = true → g.Yields [start] word →
    pruning.grammar.Yields [start] word

theorem Prunes.pass {pruning : Pruning} (hprunes : pruning.Prunes g start) :
    pruning.pass.Prunes g start := by
  have halive := (start_without pruning.grammar (dead pruning.grammar)).trans
    hprunes.start_eq
  rw [pass_eq]
  constructor
  · exact consistent_without (consistent_without hprunes.consistent _) _
  · exact (start_without _ _).trans halive
  · intro p hp
    exact hprunes.subset p (mem_without.mp (mem_without.mp hp).1).1
  · intro word hword hyields
    have hfirst := yields_without_dead (hprunes.yields word hword hyields) hword
    apply yields_without_lost halive hfirst
    intro s hs _
    rw [List.mem_singleton.mp hs]
    exact (Grammar.mem_reachable_iff halive).mpr (.inl rfl)

/-- A pass that cuts a variable removes a production. -/
theorem Prunes.nil_or_length_pass_lt {pruning : Pruning}
    (hprunes : pruning.Prunes g start) :
    dead pruning.grammar = [] ∧ lost pruning.grammar = [] ∨
      pruning.pass.grammar.productions.length <
        pruning.grammar.productions.length := by
  have hconsistent := hprunes.consistent
  have hle := length_without_le
    (consistent_without hconsistent (dead pruning.grammar))
    (lost (without pruning.grammar (dead pruning.grammar)))
  cases hdead : dead pruning.grammar with
  | cons s rest =>
      right
      have hs : s ∈ dead pruning.grammar := hdead ▸ List.mem_cons_self
      have hlt := length_without_lt hconsistent hs (mem_dead.mp hs).1
      exact Nat.lt_of_le_of_lt hle hlt
  | nil =>
      have halive : without pruning.grammar (dead pruning.grammar) =
          pruning.grammar := by rw [hdead]; rfl
      cases hlost : lost pruning.grammar with
      | nil => exact .inl ⟨rfl, rfl⟩
      | cons s rest =>
          right
          have hs : s ∈ lost pruning.grammar := hlost ▸ List.mem_cons_self
          have hlt := length_without_lt hconsistent hs (mem_lost.mp hs).1
          rw [pass_eq, halive]
          exact hlt

theorem pass_eq_self {pruning : Pruning} (hdead : dead pruning.grammar = [])
    (hlost : lost pruning.grammar = []) : pruning.pass = pruning := by
  have halive : without pruning.grammar [] = pruning.grammar := rfl
  simp only [pass_eq, hdead, halive, hlost]
  rfl

/-- After as many passes as there are productions no variable is cut. -/
theorem prunes_iterate (hg : g.Consistent) (hstart : g.start = some start) :
    let last := iterateUntilStable pass g.productions.length ⟨g, [], []⟩
    last.Prunes g start ∧ dead last.grammar = [] ∧ lost last.grammar = [] := by
  have hfirst : Prunes g start ⟨g, [], []⟩ :=
    ⟨hg, hstart, fun p hp => hp, fun _ _ hyields => hyields⟩
  have hlast : Prunes g start
      (iterateUntilStable pass g.productions.length ⟨g, [], []⟩) := by
    rw [iterateUntilStable_eq_stepTimes]
    exact stepTimes_induct (fun _ hprunes => hprunes.pass) _ hfirst
  have hstable := iterateUntilStable_stable
    (fun pruning : Pruning => pruning.grammar.productions.length)
    (fun _ hprunes => Prunes.pass hprunes)
    (fun pruning hprunes hne => hprunes.nil_or_length_pass_lt.resolve_left
      fun ⟨hdead, hlost⟩ => hne (pass_eq_self hdead hlost))
    hfirst (Nat.le_refl g.productions.length)
  -- one more pass changes nothing, so it removes no production
  refine ⟨hlast, ?_⟩
  rcases hlast.nil_or_length_pass_lt with hnil | hlt
  · exact hnil
  · rw [hstable] at hlt
    exact absurd hlt (Nat.lt_irrefl _)

end Pruning

/-! ## The result -/

namespace UselessElimination

variable {e : UselessElimination}

structure Describes (g : Grammar) (start : Symbol)
    (e : UselessElimination) : Prop where
  contextFree : e.grammar.ContextFree
  consistent : e.grammar.Consistent
  start_eq : e.grammar.start = some start
  subset : ∀ p ∈ e.grammar.productions, p ∈ g.productions
  yields_terminal : ∀ word, Form.isTerminal word = true →
    g.Yields [start] word → e.grammar.Yields [start] word
  productive : ∀ s ∈ e.grammar.variables, e.grammar.Produces [s]
  reachable : ∀ s ∈ e.grammar.variables, s ∈ e.grammar.reachable
  emptyLanguage_eq : e.emptyLanguage = e.grammar.terminals.isEmpty

theorem describes_eliminateUseless (hg : g.Consistent)
    (hstart : g.requireContextFree = .ok start) :
    ∃ e, g.eliminateUseless = .ok e ∧ Describes g start e := by
  obtain ⟨hsome, hfree⟩ := Grammar.requireContextFree_eq_ok_iff.mp hstart
  obtain ⟨hprunes, hdead, hlost⟩ := Pruning.prunes_iterate hg hsome
  unfold Grammar.eliminateUseless
  rw [hstart]
  refine ⟨_, rfl, ?_⟩
  constructor
  · exact fun p hp => hfree p (hprunes.subset p hp)
  · exact hprunes.consistent
  · exact hprunes.start_eq
  · exact hprunes.subset
  · exact hprunes.yields
  · intro s hs
    apply Classical.byContradiction
    intro hunproductive
    have hmem : s ∉ Grammar.productive _ := fun hmem =>
      hunproductive ((Grammar.allProduce_and_fixed _).1 s hmem).2
    have hin := Pruning.mem_dead.mpr ⟨hs, hmem⟩
    rw [hdead] at hin
    exact List.not_mem_nil hin
  · intro s hs
    apply Classical.byContradiction
    intro hunreachable
    have hin := Pruning.mem_lost.mpr ⟨hs, hunreachable⟩
    rw [hlost] at hin
    exact List.not_mem_nil hin
  · rfl

theorem Describes.requireContextFree_eq_ok (he : e.Describes g start) :
    e.grammar.requireContextFree = .ok start :=
  Grammar.requireContextFree_eq_ok_iff.mpr ⟨he.start_eq, he.contextFree⟩

theorem Describes.yields_of_yields (he : e.Describes g start)
    {form word : Form} (hyields : e.grammar.Yields form word) :
    g.Yields form word :=
  hyields.mono he.subset

theorem Describes.yields_iff (he : e.Describes g start) {word : Form}
    (hword : Form.isTerminal word = true) :
    e.grammar.Yields [start] word ↔ g.Yields [start] word :=
  ⟨he.yields_of_yields, he.yields_terminal word hword⟩

theorem Describes.start_mem_variables (he : e.Describes g start)
    {p : Production} (hmem : p ∈ e.grammar.productions) :
    start ∈ e.grammar.variables := by
  obtain ⟨s, hhead⟩ := Option.isSome_iff_exists.mp (he.contextFree p hmem)
  have hs := he.consistent.mem_variables_of_head? hmem hhead
  rcases (Grammar.mem_reachable_iff he.start_eq).mp (he.reachable s hs) with
    rfl | ⟨path, hwalk⟩
  · exact hs
  · have hedge : ∃ t, (VariableGraph.ofOccurrences e.grammar).hasEdge
        start t = true := by
      cases hwalk with
      | edge hedge => exact ⟨_, hedge⟩
      | cons hedge _ => exact ⟨_, hedge⟩
    obtain ⟨t, hedge⟩ := hedge
    obtain ⟨_, q, hq, hsole, _⟩ :=
      VariableGraph.hasEdge_ofOccurrences.mp hedge
    exact he.consistent.mem_variables_of_head? hq hsole

/-- Every production is used in a derivation of some terminal string. -/
theorem Describes.exists_word (he : e.Describes g start) {p : Production}
    (hmem : p ∈ e.grammar.productions) :
    ∃ before inside after : Form,
      Form.isTerminal (before ++ inside ++ after) = true ∧
      e.grammar.Yields [start] (before ++ inside ++ after) ∧
      e.grammar.Yields p.rhs inside := by
  obtain ⟨s, hhead⟩ := Option.isSome_iff_exists.mp (he.contextFree p hmem)
  have hs := he.consistent.mem_variables_of_head? hmem hhead
  have hcontext : ∃ before after,
      e.grammar.Yields [start] (before ++ s :: after) := by
    rcases (Grammar.mem_reachable_iff he.start_eq).mp (he.reachable s hs) with
      rfl | ⟨path, hwalk⟩
    · exact ⟨[], [], .refl [s]⟩
    · exact Grammar.exists_yields_of_walk hwalk
  obtain ⟨before, after, hcontext⟩ := hcontext
  have hexpanded : e.grammar.Yields [start] (before ++ p.rhs ++ after) := by
    refine hcontext.trans ?_
    rw [List.append_assoc]
    exact (Grammar.Yields.refl before).append
      ((Grammar.Yields.of_production hmem hhead).append (.refl after))
  -- every variable around the right side occurs in a production as well
  have hproduces : e.grammar.Produces (before ++ p.rhs ++ after) := by
    rw [Grammar.produces_iff_forall]
    intro t ht
    cases hvar : t.isVar with
    | false =>
        exact Grammar.produces_of_isTerm (Symbol.isTerm_of_isVar_eq_false hvar)
    | true =>
        apply he.productive
        rcases hexpanded.mem ht with hstart | ⟨q, hq, ht⟩
        · rw [List.mem_singleton.mp hstart]
          exact he.start_mem_variables hmem
        · exact he.consistent.mem_variables_of_mem_rhs hq ht hvar
  obtain ⟨word, hword, hyields⟩ := hproduces
  obtain ⟨front, last, rfl, hfront, hlast⟩ := hyields.exists_append
  obtain ⟨first, inside, rfl, hfirst, hinside⟩ := hfront.exists_append
  exact ⟨first, inside, last, hword, hexpanded.trans hyields, hinside⟩

theorem Describes.exists_word_of_terminal (he : e.Describes g start)
    {t : Symbol} (ht : t ∈ e.grammar.terminals) :
    ∃ word, Form.isTerminal word = true ∧ e.grammar.Yields [start] word ∧
      t ∈ word := by
  obtain ⟨hterm, p, hp, hoccurs⟩ := he.consistent.mem_terminals_iff.mp ht
  obtain ⟨s, hhead⟩ := Option.isSome_iff_exists.mp (he.contextFree p hp)
  obtain ⟨before, inside, after, hword, hyields, hinside⟩ := he.exists_word hp
  refine ⟨before ++ inside ++ after, hword, hyields, ?_⟩
  rw [Production.symbols_eq_cons hhead] at hoccurs
  rcases List.mem_cons.mp hoccurs with rfl | hrhs
  · exact absurd (Grammar.isVar_of_head? hhead)
      (Symbol.not_isVar_of_isTerm hterm)
  · obtain ⟨left, right, hsplit⟩ := List.append_of_mem hrhs
    rw [hsplit] at hinside
    obtain ⟨_, _, rfl, _, hbehind⟩ := hinside.exists_append
    obtain ⟨_, rfl, _⟩ := hbehind.of_isTerm hterm
    simp

theorem Describes.emptyLanguage_iff (he : e.Describes g start) :
    e.emptyLanguage = true ↔
      ∀ word, Form.isTerminal word = true → g.Yields [start] word →
        word = [] := by
  rw [he.emptyLanguage_eq, List.isEmpty_iff]
  constructor
  · intro hnone word hword hyields
    apply List.eq_nil_iff_forall_not_mem.mpr
    intro t ht
    have hin := he.consistent.mem_terminals_of_mem_yield he.start_eq
      (he.yields_terminal word hword hyields) hword ht
    rw [hnone] at hin
    exact List.not_mem_nil hin
  · intro hall
    apply List.eq_nil_iff_forall_not_mem.mpr
    intro t ht
    obtain ⟨word, hword, hyields, hmem⟩ := he.exists_word_of_terminal ht
    rw [hall word hword (he.yields_of_yields hyields)] at hmem
    exact List.not_mem_nil hmem

end UselessElimination

end FormalGrammars
