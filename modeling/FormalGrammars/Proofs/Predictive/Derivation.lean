import FormalGrammars.Derivation.Order
import FormalGrammars.Predictive.Parser
import FormalGrammars.Proofs.GuardedRun
import FormalGrammars.Proofs.Predictive.Selection

/-!
# A predictive run is a leftmost derivation

At every moment, and whatever the table and the guard do, the productions that
were applied rewrite the start leftmost to the consumed input followed by the
stack.  When the run accepts, nothing is left of the input and of the stack,
so the input is in the language.
-/

namespace FormalGrammars

namespace Form

theorem rewriteLeftmost?_append {before after : Form} {s : Symbol}
    {p : Production} (hbefore : isTerminal before = true)
    (hhead : p.head? = some s) :
    rewriteLeftmost? (before ++ s :: after) p =
      some (before ++ p.rhs ++ after) := by
  have hvar := Symbol.isTerm_eq_false (Grammar.isVar_of_head? hhead)
  have hall : ∀ t ∈ before, t.isTerm = true := List.all_eq_true.mp hbefore
  unfold rewriteLeftmost?
  rw [List.dropWhile_append_of_pos hall, List.takeWhile_append_of_pos hall,
    List.dropWhile_cons_of_neg (by simp [hvar]),
    List.takeWhile_cons_of_neg (by simp [hvar])]
  simp [hhead]

theorem rewriteLeftmost?_rewrites {g : Grammar} {form next : Form}
    {p : Production} (hmem : p ∈ g.productions)
    (hrewrite : rewriteLeftmost? form p = some next) :
    g.Rewrites form next := by
  unfold rewriteLeftmost? at hrewrite
  split at hrewrite
  next => cases hrewrite
  next s after hdrop =>
    split at hrewrite
    next hhead =>
      cases hrewrite
      have hstep := Grammar.Rewrites.intro p
        (form.takeWhile Symbol.isTerm) after hmem
      have hform : form = form.takeWhile Symbol.isTerm ++ p.lhs ++ after := by
        rw [(Production.head?_eq_some_iff.mp hhead).1, List.append_assoc,
          List.singleton_append, ← hdrop, List.takeWhile_append_dropWhile]
      rw [← hform] at hstep
      exact hstep
    next => cases hrewrite

theorem rewriteAllLeftmost?_derives {g : Grammar} {ps : List Production}
    (hps : ∀ p ∈ ps, p ∈ g.productions) {form last : Form}
    (hrewrite : rewriteAllLeftmost? form ps = some last) :
    g.Derives form last :=
  Grammar.derives_of_foldlM
    (fun p hp _ _ hstep => rewriteLeftmost?_rewrites (hps p hp) hstep) hrewrite

theorem rewriteAllLeftmost?_concat {form last : Form} {ps : List Production}
    {p : Production} (hrewrite : rewriteAllLeftmost? form ps = some last) :
    rewriteAllLeftmost? form (ps ++ [p]) = rewriteLeftmost? last p := by
  unfold rewriteAllLeftmost? at hrewrite ⊢
  rw [List.foldlM_append, hrewrite]
  simp

end Form

namespace PredictiveParser

variable {g : Grammar} {start : Symbol} {table : PredictiveTable}
  {input : Form} {parser : PredictiveParser}

def EntriesFrom (g : Grammar) (table : PredictiveTable) : Prop :=
  ∀ head x p, table.entry? head x = some p →
    p ∈ g.productions ∧ p.head? = some head

theorem entriesFrom_ofGrammar (hg : g.Consistent)
    (hstart : g.requireContextFree = .ok start)
    (htable : PredictiveTable.ofGrammar g = .ok table) :
    EntriesFrom g table := by
  intro head x p hentry
  have hcell := PredictiveTable.mem_candidates_of_entry? hentry
  have hmem := (PredictiveTable.mem_candidates_iff hg hstart htable).mp hcell
  exact ⟨hmem.1, hmem.2.1⟩

/-- What holds at every moment of a run. -/
structure Traced (g : Grammar) (start : Symbol) (input : Form)
    (parser : PredictiveParser) : Prop where
  input_eq : parser.consumed ++ parser.remaining = input
  consumed_isTerminal : Form.isTerminal parser.consumed = true
  applied_mem : ∀ p ∈ parser.applied, p ∈ g.productions
  sentential_eq :
    Form.rewriteAllLeftmost? [start] parser.applied = some parser.sentential
  accepted : parser.outcome = some .accept →
    parser.stack = [] ∧ parser.remaining = []

theorem traced_start (g : Grammar) (table : PredictiveTable)
    (schedule : Schedule) (input : Form) :
    (PredictiveParser.start table schedule input).Traced g table.start input := by
  constructor <;> simp [PredictiveParser.start, sentential, Form.isTerminal,
    Form.rewriteAllLeftmost?]

theorem Traced.withGuard (hparser : parser.Traced g start input)
    (guard : Guard) :
    Traced g start input { parser with guard := guard } :=
  ⟨hparser.input_eq, hparser.consumed_isTerminal, hparser.applied_mem,
    hparser.sentential_eq, hparser.accepted⟩

theorem Traced.finish (hparser : parser.Traced g start input)
    {outcome : Outcome} (haccept : outcome = .accept →
      parser.stack = [] ∧ parser.remaining = []) :
    (parser.finish outcome).Traced g start input :=
  ⟨hparser.input_eq, hparser.consumed_isTerminal, hparser.applied_mem,
    hparser.sentential_eq, fun houtcome => haccept (Option.some.inj houtcome)⟩

theorem Traced.reject (hparser : parser.Traced g start input)
    (expected : List (Option Symbol)) :
    (parser.reject expected).Traced g start input :=
  hparser.finish (by simp)

/-- A terminal on the stack goes to the input behind it. -/
theorem Traced.matchTerminal (hparser : parser.Traced g start input)
    (hrunning : parser.outcome = none) {top : Symbol} {below : Form}
    (hstack : parser.stack = top :: below) (hterm : top.isTerm = true)
    (hnext : parser.remaining.head? = some top) :
    Traced g start input
      { parser with
        consumed := parser.consumed ++ [top]
        remaining := parser.remaining.tail
        stack := below } := by
  have hremaining : top :: parser.remaining.tail = parser.remaining := by
    obtain ⟨rest, hrest⟩ := List.head?_eq_some_iff.mp hnext
    rw [hrest, List.tail_cons]
  have hform := hparser.sentential_eq
  rw [sentential, hstack] at hform
  constructor
  · simp only [List.append_assoc, List.singleton_append, hremaining]
    exact hparser.input_eq
  · rw [Grammar.isTerminal_append]
    exact ⟨hparser.consumed_isTerminal, by simp [Form.isTerminal, hterm]⟩
  · exact hparser.applied_mem
  · simpa [sentential] using hform
  · simp [hrunning]

theorem Traced.expand (hparser : parser.Traced g start input)
    (hrunning : parser.outcome = none) {top : Symbol} {below : Form}
    (hstack : parser.stack = top :: below) {p : Production}
    (hmem : p ∈ g.productions) (hhead : p.head? = some top) :
    Traced g start input
      { parser with
        stack := p.rhs ++ below
        applied := parser.applied ++ [p] } := by
  have hform := hparser.sentential_eq
  rw [sentential, hstack] at hform
  constructor
  · exact hparser.input_eq
  · exact hparser.consumed_isTerminal
  · intro q hq
    rcases List.mem_append.mp hq with hq | hq
    · exact hparser.applied_mem q hq
    · rwa [List.mem_singleton.mp hq]
  · -- What was consumed is terminal, so `top` is the leftmost variable.
    rw [Form.rewriteAllLeftmost?_concat hform, sentential,
      Form.rewriteLeftmost?_append hparser.consumed_isTerminal hhead,
      List.append_assoc]
  · simp [hrunning]

theorem Traced.move (htable : EntriesFrom g table)
    (hparser : parser.Traced g start input) (hrunning : parser.outcome = none) :
    (parser.move table).Traced g start input := by
  unfold PredictiveParser.move
  split
  next hstack =>
    split
    next hend =>
      exact hparser.finish fun _ => ⟨hstack, List.isEmpty_iff.mp hend⟩
    next => exact hparser.reject _
  next top below hstack =>
    split
    next hterm =>
      split
      next hnext => exact hparser.matchTerminal hrunning hstack hterm hnext
      next => exact hparser.reject _
    next =>
      split
      next => exact hparser.reject _
      next p hentry =>
        obtain ⟨hmem, hhead⟩ := htable _ _ _ hentry
        exact hparser.expand hrunning hstack hmem hhead

theorem Traced.step (htable : EntriesFrom g table)
    (hparser : parser.Traced g start input) (checkpoint : Checkpoint) :
    (parser.step table checkpoint).Traced g start input := by
  unfold PredictiveParser.step
  split
  next => exact hparser
  next hrunning =>
    have hnone : parser.outcome = none := by
      simpa [hasEnded] using hrunning
    simp only
    split
    next => exact (hparser.withGuard _).move htable hnone
    next => exact (hparser.withGuard _).finish (by simp)

theorem Traced.of_reaches (htable : EntriesFrom g table) {schedule : Schedule}
    (hreaches : Reaches (PredictiveParser.step table) cancel
      (PredictiveParser.start table schedule input) parser) :
    parser.Traced g table.start input :=
  hreaches.keeps (traced_start g table schedule input)
    (fun checkpoint _ hother => hother.step htable checkpoint)
    (fun other hother => hother.withGuard other.guard.cancel)

theorem Traced.sentential_of_accept (hparser : parser.Traced g start input)
    (haccept : parser.outcome = some .accept) : parser.sentential = input := by
  obtain ⟨hstack, hremaining⟩ := hparser.accepted haccept
  have hinput := hparser.input_eq
  rwa [hremaining, ← hstack] at hinput

theorem Traced.language (hstart : g.requireContextFree = .ok start)
    (hparser : parser.Traced g start input)
    (haccept : parser.outcome = some .accept) : g.Language input := by
  have hform := hparser.sentential_of_accept haccept
  have hterminal := hparser.consumed_isTerminal
  have hderives := Form.rewriteAllLeftmost?_derives hparser.applied_mem
    hparser.sentential_eq
  rw [hform] at hderives
  rw [sentential, (hparser.accepted haccept).1, List.append_nil] at hform
  refine ⟨hform ▸ hterminal, start, ?_, hderives⟩
  exact (Grammar.requireContextFree_eq_ok_iff.mp hstart).1

/-- Whatever conflicts the table has and however the run is guarded, the
productions that a state has applied rewrite the start leftmost to its
sentential form, which begins with what was consumed of the input.  A state
left by a rejection is no exception. -/
theorem applied_rewrites_to_sentential (hg : g.Consistent)
    (hstart : g.requireContextFree = .ok start) :
    ∃ table, PredictiveTable.ofGrammar g = .ok table ∧
      ∀ (schedule : Schedule) (word : Form) (parser : PredictiveParser),
        Reaches (step table) cancel
            (PredictiveParser.start table schedule word) parser →
        Form.rewriteAllLeftmost? [start] parser.applied =
            some parser.sentential ∧
          (∀ p ∈ parser.applied, p ∈ g.productions) ∧
          parser.sentential = parser.consumed ++ parser.stack ∧
          parser.consumed ++ parser.remaining = word ∧
          Form.isTerminal parser.consumed = true ∧
          (parser.outcome = some .accept →
            parser.sentential = word ∧ g.Language word) := by
  obtain ⟨table, htable⟩ := PredictiveTable.ofGrammar_eq_ok hstart
  have hentries := entriesFrom_ofGrammar hg hstart htable
  refine ⟨table, htable, ?_⟩
  intro schedule word parser hreaches
  have hparser := Traced.of_reaches hentries hreaches
  rw [PredictiveTable.start_ofGrammar hstart htable] at hparser
  refine ⟨hparser.sentential_eq, hparser.applied_mem, rfl, hparser.input_eq,
    hparser.consumed_isTerminal, ?_⟩
  intro haccept
  exact ⟨hparser.sentential_of_accept haccept,
    hparser.language hstart haccept⟩

/-- `S → aSb | ab`, with two productions for `a`. -/
def twoForLetter : Grammar :=
  Grammar.withProductions { start := some (.var "S") }
    [.rule (.var "S") [.term "a", .var "S", .term "b"],
      .rule (.var "S") [.term "a", .term "b"]]

theorem applied_rewrites_to_rejected :
    ∃ (table : PredictiveTable) (parser : PredictiveParser),
      PredictiveTable.ofGrammar twoForLetter = .ok table ∧
      table.isConflictFree = false ∧
      Reaches (step table) cancel
        (PredictiveParser.start table {} [.term "a", .term "b"]) parser ∧
      parser.outcome =
        some (.reject ⟨some (.term "b"), [some (.term "a")]⟩) ∧
      Form.rewriteAllLeftmost? [.var "S"] parser.applied =
        some [.term "a", .var "S", .term "b"] := by
  obtain ⟨table, htable, hall⟩ := applied_rewrites_to_sentential
    (g := twoForLetter) (Grammar.consistent_of_start rfl _) rfl
  have hrun : ∃ built, PredictiveTable.ofGrammar twoForLetter = .ok built ∧
      built.isConflictFree = false ∧
      let parser := stepTimes (step built .always) 3
        (PredictiveParser.start built {} [.term "a", .term "b"])
      parser.outcome =
          some (.reject ⟨some (.term "b"), [some (.term "a")]⟩) ∧
        parser.sentential = [.term "a", .var "S", .term "b"] :=
    ⟨_, rfl, by decide +kernel⟩
  obtain ⟨built, hbuilt, hconflicts, hreject, hform⟩ := hrun
  rw [htable] at hbuilt
  cases hbuilt
  have hreaches : Reaches (step table) cancel
      (PredictiveParser.start table {} [.term "a", .term "b"]) _ :=
    reaches_stepTimes .always 3
  have hrewrites := (hall {} _ _ hreaches).1
  rw [hform] at hrewrites
  exact ⟨table, _, htable, hconflicts, hreaches, hreject, hrewrites⟩

end PredictiveParser

end FormalGrammars
