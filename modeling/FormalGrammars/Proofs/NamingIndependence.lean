import FormalGrammars.Proofs.NormalForm.Renaming
import FormalGrammars.Proofs.Recognition

/-!
# Recognition does not depend on the names of helpers

A chart is filled by looking up symbols and productions in the order of the
grammar, so the charts of two grammars that are renamings of each other are
renamed cell by cell, with the same first production and the same split behind
every variable.  The trees that are read off them are renamed as well, and the
renaming vanishes when they are carried back to the grammar that has no helpers.
-/

namespace FormalGrammars

variable {f : Symbol → Symbol} {g h : Grammar} {input : Form}

/-! ## Charts -/

namespace Chart

variable {chart : Chart}

def Reason.rename (f : Symbol → Symbol) : Reason → Reason
  | word p => word (p.rename f)
  | split p cut => split (p.rename f) cut

def Cell.rename (f : Symbol → Symbol) (cell : Cell) : Cell :=
  OrderedMap.rename f (Reason.rename f) cell

def rename (f : Symbol → Symbol) (chart : Chart) : Chart :=
  ⟨chart.rows.map fun row => row.map (Cell.rename f)⟩

def renameCandidate (f : Symbol → Symbol) (entry : Symbol × Reason) :
    Symbol × Reason :=
  (f entry.1, entry.2.rename f)

theorem ofCandidates_rename (hf : Renames f)
    (candidates : List (Symbol × Reason)) :
    ofCandidates (candidates.map (renameCandidate f)) =
      (ofCandidates candidates).rename f := by
  have hfold : ∀ (entries : List (Symbol × Reason)) (cell : Cell),
      (entries.map (renameCandidate f)).foldl
          (fun cell entry => cell.insertIfNew entry.1 entry.2)
          (cell.rename f) =
        Cell.rename f (entries.foldl
          (fun cell entry => cell.insertIfNew entry.1 entry.2) cell) := by
    intro entries
    induction entries with
    | nil => exact fun _ => rfl
    | cons entry entries ih =>
        intro cell
        have hentry : OrderedMap.insertIfNew (cell.rename f) (f entry.1)
            (entry.2.rename f) =
              Cell.rename f (cell.insertIfNew entry.1 entry.2) :=
          OrderedMap.insertIfNew_rename hf.injective cell entry.1 entry.2
        rw [List.map_cons, List.foldl_cons, List.foldl_cons, ← ih]
        exact congrArg (List.foldl _ · _) hentry
  exact hfold candidates ⟨[]⟩

theorem wordCandidate?_rename (hf : Renames f) {s : Symbol} (hs : f s = s)
    (p : Production) :
    wordCandidate? s (p.rename f) =
      (wordCandidate? s p).map (renameCandidate f) := by
  have hrhs : (p.rename f).rhs = [s] ↔ p.rhs = [s] := by
    have hsame : [s] = [s].map f := by rw [List.map_singleton, hs]
    rw [hsame, Production.rename, hf.form_injective.eq_iff, ← hsame]
  unfold wordCandidate?
  rw [Production.head?_rename hf]
  cases p.head? with
  | none => rfl
  | some head =>
      simp only [Option.map_some, Option.bind_some, hrhs]
      split <;> rfl

theorem wordCell_rename (hf : Renames f)
    (hproductions : h.productions = g.productions.map (Production.rename f))
    {s : Symbol} (hs : f s = s) :
    wordCell h s = (wordCell g s).rename f := by
  rw [wordCell_eq, wordCell_eq, ← ofCandidates_rename hf, hproductions,
    List.filterMap_map, List.map_filterMap]
  congr 1
  exact List.filterMap_congr fun p _ => wordCandidate?_rename hf hs p

theorem contains_rename (hf : Renames f) (cell : Cell) (s : Symbol) :
    OrderedMap.contains (cell.rename f) (f s) = cell.contains s :=
  OrderedMap.contains_rename hf.injective cell _ s

theorem pairCandidate?_rename (hf : Renames f) (left right : Cell)
    (split : Nat) (p : Production) :
    pairCandidate? (left.rename f) (right.rename f) split (p.rename f) =
      (pairCandidate? left right split p).map (renameCandidate f) := by
  unfold pairCandidate?
  rw [Production.head?_rename hf]
  cases p.head? with
  | none => rfl
  | some head =>
      obtain ⟨lhs, rhs⟩ := p
      match rhs with
      | [] => rfl
      | [_] => rfl
      | [first, second] =>
          simp only [Option.map_some, Production.rename, List.map_cons,
            List.map_nil, contains_rename hf]
          split <;> rfl
      | _ :: _ :: _ :: _ => rfl

theorem cell?_rename (chart : Chart) (start length : Nat) :
    (chart.rename f).cell? start length =
      (chart.cell? start length).map (Cell.rename f) := by
  unfold cell? rename
  split
  next => rfl
  next =>
    rw [List.getElem?_map]
    cases chart.rows[length - 1]? with
    | none => rfl
    | some row => exact List.getElem?_map

theorem spanCell_rename (hf : Renames f)
    (hproductions : h.productions = g.productions.map (Production.rename f))
    (chart : Chart) (start length : Nat) :
    (chart.rename f).spanCell h start length =
      (chart.spanCell g start length).rename f := by
  rw [spanCell_eq, spanCell_eq, ← ofCandidates_rename hf]
  congr 1
  unfold spanCandidates
  rw [List.map_flatMap]
  refine List.flatMap_congr fun i _ => ?_
  rw [cell?_rename, cell?_rename]
  cases chart.cell? start (i + 1) with
  | none => rfl
  | some left =>
      cases chart.cell? (start + (i + 1)) (length - (i + 1)) with
      | none => rfl
      | some right =>
          simp only [Option.map_some, hproductions, List.filterMap_map,
            List.map_filterMap]
          exact List.filterMap_congr fun p _ =>
            pairCandidate?_rename hf left right (i + 1) p

theorem fillWords_rename (hf : Renames f)
    (hproductions : h.productions = g.productions.map (Production.rename f))
    (hinput : ∀ s ∈ input, f s = s) (chart : Chart) :
    (chart.rename f).fillWords h input = (chart.fillWords g input).rename f := by
  have hrow : input.map (wordCell h) =
      (input.map (wordCell g)).map (Cell.rename f) := by
    rw [List.map_map]
    exact List.map_congr_left fun s hs =>
      wordCell_rename hf hproductions (hinput s hs)
  unfold fillWords rename
  rw [hrow, List.map_append, List.map_singleton]

theorem fillSpans_rename (hf : Renames f)
    (hproductions : h.productions = g.productions.map (Production.rename f))
    (chart : Chart) (input : Form) (length : Nat) :
    (chart.rename f).fillSpans h input length =
      (chart.fillSpans g input length).rename f := by
  unfold fillSpans
  simp only [spanCell_rename hf hproductions]
  simp only [rename, List.map_append, List.map_singleton, List.map_map]
  rfl

/-- The reasons are renamed, so they lead to the renamed tree. -/
theorem tree?_rename (hf : Renames f) (hinput : ∀ s ∈ input, f s = s)
    (chart : Chart) (s : Symbol) (start length : Nat) :
    (chart.rename f).tree? input (f s) start length =
      (chart.tree? input s start length).map (Tree.rename f) := by
  induction length using Nat.strongRecOn generalizing s start with
  | ind length ih =>
      have hreason :
          ((chart.rename f).cell? start length).bind (·.get? (f s)) =
            ((chart.cell? start length).bind (·.get? s)).map
              (Reason.rename f) := by
        rw [cell?_rename]
        cases chart.cell? start length with
        | none => rfl
        | some cell => exact OrderedMap.get?_rename hf.injective cell _ s
      rw [tree?, tree?, hreason]
      cases (chart.cell? start length).bind (·.get? s) with
      | none => rfl
      | some reason =>
          cases reason with
          | word p =>
              simp only [Option.map_some, Reason.rename]
              cases hword : input[start]? with
              | none => rfl
              | some word =>
                  have hkept := hinput word (List.mem_of_getElem? hword)
                  simp only [Option.map_some, Tree.rename, Tree.renameAll,
                    hkept]
          | split p split =>
              obtain ⟨lhs, rhs⟩ := p
              rcases rhs with _ | ⟨first, _ | ⟨second, _ | ⟨third, rest⟩⟩⟩
              · rfl
              · rfl
              · simp only [Option.map_some, Reason.rename, Production.rename,
                  List.map_cons, List.map_nil]
                by_cases hsplit : 0 < split ∧ split < length
                · rw [if_pos hsplit, if_pos hsplit,
                    ih split hsplit.2, ih (length - split) (by omega)]
                  cases chart.tree? input first start split with
                  | none => rfl
                  | some left =>
                      cases chart.tree? input second (start + split)
                        (length - split) <;> rfl
                · rw [if_neg hsplit, if_neg hsplit]
                  rfl
              · rfl

end Chart

/-! ## Parsers -/

theorem hasTerminal_rename (hf : Renames f) (hg : g.Consistent)
    (hh : h.Consistent)
    (hproductions : h.productions = g.productions.map (Production.rename f))
    (s : Symbol) : h.hasTerminal s = g.hasTerminal s := by
  unfold Grammar.hasTerminal
  rw [decide_eq_decide, hh.mem_terminals_iff, hg.mem_terminals_iff]
  refine and_congr_right fun hterm => ?_
  have hsymbols : ∀ p : Production, s ∈ (p.rename f).symbols ↔ s ∈ p.symbols := by
    intro p
    have hmapped : (p.rename f).symbols = p.symbols.map f :=
      List.map_append.symm
    have hmoved : f s ∈ p.symbols.map f ↔ s ∈ p.symbols :=
      List.mem_map_of_injective hf.injective
    rwa [hf.eq_of_isTerm s hterm, ← hmapped] at hmoved
  simp only [hproductions, List.mem_map, exists_exists_and_eq_and, hsymbols]

namespace ChartParser

variable {parser other : ChartParser}

/-- Two parsers read the same input; the charts are renamed alike, and the
status agrees. -/
structure Matches (f : Symbol → Symbol) (input : Form)
    (parser other : ChartParser) : Prop where
  productions_eq : other.grammar.productions =
    parser.grammar.productions.map (Production.rename f)
  hasTerminal_eq : ∀ s, other.grammar.hasTerminal s =
    parser.grammar.hasTerminal s
  start_eq : other.start = f parser.start
  left_input : parser.input = input
  right_input : other.input = input
  chart_eq : other.chart = parser.chart.rename f
  status_eq : other.status = parser.status

theorem matches_idle (hf : Renames f) (hg : g.Consistent) (hh : h.Consistent)
    (hproductions : h.productions = g.productions.map (Production.rename f))
    (start : Symbol) (input : Form) :
    Matches f input (idle g start input) (idle h (f start) input) :=
  ⟨hproductions, hasTerminal_rename hf hg hh hproductions, rfl, rfl, rfl, rfl,
    rfl⟩

namespace Matches

variable (hf : Renames f) (hmatches : Matches f input parser other)

include hf hmatches

theorem statusAt_eq (chart : Chart) (length : Nat) :
    other.statusAt (chart.rename f) length = parser.statusAt chart length := by
  unfold statusAt
  rw [hmatches.left_input, hmatches.right_input, hmatches.start_eq,
    Chart.cell?_rename]
  cases chart.cell? 0 length with
  | none => rfl
  | some cell =>
      simp only [Option.map_some, Option.any_some, Chart.contains_rename hf]

/-- The charts may change in both, and the status with them. -/
theorem withChart (chart : Chart) (length : Nat) :
    Matches f input
      { parser with chart := chart, status := parser.statusAt chart length }
      { other with
        chart := chart.rename f
        status := other.statusAt (chart.rename f) length } :=
  ⟨hmatches.productions_eq, hmatches.hasTerminal_eq, hmatches.start_eq,
    hmatches.left_input, hmatches.right_input, rfl,
    hmatches.statusAt_eq hf chart length⟩

theorem step : Matches f input parser.step other.step := by
  have hrefuses :
      (other.input.isEmpty || !other.input.all other.grammar.hasTerminal) =
        (parser.input.isEmpty ||
          !parser.input.all parser.grammar.hasTerminal) := by
    rw [hmatches.left_input, hmatches.right_input,
      funext hmatches.hasTerminal_eq]
  unfold ChartParser.step
  rw [hmatches.status_eq, hrefuses]
  cases hstatus : parser.status with
  | idle =>
      simp only
      split
      next =>
        exact ⟨hmatches.productions_eq, hmatches.hasTerminal_eq,
          hmatches.start_eq, hmatches.left_input, hmatches.right_input,
          hmatches.chart_eq, rfl⟩
      next hpasses =>
        -- only terminals are left in the input, and these have no other name
        have hterminal : Form.isTerminal parser.input = true := by
          rw [Bool.or_eq_true, not_or, Bool.not_eq_true', Bool.not_eq_false]
            at hpasses
          exact isTerminal_of_known hpasses.2
        have hchart : other.chart.fillWords other.grammar other.input =
            (parser.chart.fillWords parser.grammar parser.input).rename f := by
          rw [hmatches.chart_eq, hmatches.right_input, ← hmatches.left_input,
            Chart.fillWords_rename hf hmatches.productions_eq
              (hf.eq_of_isTerminal hterminal)]
        rw [hchart]
        exact hmatches.withChart hf _ 1
  | running length =>
      have hchart :
          other.chart.fillSpans other.grammar other.input (length + 1) =
            (parser.chart.fillSpans parser.grammar parser.input
              (length + 1)).rename f := by
        rw [hmatches.chart_eq, hmatches.left_input, hmatches.right_input,
          Chart.fillSpans_rename hf hmatches.productions_eq]
      simp only
      rw [hchart]
      exact hmatches.withChart hf _ (length + 1)
  | accepted => exact hmatches
  | rejected => exact hmatches

theorem run : Matches f input parser.run other.run := by
  unfold ChartParser.run
  rw [hmatches.left_input, hmatches.right_input]
  generalize max 1 input.length = count
  induction count generalizing parser other with
  | zero => exact hmatches
  | succ count ih => exact ih (hmatches.step hf)

theorem tree?_eq (hinput : Form.isTerminal input = true) :
    other.tree? = parser.tree?.map (Tree.rename f) := by
  unfold ChartParser.tree?
  rw [hmatches.status_eq]
  cases parser.status with
  | accepted =>
      rw [hmatches.left_input, hmatches.right_input, hmatches.start_eq,
        hmatches.chart_eq]
      exact Chart.tree?_rename hf (hf.eq_of_isTerminal hinput) _ _ _ _
  | _ => rfl

end Matches

/-- The trees that are found are renamings of each other. -/
theorem tree?_run_rename (hf : Renames f) (hg : g.Consistent)
    (hh : h.Consistent)
    (hproductions : h.productions = g.productions.map (Production.rename f))
    (start : Symbol) (input : Form) :
    (idle h (f start) input).run.tree? =
      (idle g start input).run.tree?.map (Tree.rename f) := by
  cases hknown : input.all g.hasTerminal with
  | false =>
      rw [tree?_run_of_unknown hknown, tree?_run_of_unknown]
      · rfl
      · rwa [funext (hasTerminal_rename hf hg hh hproductions)]
  | true =>
      have hlast := (matches_idle hf hg hh hproductions start input).run hf
      exact hlast.tree?_eq hf (isTerminal_of_known hknown)

end ChartParser

/-! ## Normalizations -/

namespace Normalization

variable {start : Symbol} {n m : Normalization} {word : Form}

/-- The eliminations are the same and the normal forms are renamed. -/
structure Renamed (f : Symbol → Symbol) (n m : Normalization) : Prop where
  lambda_eq : m.lambda = n.lambda
  unit_eq : m.unit = n.unit
  useless_eq : m.useless = n.useless
  chomsky : ChomskyForm.Renamed f n.chomsky m.chomsky

theorem exists_renamed (hg : g.Consistent) {naming other : Naming}
    (hn : g.normalize naming = .ok n) (hm : g.normalize other = .ok m) :
    ∃ f, Renames f ∧ n.useless.grammar.KeptBy f ∧ Renamed f n m := by
  obtain ⟨start, hdescribes⟩ := describes_normalize hg hn
  obtain ⟨hlambda, hunit, huseless, hchomsky⟩ := stages_of_normalize hn
  obtain ⟨hlambda', hunit', huseless', hchomsky'⟩ := stages_of_normalize hm
  have hlambdaEq : m.lambda = n.lambda :=
    Except.ok.inj (hlambda'.symm.trans hlambda)
  rw [hlambdaEq] at hunit'
  have hunitEq : m.unit = n.unit := Except.ok.inj (hunit'.symm.trans hunit)
  rw [hunitEq] at huseless'
  have huselessEq : m.useless = n.useless :=
    Except.ok.inj (huseless'.symm.trans huseless)
  rw [huselessEq] at hchomsky'
  obtain ⟨f, hf, hkept, hrenamed⟩ := ChomskyForm.exists_renamed
    hdescribes.useless.consistent hdescribes.useless.requireContextFree_eq_ok
    hchomsky hchomsky'
  exact ⟨f, hf, hkept, hlambdaEq, hunitEq, huselessEq, hrenamed⟩

/-- Without helpers, the renaming is gone. -/
theorem Renamed.restore_eq (hf : Renames f) (hrenamed : Renamed f n m)
    (hkept : n.useless.grammar.KeptBy f) (hn : n.Describes g start)
    (hterminals : n.useless.emptyLanguage = false) {tree : Tree}
    (htree : tree.CompleteFor n.grammar word) :
    m.restore (tree.rename f) = n.restore tree := by
  have hroot : tree.root = start :=
    Option.some.inj (htree.start_eq.symm.trans hn.start_grammar)
  have hrestores := hn.chomsky.restores htree.valid
    (htree.frontier_eq ▸ htree.terminal)
    (hroot ▸ hn.start_not_mem_helpers hterminals)
  obtain ⟨p, hp, hstart⟩ := hn.exists_start_mem_symbols hterminals
  have hsame : (n.chomsky.restore tree).rename f = n.chomsky.restore tree := by
    refine Tree.rename_eq_self hkept hrestores.valid ?_
    rw [hrestores.root_eq, hroot]
    exact hkept p hp start hstart
  unfold restore
  rw [hrenamed.lambda_eq, hrenamed.unit_eq,
    (ChomskyForm.restoresAlike hf hrenamed.chomsky tree).restore, hsame]

theorem Describes.inNormalForm (hn : n.Describes g start) :
    Chart.InNormalForm n.grammar :=
  fun _ hq => hn.chomsky.isChomsky hq

/-- Both charts lead to the same tree of the first grammar, or to none. -/
theorem Renamed.map_restore_eq (hf : Renames f) (hrenamed : Renamed f n m)
    (hkept : n.useless.grammar.KeptBy f) (hn : n.Describes g start)
    (hm : m.Describes g start)
    (hterminals : n.useless.emptyLanguage = false) (hne : word ≠ []) :
    (ChartParser.idle m.grammar start word).run.tree?.map m.restore =
      (ChartParser.idle n.grammar start word).run.tree?.map n.restore := by
  obtain ⟨p, hp, hstart⟩ := hn.exists_start_mem_symbols hterminals
  have htrees : (ChartParser.idle m.grammar start word).run.tree? =
      (ChartParser.idle n.grammar start word).run.tree?.map (Tree.rename f) := by
    have hrun := ChartParser.tree?_run_rename hf hn.chomsky.consistent
      hm.chomsky.consistent hrenamed.chomsky.productions_eq start word
    rwa [hkept p hp start hstart] at hrun
  rw [htrees]
  cases htree : (ChartParser.idle n.grammar start word).run.tree? with
  | none => rfl
  | some tree =>
      have hcomplete := ChartParser.completeFor_of_tree?_run hn.inNormalForm
        hn.start_grammar hne htree
      exact congrArg some (hrenamed.restore_eq hf hkept hn hterminals hcomplete)

/-- Whatever the helpers are called, every input gets the same answer, with
the same derivation over the first grammar when it is accepted. -/
theorem recognize_eq_of_namings (hg : g.Consistent) {naming other : Naming}
    (hn : g.normalize naming = .ok n) (hm : g.normalize other = .ok m)
    (word : Form) :
    ∃ result, n.recognize word = .ok result ∧
      m.recognize word = .ok result := by
  obtain ⟨start, hleft⟩ := describes_normalize hg hn
  obtain ⟨start', hright⟩ := describes_normalize hg hm
  obtain rfl : start' = start :=
    Except.ok.inj (hright.start_eq.symm.trans hleft.start_eq)
  obtain ⟨f, hf, hkept, hrenamed⟩ := exists_renamed hg hn hm
  unfold recognize
  rw [hright.requireStart_lambda, hleft.requireStart_lambda,
    hrenamed.lambda_eq, hrenamed.useless_eq]
  simp only [bind, Except.bind, pure, Except.pure]
  by_cases hne : word = []
  · subst hne
    exact ⟨_, rfl, rfl⟩
  · simp only [List.isEmpty_eq_false_iff.mpr hne, Bool.false_eq_true, if_false]
    cases hempty : n.useless.emptyLanguage with
    | true => exact ⟨.emptyLanguage, rfl, rfl⟩
    | false =>
        have hparser := ChartParser.ofGrammar_eq_ok hleft.inNormalForm
          hleft.requireContextFree_eq_ok word
        have hparser' := ChartParser.ofGrammar_eq_ok hright.inNormalForm
          hright.requireContextFree_eq_ok word
        simp only [hparser, hparser', Bool.false_eq_true, if_false]
        refine ⟨_, rfl, ?_⟩
        rw [hrenamed.map_restore_eq hf hkept hleft hright hempty hne]

/-- `S(a S(T(c T())) b)`, the tree of `acb`. -/
def filledPair : Tree :=
  .node (.var "S") (.rule (.var "S") [.term "a", .var "S", .term "b"])
    [.leaf (.term "a"),
      .node (.var "S") (.rule (.var "S") [.var "T"])
        [.node (.var "T") (.rule (.var "T") [.term "c", .var "T"])
          [.leaf (.term "c"), .node (.var "T") (.rule (.var "T") []) []]],
      .leaf (.term "b")]

theorem recognize_eq_filledPairs :
    ∃ n m, filledPairs.normalize .numbered = .ok n ∧
      filledPairs.normalize .letters = .ok m ∧
      n.chomsky.helpers.keys ≠ m.chomsky.helpers.keys ∧
      n.recognize [.term "a", .term "c", .term "b"] =
        .ok (.accepted filledPair) ∧
      m.recognize [.term "a", .term "c", .term "b"] =
        .ok (.accepted filledPair) := by
  have hbuilt : ∃ n m, filledPairs.normalize .numbered = .ok n ∧
      filledPairs.normalize .letters = .ok m ∧
      n.chomsky.helpers.keys ≠ m.chomsky.helpers.keys ∧
      n.recognize [.term "a", .term "c", .term "b"] =
        .ok (.accepted filledPair) :=
    ⟨_, _, rfl, rfl, by decide, by decide +kernel⟩
  obtain ⟨n, m, hn, hm, hkeys, htree⟩ := hbuilt
  obtain ⟨result, hresult, hsame⟩ := recognize_eq_of_namings
    (Grammar.consistent_of_start rfl _) hn hm
    [.term "a", .term "c", .term "b"]
  cases htree.symm.trans hresult
  exact ⟨n, m, hn, hm, hkeys, htree, hsame⟩

end Normalization

end FormalGrammars
