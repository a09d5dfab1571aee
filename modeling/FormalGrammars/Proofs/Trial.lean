import FormalGrammars.Proofs.Leftmost
import FormalGrammars.Proofs.Patience
import FormalGrammars.Proofs.Predictive.Decision
import FormalGrammars.Proofs.Recognition
import FormalGrammars.Proofs.ShiftReduce.Decision

/-!
# Trials agree with the language

Four methods are built from a grammar in different ways, and each reports a
derivation in an order of its own.  What they report is right all the same: an
acceptance comes with productions that rewrite the start to the input, and what
is rejected is not in the language, if the table has no conflicts where there
is a table.  So no two methods contradict each other, and neither does a trial
depend on the ones before it.
-/

namespace FormalGrammars

variable {g : Grammar} {start : Symbol} {word : Form} {schedule : Schedule}

/-! ## What conflict-free tables reject -/

theorem PredictiveParser.not_language_of_reject (hg : g.Consistent)
    {table : PredictiveTable} (htable : PredictiveTable.ofGrammar g = .ok table)
    (hfree : table.isConflictFree = true) {count : Nat}
    {parser : PredictiveParser}
    (hreaches : ReachesIn (step table) cancel
      (PredictiveParser.start table schedule word) count parser)
    {mismatch : Mismatch} (hreject : parser.outcome = some (.reject mismatch)) :
    ¬ g.Language word := by
  intro hlanguage
  obtain ⟨start, hstart⟩ := PredictiveTable.exists_start_of_ofGrammar htable
  have hdecides := decides_of_conflictFree hg hstart htable hfree
  obtain ⟨hword, hyields⟩ := (Grammar.language_iff_yields hstart).mp hlanguage
  have hrunning := running_start table schedule word
  rw [PredictiveTable.start_ofGrammar hstart htable] at hrunning
  -- The run that nothing stops never leaves the track of the input.
  have hfreeRun := stepTimes_induct (motive := OnTrack g start)
    (fun state hstate => hstate.step hdecides) count
    (.inr ⟨word, [start], hrunning, Grammar.supported_start, hyields, hword⟩)
  have hreject := GuardedMachine.outcome_free_of_reject (m := machine table)
    hreaches rfl rfl hreject
  rcases hfreeRun with haccept | ⟨_, _, hgoing, _⟩
  · exact absurd (haccept.symm.trans hreject) (by simp)
  · exact absurd (hgoing.outcome_eq.symm.trans hreject) (by simp)

theorem ShiftReduceParser.not_language_of_reject (hg : g.Consistent)
    {table : SlrTable} (htable : SlrTable.ofGrammar g = .ok table)
    (hfree : table.isConflictFree = true) {count : Nat}
    {parser : ShiftReduceParser}
    (hreaches : ReachesIn (step table) cancel
      (ShiftReduceParser.start schedule word) count parser)
    {mismatch : Mismatch} (hreject : parser.outcome = some (.reject mismatch)) :
    ¬ g.Language word := by
  intro hlanguage
  obtain ⟨start, hstart⟩ := SlrTable.exists_start_of_ofGrammar htable
  obtain ⟨tree, htree⟩ := Tree.exists_completeFor hstart hlanguage
  have haccepts := comes_accepted (SlrTable.describes_ofGrammar hg hstart htable)
    hfree (Grammar.requireContextFree_eq_ok_iff.mp hstart).1 htree schedule
  have hrejects : Comes (step table .always)
      (ShiftReduceParser.start schedule word)
      (fun other => other.outcome = some (.reject mismatch)) :=
    ⟨count, GuardedMachine.outcome_free_of_reject (m := machine table)
      hreaches rfl rfl hreject⟩
  -- The run that nothing stops has one end.
  obtain ⟨last, haccept, hlast⟩ := haccepts.unique hrejects
    (fun other hother => step_of_hasEnded (by simp [hasEnded, hother.1]))
    (fun other hother => step_of_hasEnded (by simp [hasEnded, hother]))
  exact absurd (haccept.1.symm.trans hlast) (by simp)

/-! ## Verdicts -/

namespace Verdict

theorem ofOutcome?_eq_accept_iff {outcome : Option Outcome} :
    ofOutcome? outcome = accept ↔ outcome = some .accept := by
  constructor
  · intro hverdict
    unfold ofOutcome? at hverdict
    split at hverdict
    next => rfl
    next => cases hverdict
    next => cases hverdict
  · rintro rfl
    rfl

theorem ofOutcome?_eq_unknown_iff {result : Option Outcome} {outcome : Outcome}
    (hresult : result = some outcome) :
    ofOutcome? result = unknown ↔ outcome = .abandoned := by
  rw [hresult]
  cases outcome with
  | accept => simp [ofOutcome?]
  | reject mismatch => simp [ofOutcome?]
  | abandoned => simp [ofOutcome?]

/-- The run of a guarded machine ends within its patience, and the verdict is
unknown only when it was stopped on the way. -/
theorem exists_outcome_of_patience {α : Type} {m : GuardedMachine α} {first : α}
    (hfirst : (m.guard first).Granted schedule 0) :
    let last := stepTimes (m.step .never) schedule.patience first
    ∃ outcome, m.outcome last = some outcome ∧
      (ofOutcome? (m.outcome last) = unknown ↔ outcome = .abandoned) := by
  obtain ⟨outcome, houtcome⟩ := Option.isSome_iff_exists.mp
    (GuardedMachine.ended_of_patience hfirst)
  exact ⟨outcome, houtcome, ofOutcome?_eq_unknown_iff houtcome⟩

theorem exists_reject_of_ofOutcome? {outcome : Option Outcome}
    (hverdict : ofOutcome? outcome = reject ∨
      ofOutcome? outcome = emptyLanguage) :
    ∃ mismatch, outcome = some (.reject mismatch) := by
  unfold ofOutcome? at hverdict
  split at hverdict
  next => simp at hverdict
  next mismatch => exact ⟨mismatch, rfl⟩
  next => simp at hverdict

theorem exists_accepted_of_ofStatus {status : SearchStatus}
    (hverdict : ofStatus status = accept) :
    ∃ number, status = .accepted number := by
  cases status with
  | accepted number => exact ⟨number, rfl⟩
  | searching => cases hverdict
  | rejected => cases hverdict
  | abandoned => cases hverdict

theorem eq_rejected_of_ofStatus {status : SearchStatus}
    (hverdict : ofStatus status = reject ∨ ofStatus status = emptyLanguage) :
    status = .rejected := by
  cases status with
  | rejected => rfl
  | accepted number => simp [ofStatus] at hverdict
  | searching => simp [ofStatus] at hverdict
  | abandoned => simp [ofStatus] at hverdict

theorem ofStatus_eq_unknown_iff {status : SearchStatus}
    (hfinal : status.isFinal = true) :
    ofStatus status = unknown ↔ status = .abandoned := by
  cases status with
  | searching => cases hfinal
  | accepted number => simp [ofStatus]
  | rejected => simp [ofStatus]
  | abandoned => simp [ofStatus]

end Verdict

/-! ## Methods of a grammar -/

inductive Method.BuiltFrom (g : Grammar) : Method → Prop where
  | chart {naming : Naming} {n : Normalization}
      (hn : g.normalize naming = .ok n) : BuiltFrom g (.chart n)
  | predictive {table : PredictiveTable}
      (htable : PredictiveTable.ofGrammar g = .ok table) :
      BuiltFrom g (.predictive table)
  | shiftReduce {table : SlrTable} (htable : SlrTable.ofGrammar g = .ok table) :
      BuiltFrom g (.shiftReduce table)
  | search : BuiltFrom g (.search g)

namespace Method

/-- What the method rejects is not in the language. -/
def isDecisive : Method → Bool
  | .predictive table => table.isConflictFree
  | .shiftReduce table => table.isConflictFree
  | _ => true

/-- Rewrites in the order in which the method reports its productions. -/
def rewriteAll? : Method → Form → List Production → Option Form
  | .shiftReduce _ => Form.rewriteAllRightmost?
  | _ => Form.rewriteAllLeftmost?

/-- The run that gives the verdict has come to its end, and the verdict is
unknown only when the run was stopped on the way. -/
def EndsWith (schedule : Schedule) (input : Form) (verdict : Verdict) :
    Method → Prop
  | .chart _ => verdict ≠ .unknown
  | .predictive table =>
    ∃ outcome, (PredictiveParser.run table .never schedule.patience
        (.start table schedule input)).outcome = some outcome ∧
      (verdict = .unknown ↔ outcome = .abandoned)
  | .shiftReduce table =>
    ∃ outcome, (ShiftReduceParser.run table .never schedule.patience
        (.start schedule input)).outcome = some outcome ∧
      (verdict = .unknown ↔ outcome = .abandoned)
  | .search grammar =>
    ∃ first, Search.start grammar input schedule = .ok first ∧
      let last := Search.run .never schedule.patience first
      last.status.isFinal = true ∧
        (verdict = .unknown ↔ last.status = .abandoned)

/-- The verdict is right for the grammar and the input, and it is final. -/
structure JudgesRightly (g : Grammar) (start : Symbol) (schedule : Schedule)
    (input : Form) (method : Method) (verdict : Verdict)
    (derivation : Option (List Production)) : Prop where
  ended : method.EndsWith schedule input verdict
  accepted : verdict = .accept → ∃ ps, derivation = some ps ∧
    (∀ p ∈ ps, p ∈ g.productions) ∧ method.rewriteAll? [start] ps = some input
  refused : verdict = .reject ∨ verdict = .emptyLanguage →
    method.isDecisive = true → ¬ g.Language input

/-- A method judges every input, and it does so rightly. -/
def Judges (g : Grammar) (start : Symbol) (schedule : Schedule) (input : Form)
    (method : Method) : Prop :=
  ∃ verdict derivation,
    method.judge schedule input = .ok (verdict, derivation) ∧
      method.JudgesRightly g start schedule input verdict derivation

theorem rewriteAll?_derives {method : Method} {ps : List Production}
    (hps : ∀ p ∈ ps, p ∈ g.productions) {form last : Form}
    (hrewrite : method.rewriteAll? form ps = some last) :
    g.Derives form last := by
  cases method with
  | shiftReduce table =>
      exact Form.rewriteAllRightmost?_derives hps hrewrite
  | chart normalization => exact Form.rewriteAllLeftmost?_derives hps hrewrite
  | predictive table => exact Form.rewriteAllLeftmost?_derives hps hrewrite
  | search grammar => exact Form.rewriteAllLeftmost?_derives hps hrewrite

theorem JudgesRightly.language (hstart : g.requireContextFree = .ok start)
    (hword : Form.isTerminal word = true) {method : Method}
    {derivation : Option (List Production)}
    (hjudges : method.JudgesRightly g start schedule word .accept derivation) :
    g.Language word := by
  obtain ⟨ps, _, hps, hrewrite⟩ := hjudges.accepted rfl
  exact ⟨hword, start, (Grammar.requireContextFree_eq_ok_iff.mp hstart).1,
    rewriteAll?_derives hps hrewrite⟩

/-! ### The judgement of each method -/

theorem judges_chart (hg : g.Consistent)
    (hstart : g.requireContextFree = .ok start) {naming : Naming}
    {n : Normalization} (hn : g.normalize naming = .ok n)
    (schedule : Schedule) (word : Form) :
    Judges g start schedule word (.chart n) := by
  obtain ⟨other, hdescribes⟩ := Normalization.describes_normalize hg hn
  cases hstart.symm.trans hdescribes.start_eq
  obtain ⟨result, hresult, hsettles⟩ := hdescribes.exists_settles word
  simp only [Judges, judge, hresult, Except.map]
  cases hsettles with
  | @accepted tree htree =>
      refine ⟨_, _, rfl, by simp [EndsWith], fun _ => ?_, by simp⟩
      have hroot : tree.root = start := Option.some.inj
        (htree.start_eq.symm.trans
          (Grammar.requireContextFree_eq_ok_iff.mp hstart).1)
      refine ⟨_, rfl, htree.mem_productions, ?_⟩
      rw [← hroot]
      exact htree.rewriteAllLeftmost?_productions
  | emptyLanguage hne hempty =>
      refine ⟨_, _, rfl, by simp [EndsWith], by simp,
        fun _ _ hlanguage => ?_⟩
      exact hne (hempty word hlanguage)
  | rejected hlanguage _ =>
      exact ⟨_, _, rfl, by simp [EndsWith], by simp, fun _ _ => hlanguage⟩

theorem judges_predictive (hg : g.Consistent)
    (hstart : g.requireContextFree = .ok start) {table : PredictiveTable}
    (htable : PredictiveTable.ofGrammar g = .ok table)
    (schedule : Schedule) (word : Form) :
    Judges g start schedule word (.predictive table) := by
  have hentries := PredictiveParser.entriesFrom_ofGrammar hg hstart htable
  have hreaches : ReachesIn (PredictiveParser.step table)
      PredictiveParser.cancel (PredictiveParser.start table schedule word) _ _ :=
    reachesIn_stepTimes .never schedule.patience
  have htraced := PredictiveParser.Traced.of_reaches hentries hreaches.reaches
  rw [PredictiveTable.start_ofGrammar hstart htable] at htraced
  refine ⟨_, _, rfl, ?_⟩
  simp only [PredictiveParser.run_eq_stepTimes]
  refine ⟨?_, fun hverdict => ?_, fun hverdict hfree => ?_⟩
  · rw [EndsWith, PredictiveParser.run_eq_stepTimes]
    exact Verdict.exists_outcome_of_patience (m := PredictiveParser.machine table)
      (Guard.granted_ofSchedule schedule)
  · have haccept := Verdict.ofOutcome?_eq_accept_iff.mp hverdict
    have hrewrite := htraced.sentential_eq
    rw [htraced.sentential_of_accept haccept] at hrewrite
    exact ⟨_, if_pos hverdict, htraced.applied_mem, hrewrite⟩
  · obtain ⟨mismatch, hreject⟩ := Verdict.exists_reject_of_ofOutcome? hverdict
    exact PredictiveParser.not_language_of_reject hg htable hfree hreaches
      hreject

theorem judges_shiftReduce (hg : g.Consistent)
    (hstart : g.requireContextFree = .ok start) {table : SlrTable}
    (htable : SlrTable.ofGrammar g = .ok table) (schedule : Schedule)
    (hword : Form.isTerminal word = true) :
    Judges g start schedule word (.shiftReduce table) := by
  have hdescribes := SlrTable.describes_ofGrammar hg hstart htable
  have hreaches : ReachesIn (ShiftReduceParser.step table)
      ShiftReduceParser.cancel (ShiftReduceParser.start schedule word) _ _ :=
    reachesIn_stepTimes .never schedule.patience
  have htraced := ShiftReduceParser.Traced.of_reaches hg hdescribes hword
    hreaches.reaches
  refine ⟨_, _, rfl, ?_⟩
  simp only [ShiftReduceParser.run_eq_stepTimes]
  refine ⟨?_, fun hverdict => ?_, fun hverdict hfree => ?_⟩
  · rw [EndsWith, ShiftReduceParser.run_eq_stepTimes]
    exact Verdict.exists_outcome_of_patience (m := ShiftReduceParser.machine table)
      (Guard.granted_ofSchedule schedule)
  · have haccept := Verdict.ofOutcome?_eq_accept_iff.mp hverdict
    have hrewrite := htraced.sentential_eq
    rw [htraced.accepted haccept] at hrewrite
    exact ⟨_, if_pos hverdict, htraced.derivation_mem, hrewrite⟩
  · obtain ⟨mismatch, hreject⟩ := Verdict.exists_reject_of_ofOutcome? hverdict
    exact ShiftReduceParser.not_language_of_reject hg htable hfree hreaches
      hreject

theorem judges_search (hg : g.Consistent)
    (hstart : g.requireContextFree = .ok start) (schedule : Schedule)
    (word : Form) : Judges g start schedule word (.search g) := by
  obtain ⟨hsome, hfree⟩ := Grammar.requireContextFree_eq_ok_iff.mp hstart
  obtain ⟨first, hfirst, hsound⟩ :=
    Search.start_eq_ok hg hsome word schedule
  obtain ⟨_, hsame, -, haccounted, -⟩ :=
    Search.exists_start_fresh hsome word schedule
  cases hfirst.symm.trans hsame
  have hlast := Search.sound_and_follows hg hfree hsome hsound
    (Search.follows_start hfirst) .never schedule.patience
  have hfinal := Search.isFinal_of_patience hfirst haccounted
  have hended := hlast.1.ended_of_isFinal hfinal
  simp only [Judges, judge, hfirst, Except.map, Search.run_eq_stepTimes]
  refine ⟨_, _, rfl, ?_, fun hverdict => ?_, fun hverdict _ => ?_⟩
  · refine ⟨first, hfirst, ?_⟩
    rw [Search.run_eq_stepTimes]
    exact ⟨hfinal, Verdict.ofStatus_eq_unknown_iff hfinal⟩
  · obtain ⟨number, hstatus⟩ := Verdict.exists_accepted_of_ofStatus hverdict
    obtain ⟨_, hlt, hform⟩ := hended.accepted number hstatus
    refine ⟨_, by rw [Search.derivation?, hstatus]; rfl, ?_, ?_⟩
    · intro p hp
      obtain ⟨step, hstep, rfl⟩ := List.mem_map.mp hp
      exact hended.records.mem_productions hlt step hstep
    · rw [← hform]
      exact hlast.2.rewriteAllLeftmost?_stepsTo hended.records
        hfree hlt
  · exact hended.rejected (Verdict.eq_rejected_of_ofStatus hverdict)

theorem BuiltFrom.judges (hg : g.Consistent)
    (hstart : g.requireContextFree = .ok start) {method : Method}
    (hmethod : method.BuiltFrom g) (schedule : Schedule)
    (hword : Form.isTerminal word = true) :
    Judges g start schedule word method := by
  cases hmethod with
  | chart hn => exact judges_chart hg hstart hn schedule word
  | predictive htable => exact judges_predictive hg hstart htable schedule word
  | shiftReduce htable =>
      exact judges_shiftReduce hg hstart htable schedule hword
  | search => exact judges_search hg hstart schedule word

end Method

/-! ## Trials -/

theorem Grammar.isTerminal_lex (g : Grammar) (input : String) :
    Form.isTerminal (g.lex input) = true := by
  refine List.all_eq_true.mpr fun s hs => ?_
  obtain ⟨token, _, rfl⟩ := List.mem_map.mp hs
  rfl

/-- One accepts and the other does not. -/
def Verdict.contradicts : Verdict → Verdict → Bool
  | accept, reject => true
  | accept, emptyLanguage => true
  | reject, accept => true
  | emptyLanguage, accept => true
  | _, _ => false

namespace Method

theorem JudgesRightly.not_contradicts
    (hstart : g.requireContextFree = .ok start)
    (hword : Form.isTerminal word = true) {method other : Method}
    {limits : Schedule} {verdict answer : Verdict}
    {derivation reference : Option (List Production)}
    (hmethod : method.isDecisive = true) (hother : other.isDecisive = true)
    (hverdict : method.JudgesRightly g start schedule word verdict derivation)
    (hanswer : other.JudgesRightly g start limits word answer reference) :
    verdict.contradicts answer = false := by
  cases verdict with
  | unknown => rfl
  | accept =>
      have hlanguage := hverdict.language hstart hword
      cases answer with
      | accept => rfl
      | unknown => rfl
      | reject => exact absurd hlanguage (hanswer.refused (.inl rfl) hother)
      | emptyLanguage =>
          exact absurd hlanguage (hanswer.refused (.inr rfl) hother)
  | reject =>
      cases answer with
      | accept =>
          exact absurd (hanswer.language hstart hword)
            (hverdict.refused (.inl rfl) hmethod)
      | reject => rfl
      | unknown => rfl
      | emptyLanguage => rfl
  | emptyLanguage =>
      cases answer with
      | accept =>
          exact absurd (hanswer.language hstart hword)
            (hverdict.refused (.inr rfl) hmethod)
      | reject => rfl
      | unknown => rfl
      | emptyLanguage => rfl

end Method

namespace Trial

variable {method : Method} {lexer : Grammar}

theorem runAll_singleton {question : String × Bool} {trial : Trial}
    (hrun : run lexer method schedule question.1 question.2 = .ok trial) :
    runAll lexer method schedule [question] = .ok [trial] := by
  simp [runAll, hrun, bind, Except.bind, pure, Except.pure]

/-- The trials of a list are those of its questions. -/
theorem exists_runAll {right : String × Bool → Trial → Prop}
    {questions : List (String × Bool)}
    (hall : ∀ question ∈ questions, ∃ trial,
      run lexer method schedule question.1 question.2 = .ok trial ∧
        right question trial) :
    ∃ trials, runAll lexer method schedule questions = .ok trials ∧
      List.Forall₂ right questions trials := by
  induction questions with
  | nil => exact ⟨[], rfl, .nil⟩
  | cons question questions ih =>
      obtain ⟨trial, hrun, hright⟩ := hall question List.mem_cons_self
      obtain ⟨trials, hruns, hrest⟩ := ih fun other hother =>
        hall other (List.mem_cons_of_mem question hother)
      refine ⟨trial :: trials, ?_, .cons hright hrest⟩
      unfold runAll at hruns ⊢
      simp [List.mapM_cons, hrun, hruns, bind, Except.bind, pure, Except.pure]

/-- A trial shows what the method says of its input. -/
theorem exists_run {text : String}
    (hjudges : method.Judges g start schedule (lexer.lex text))
    (expected : Bool) :
    ∃ trial, run lexer method schedule text expected = .ok trial ∧
      trial.input = text ∧ trial.expected = expected ∧
      trial.symbols = lexer.lex text ∧
      method.JudgesRightly g start schedule trial.symbols trial.verdict
        trial.derivation := by
  obtain ⟨verdict, derivation, hjudge, hright⟩ := hjudges
  unfold run
  rw [hjudge]
  exact ⟨_, rfl, rfl, rfl, rfl, hright⟩

/-- The trials of a list of questions answer them one by one, as if each had
been asked alone.  Their verdicts are right for the grammar that the method
was built from, and no other decisive method of that grammar, under whatever
limits, contradicts them. -/
theorem runAll_judges_each (hg : g.Consistent)
    (hstart : g.requireContextFree = .ok start)
    (hmethod : method.BuiltFrom g) (lexer : Grammar) (schedule : Schedule)
    (questions : List (String × Bool)) :
    ∃ trials, runAll lexer method schedule questions = .ok trials ∧
      List.Forall₂ (fun question trial =>
        runAll lexer method schedule [question] = .ok [trial] ∧
        trial.input = question.1 ∧ trial.expected = question.2 ∧
        trial.symbols = lexer.lex question.1 ∧
        method.JudgesRightly g start schedule trial.symbols trial.verdict
          trial.derivation ∧
        ∀ (other : Method) (limits : Schedule), other.BuiltFrom g →
          ∃ answer, runAll lexer other limits [question] = .ok [answer] ∧
            (method.isDecisive = true → other.isDecisive = true →
              trial.verdict.contradicts answer.verdict = false))
        questions trials := by
  apply exists_runAll
  intro question _
  have hword := lexer.isTerminal_lex question.1
  obtain ⟨trial, hrun, hinput, hexpected, hsymbols, hright⟩ :=
    exists_run (hmethod.judges hg hstart schedule hword) question.2
  refine ⟨trial, hrun, runAll_singleton hrun, hinput, hexpected, hsymbols,
    hright, ?_⟩
  intro other limits hother
  obtain ⟨answer, hanswer, -, -, hsame, hreference⟩ :=
    exists_run (hother.judges hg hstart limits hword) question.2
  refine ⟨answer, runAll_singleton hanswer, fun hdecisive hothers => ?_⟩
  rw [hsymbols] at hright
  rw [hsame] at hreference
  exact hright.not_contradicts hstart hword hdecisive hothers hreference

/-- `S → aSb`, `S → T`, `T → cT` and `T → λ` lead to `acb`, and nothing leads to
`ba`. -/
theorem runAll_judges_filledPairs :
    ∃ n, Normalization.filledPairs.normalize .numbered = .ok n ∧
      Normalization.filledPairs.requireContextFree = .ok (.var "S") ∧
      Method.BuiltFrom Normalization.filledPairs (.chart n) ∧
      ∃ first second,
        runAll Normalization.filledPairs (.chart n) {}
          [("acb", true), ("ba", false)] = .ok [first, second] ∧
        first.verdict = .accept ∧
        first.derivation = some
          [.rule (.var "S") [.term "a", .var "S", .term "b"],
            .rule (.var "S") [.var "T"], .rule (.var "T") [.term "c", .var "T"],
            .rule (.var "T") []] ∧
        Method.JudgesRightly Normalization.filledPairs (.var "S") {}
          first.symbols (.chart n) first.verdict first.derivation ∧
        second.verdict = .reject ∧ second.derivation = none ∧
        Method.JudgesRightly Normalization.filledPairs (.var "S") {}
          second.symbols (.chart n) second.verdict second.derivation := by
  have hbuilt : ∃ n, Normalization.filledPairs.normalize .numbered = .ok n ∧
      runAll Normalization.filledPairs (.chart n) {}
        [("acb", true), ("ba", false)] =
      .ok [⟨"acb", [.term "a", .term "c", .term "b"], true, .accept,
          some [.rule (.var "S") [.term "a", .var "S", .term "b"],
            .rule (.var "S") [.var "T"], .rule (.var "T") [.term "c", .var "T"],
            .rule (.var "T") []]⟩,
        ⟨"ba", [.term "b", .term "a"], false, .reject, none⟩] :=
    ⟨_, rfl, by decide +kernel⟩
  obtain ⟨n, hn, hanswers⟩ := hbuilt
  have hstart :
      Normalization.filledPairs.requireContextFree = .ok (.var "S") := rfl
  have hmethod : Method.BuiltFrom Normalization.filledPairs (.chart n) :=
    .chart hn
  obtain ⟨trials, hruns, hall⟩ := runAll_judges_each
    (Grammar.consistent_of_start rfl _) hstart hmethod
    Normalization.filledPairs {} [("acb", true), ("ba", false)]
  cases hruns.symm.trans hanswers
  cases hall with
  | cons hfirst hrest =>
      cases hrest with
      | cons hsecond _ =>
          obtain ⟨-, -, -, -, hfirst, -⟩ := hfirst
          obtain ⟨-, -, -, -, hsecond, -⟩ := hsecond
          exact ⟨n, hn, hstart, hmethod, _, _, hruns, rfl, rfl, hfirst, rfl,
            rfl, hsecond⟩

end Trial

end FormalGrammars
