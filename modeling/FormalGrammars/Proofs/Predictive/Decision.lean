import FormalGrammars.Proofs.Predictive.Derivation

/-!
# A conflict-free LL(1) table decides its language

Two facts bound a run at one look-ahead.  A nullable form whose variables are
all followed by the look-ahead vanishes from the stack, and a form that can
begin with the next symbol gets that symbol matched; both go by induction on a
yield, because in a table without conflicts the entry of a cell is the
production that the yield uses.  An entry says that one of the two applies, so
every run ends, by induction on the input and then on the stack.  If the input
is in the language, the stack always yields what is left of it, and no move
rejects.
-/

namespace FormalGrammars

namespace PredictiveParser

variable {g : Grammar} {start : Symbol} {table : PredictiveTable}
  {parser : PredictiveParser} {remaining stack : Form}

/-- The run goes on with this input left and this stack. -/
structure Running (parser : PredictiveParser) (remaining stack : Form) : Prop where
  outcome_eq : parser.outcome = none
  not_cancelled : parser.guard.cancelled = false
  remaining_eq : parser.remaining = remaining
  stack_eq : parser.stack = stack

theorem running_start (table : PredictiveTable) (schedule : Schedule) (input : Form) :
    (PredictiveParser.start table schedule input).Running input [table.start] :=
  ⟨rfl, rfl, rfl, rfl⟩

/-! ## Single moves -/

/-- Without a stop a step is a move, but for the count of the guard. -/
theorem Running.step_eq (table : PredictiveTable)
    (hrunning : parser.Running remaining stack) :
    ∃ counted : PredictiveParser, counted.Running remaining stack ∧
      parser.step table .always = counted.move table := by
  obtain ⟨hleave, hguard⟩ := Guard.advance_always hrunning.not_cancelled
  refine ⟨{ parser with guard := (parser.guard.advance .always).2 },
    ⟨hrunning.outcome_eq, hguard, hrunning.remaining_eq, hrunning.stack_eq⟩, ?_⟩
  simp [step, hasEnded, hrunning.outcome_eq, hleave]

theorem Running.accept (hrunning : parser.Running [] []) :
    (parser.step table .always).outcome = some .accept := by
  obtain ⟨counted, hcounted, hstep⟩ := hrunning.step_eq table
  rw [hstep]
  simp [move, hcounted.stack_eq, hcounted.remaining_eq, finish]

theorem Running.reject_of_empty {s : Symbol}
    (hrunning : parser.Running (s :: remaining) []) :
    ∃ mismatch, (parser.step table .always).outcome =
      some (.reject mismatch) := by
  obtain ⟨counted, hcounted, hstep⟩ := hrunning.step_eq table
  rw [hstep]
  simp [move, hcounted.stack_eq, hcounted.remaining_eq, reject, finish]

theorem Running.match_terminal {s : Symbol}
    (hrunning : parser.Running (s :: remaining) (s :: stack))
    (hterm : s.isTerm = true) :
    (parser.step table .always).Running remaining stack := by
  obtain ⟨counted, hcounted, hstep⟩ := hrunning.step_eq table
  rw [hstep]
  simp only [move, hcounted.stack_eq, hcounted.remaining_eq, hterm, if_true,
    List.head?_cons, List.tail_cons]
  exact ⟨hcounted.outcome_eq, hcounted.not_cancelled, rfl, rfl⟩

theorem Running.reject_of_mismatch {s : Symbol}
    (hrunning : parser.Running remaining (s :: stack))
    (hterm : s.isTerm = true) (hnext : remaining.head? ≠ some s) :
    ∃ mismatch, (parser.step table .always).outcome =
      some (.reject mismatch) := by
  obtain ⟨counted, hcounted, hstep⟩ := hrunning.step_eq table
  rw [hstep]
  simp [move, hcounted.stack_eq, hcounted.remaining_eq, hterm, hnext, reject,
    finish]

theorem Running.expand {s : Symbol}
    (hrunning : parser.Running remaining (s :: stack))
    (hvar : s.isVar = true) {p : Production}
    (hentry : table.entry? s (.ofRest remaining) = some p) :
    (parser.step table .always).Running remaining (p.rhs ++ stack) := by
  obtain ⟨counted, hcounted, hstep⟩ := hrunning.step_eq table
  rw [hstep]
  have hterm := Symbol.isTerm_eq_false hvar
  simp only [move, hcounted.stack_eq, hcounted.remaining_eq, hterm, hentry,
    Bool.false_eq_true, if_false]
  exact ⟨hcounted.outcome_eq, hcounted.not_cancelled, rfl, rfl⟩

theorem Running.reject_of_empty_cell {s : Symbol}
    (hrunning : parser.Running remaining (s :: stack))
    (hvar : s.isVar = true)
    (hentry : table.entry? s (.ofRest remaining) = none) :
    ∃ mismatch, (parser.step table .always).outcome =
      some (.reject mismatch) := by
  obtain ⟨counted, hcounted, hstep⟩ := hrunning.step_eq table
  rw [hstep]
  have hterm := Symbol.isTerm_eq_false hvar
  simp [move, hcounted.stack_eq, hcounted.remaining_eq, hterm, hentry, reject,
    finish]

/-! ## Runs at one look-ahead -/

def Decides (g : Grammar) (start : Symbol) (table : PredictiveTable) : Prop :=
  ∀ p ∈ g.productions, ∀ head x, p.head? = some head →
    (g.Selects start head p x ↔ table.entry? head x = some p)

theorem decides_of_conflictFree (hg : g.Consistent)
    (hstart : g.requireContextFree = .ok start)
    (htable : PredictiveTable.ofGrammar g = .ok table)
    (hfree : table.isConflictFree = true) : Decides g start table := by
  intro p hmem head x hhead
  constructor
  · intro hselects
    apply PredictiveTable.entry?_of_mem_candidates hfree
    exact (PredictiveTable.mem_candidates_iff hg hstart htable).mpr
      ⟨hmem, hhead, hselects⟩
  · intro hentry
    have hcell := PredictiveTable.mem_candidates_of_entry? hentry
    exact ((PredictiveTable.mem_candidates_iff hg hstart htable).mp hcell).2.2

theorem follows_of_nullable {head : Symbol} {p : Production}
    (hmem : p ∈ g.productions) (hhead : p.head? = some head)
    (hnull : g.Yields p.rhs []) {x : Lookahead}
    (hfollows : g.Follows start head x) :
    ∀ s ∈ p.rhs, s.isVar = true → g.Follows start s x := by
  intro s hs hvar
  obtain ⟨before, tail, hrhs⟩ := List.append_of_mem hs
  rw [hrhs] at hnull
  obtain ⟨_, right, heq, _, hright⟩ := hnull.exists_append
  obtain ⟨_, rfl⟩ := List.append_eq_nil_iff.mp heq.symm
  obtain ⟨_, behind, heq, _, htail⟩ := hright.exists_cons
  obtain ⟨_, rfl⟩ := List.append_eq_nil_iff.mp heq.symm
  exact .head ⟨hvar, p, hmem, hhead, before, hrhs⟩ htail hfollows

/-- A nullable form whose variables are followed by the look-ahead vanishes. -/
theorem Running.vanish (hdecides : Decides g start table) {form result : Form}
    (hyields : g.Yields form result) (hresult : result = [])
    (hfollows : ∀ s ∈ form, s.isVar = true →
      g.Follows start s (.ofRest remaining))
    (hrunning : parser.Running remaining (form ++ stack)) :
    Comes (step table .always) parser fun other => other.Running remaining stack := by
  induction hyields generalizing parser stack with
  | nil => exact .now hrunning
  | keep s _ _ => simp at hresult
  | @expand s p rest left right hmem hhead hrhs hrest ihrhs ihrest =>
      obtain ⟨rfl, rfl⟩ := List.append_eq_nil_iff.mp hresult
      have hvar := Grammar.isVar_of_head? hhead
      have hs := hfollows s List.mem_cons_self hvar
      have hentry := (hdecides p hmem s _ hhead).mp (.inr ⟨hrhs, hs⟩)
      have hbelow := follows_of_nullable hmem hhead hrhs hs
      apply Comes.later
      apply Comes.next (ihrhs rfl hbelow (hrunning.expand hvar hentry))
      intro other hother
      exact ihrest rfl
        (fun t ht => hfollows t (List.mem_cons_of_mem s ht)) hother

/-- A form that can begin with the next symbol gets it matched. -/
theorem Running.reach_match (hdecides : Decides g start table)
    {form result : Form} (hyields : g.Yields form result) {t : Symbol}
    {tail : Form} (hresult : result = t :: tail) (hterm : t.isTerm = true)
    (hstack : g.Supported start (form ++ stack))
    (hrunning : parser.Running (t :: remaining) (form ++ stack)) :
    Comes (step table .always) parser fun other =>
      ∃ below, other.Running remaining below ∧ g.Supported start below := by
  induction hyields generalizing parser stack tail with
  | nil => simp at hresult
  | @keep s rest result _ _ =>
      obtain ⟨rfl, -⟩ := List.cons.inj hresult
      exact .later (.now ⟨rest ++ stack, hrunning.match_terminal hterm, hstack.2⟩)
  | @expand s p rest left right hmem hhead hrhs hrest ihrhs ihrest =>
      have hvar := Grammar.isVar_of_head? hhead
      cases left with
      | nil =>
          rw [List.nil_append] at hresult
          subst hresult
          have hs : g.Follows start s (.ofRest (t :: remaining)) :=
            hstack.1 hvar _ ⟨hterm, tail ++ stack, hrest.append (.refl stack)⟩
          have hentry := (hdecides p hmem s _ hhead).mp (.inr ⟨hrhs, hs⟩)
          have hbelow := follows_of_nullable hmem hhead hrhs hs
          apply Comes.later
          apply Comes.next
            ((hrunning.expand hvar hentry).vanish hdecides hrhs rfl hbelow)
          intro other hother
          exact ihrest rfl hstack.2 hother
      | cons u left =>
          obtain ⟨rfl, -⟩ := List.cons.inj hresult
          have hselects : g.Selects start s p (.symbol u) :=
            .inl ⟨by simp, hterm, left, hrhs⟩
          have hentry := (hdecides p hmem s _ hhead).mp hselects
          exact .later (ihrhs rfl (hstack.expand hmem hhead)
            (hrunning.expand hvar hentry))

/-! ## Every run ends -/

/-- The run has ended, and nobody stopped it. -/
def Concluded (parser : PredictiveParser) : Prop :=
  parser.outcome = some .accept ∨
    ∃ mismatch, parser.outcome = some (.reject mismatch)

theorem Running.concludes (htable : EntriesFrom g table)
    (hdecides : Decides g start table)
    (hstack : g.Supported start stack)
    (hrunning : parser.Running remaining stack) :
    Comes (step table .always) parser Concluded := by
  -- On the input left, and on the height of the stack while that stays.
  induction hinput : remaining.length using Nat.strongRecOn
    generalizing parser remaining stack with
  | ind size ihinput =>
    induction hheight : stack.length using Nat.strongRecOn
      generalizing parser stack with
    | ind height ihstack =>
      cases stack with
      | nil =>
          cases remaining with
          | nil => exact .later (.now (.inl hrunning.accept))
          | cons t remaining =>
              exact .later (.now (.inr hrunning.reject_of_empty))
      | cons s below =>
          by_cases hterm : s.isTerm = true
          · by_cases hnext : remaining.head? = some s
            · obtain ⟨rest, rfl⟩ := List.head?_eq_some_iff.mp hnext
              refine .later (ihinput rest.length ?_ hstack.2
                (hrunning.match_terminal hterm) rfl)
              simp [← hinput]
            · exact .later (.now (.inr (hrunning.reject_of_mismatch hterm hnext)))
          · have hvar := Symbol.isVar_of_isTerm_eq_false
              (Bool.not_eq_true _ ▸ hterm)
            cases hentry : table.entry? s (.ofRest remaining) with
            | none => exact .later (.now (.inr
                (hrunning.reject_of_empty_cell hvar hentry)))
            | some p =>
                obtain ⟨hmem, hhead⟩ := htable _ _ _ hentry
                have hexpanded := hrunning.expand hvar hentry
                apply Comes.later
                rcases (hdecides p hmem s _ hhead).mpr hentry with
                  ⟨_, hbegins⟩ | ⟨hnull, hfollows⟩
                · -- The right side can begin with the next symbol.
                  cases remaining with
                  | nil => exact hbegins.elim
                  | cons t remaining =>
                      obtain ⟨ht, tail, hyields⟩ := hbegins
                      apply Comes.next (hexpanded.reach_match hdecides hyields
                        rfl ht (hstack.expand hmem hhead))
                      rintro other ⟨rest, hother, hrest⟩
                      refine ihinput remaining.length ?_ hrest hother rfl
                      simp [← hinput]
                · -- The right side is nullable, and the look-ahead stands behind.
                  apply Comes.next (hexpanded.vanish hdecides hnull rfl
                    (follows_of_nullable hmem hhead hnull hfollows))
                  intro other hother
                  refine ihstack below.length ?_ hstack.2 hother rfl
                  simp [← hheight]

/-! ## Inputs in the language are accepted -/

/-- The run has accepted, or goes on with a stack that yields the rest. -/
def OnTrack (g : Grammar) (start : Symbol) (parser : PredictiveParser) : Prop :=
  parser.outcome = some .accept ∨
    ∃ remaining stack, parser.Running remaining stack ∧
      g.Supported start stack ∧ g.Yields stack remaining ∧
      Form.isTerminal remaining = true

theorem OnTrack.step (hdecides : Decides g start table)
    (hparser : parser.OnTrack g start) :
    (parser.step table .always).OnTrack g start := by
  rcases hparser with haccept | ⟨remaining, stack, hrunning, hstack, hyields, hword⟩
  · rw [step_of_hasEnded (by simp [hasEnded, haccept])]
    exact .inl haccept
  · cases stack with
    | nil =>
        have hempty := hyields.eq_nil
        subst hempty
        exact .inl hrunning.accept
    | cons s below =>
        by_cases hterm : s.isTerm = true
        · obtain ⟨rest, rfl, hrest⟩ := hyields.of_isTerm hterm
          exact .inr ⟨rest, below, hrunning.match_terminal hterm, hstack.2,
            hrest, (Grammar.isTerminal_cons.mp hword).2⟩
        · have hvar := Symbol.isVar_of_isTerm_eq_false
            (Bool.not_eq_true _ ▸ hterm)
          obtain ⟨p, hmem, left, right, hhead, rfl, hrhs, hbelow⟩ :=
            hyields.of_isVar hvar hword
          have hselects := hstack.selects hhead hrhs hbelow hword
          have hentry := (hdecides p hmem s _ hhead).mp hselects
          exact .inr ⟨_, p.rhs ++ below, hrunning.expand hvar hentry,
            hstack.expand hmem hhead, hrhs.append hbelow, hword⟩

/-- With a table without conflicts every run ends, in acceptance exactly when
the input is in the language and in rejection otherwise. -/
theorem run_decides_language (hg : g.Consistent)
    (htable : PredictiveTable.ofGrammar g = .ok table)
    (hfree : table.isConflictFree = true) (schedule : Schedule) (input : Form) :
    ∃ count,
      let parser := stepTimes (step table .always) count
        (PredictiveParser.start table schedule input)
      (parser.outcome = some .accept ∧ g.Language input) ∨
        ((∃ mismatch, parser.outcome = some (.reject mismatch)) ∧
          ¬ g.Language input) := by
  obtain ⟨start, hstart⟩ := PredictiveTable.exists_start_of_ofGrammar htable
  have htableStart := PredictiveTable.start_ofGrammar hstart htable
  have hentries := entriesFrom_ofGrammar hg hstart htable
  have hdecides := decides_of_conflictFree hg hstart htable hfree
  have hrunning := running_start table schedule input
  have htraced := traced_start g table schedule input
  rw [htableStart] at hrunning htraced
  obtain ⟨count, hconcluded⟩ :=
    hrunning.concludes hentries hdecides Grammar.supported_start
  refine ⟨count, ?_⟩
  rcases hconcluded with haccept | ⟨mismatch, hreject⟩
  · refine .inl ⟨haccept, ?_⟩
    have hlast := stepTimes_induct (motive := Traced g start input)
      (fun state hstate => hstate.step hentries .always) count htraced
    exact hlast.language hstart haccept
  · refine .inr ⟨⟨mismatch, hreject⟩, fun hlanguage => ?_⟩
    obtain ⟨hword, hyields⟩ := (Grammar.language_iff_yields hstart).mp hlanguage
    have hlast := stepTimes_induct (motive := OnTrack g start)
      (fun state hstate => hstate.step hdecides) count
      (.inr ⟨input, [start], hrunning, Grammar.supported_start, hyields, hword⟩)
    rcases hlast with haccept | ⟨_, _, hrunning, _⟩
    · rw [hreject] at haccept
      simp at haccept
    · have hnone := hrunning.outcome_eq
      rw [hreject] at hnone
      simp at hnone

/-- `S → aSb | λ`, beside a variable of the kind `U → NU` with `N → λ`, which
is left recursive behind a nullable one and derives nothing. -/
def nestedPairs : Grammar :=
  Grammar.withProductions { start := some (.var "S") }
    [.rule (.var "S") [.term "a", .var "S", .term "b"],
      .rule (.var "S") [],
      .rule (.var "U") [.var "N", .var "U"],
      .rule (.var "N") []]

theorem run_decides_nestedPairs :
    ∃ table, PredictiveTable.ofGrammar nestedPairs = .ok table ∧
      table.isConflictFree = true ∧
      ∃ count,
        let parser := stepTimes (step table .always) count
          (PredictiveParser.start table {} [.term "a", .term "b"])
        (parser.outcome = some .accept ∧
            nestedPairs.Language [.term "a", .term "b"]) ∨
          ((∃ mismatch, parser.outcome = some (.reject mismatch)) ∧
            ¬ nestedPairs.Language [.term "a", .term "b"]) := by
  have hbuilt : ∃ table, PredictiveTable.ofGrammar nestedPairs = .ok table ∧
      table.isConflictFree = true :=
    ⟨_, rfl, by decide +kernel⟩
  obtain ⟨table, htable, hfree⟩ := hbuilt
  exact ⟨table, htable, hfree,
    run_decides_language (Grammar.consistent_of_start rfl _) htable hfree {} _⟩

end PredictiveParser

end FormalGrammars
