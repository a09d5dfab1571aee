import FormalGrammars.Proofs.Search.Expansion
import FormalGrammars.Proofs.Search.Viability

/-!
# The search decides its language

While a search goes on, every form of its history waits in the queue, or all
steps from it to viable forms lead to forms of the history, and the target is
none of these.  When the queue is empty the history is closed, so the target is
not in the language.  A form is added only as the result of a step from another
one, so the history records derivations, and the search accepts with one of the
target.  None of this depends on the guard, which may stop the search at any
form and may be told to do so in the middle of a step.
-/

namespace FormalGrammars.Search

open SearchPlan

variable {g : Grammar} {start : Symbol} {target form next : Form}
  {search : Search} {number parent : Nat} {step : Step} {tried : List Step}

/-! ## Forms of the history -/

/-- If the step leads to a viable form, that is in the history. -/
def Tried (search : Search) (number : Nat) (step : Step) : Prop :=
  ∀ next, Form.rewrite? (search.history.form number) step = some next →
    search.plan.isViable next = true → search.hasSeen next = true

/-- The search goes on.  The forms that are not expanded are those in the queue
and the busy ones. -/
structure GoesOn (g : Grammar) (start : Symbol) (target : Form)
    (busy : List Nat) (search : Search) : Prop where
  status_eq : search.status = .searching
  plan_eq : search.plan = .ofGrammar g target
  target_isTerminal : Form.isTerminal target = true
  records : search.history.Records g start
  absent : search.hasSeen target = false
  waiting_lt : ∀ number ∈ busy ++ search.queue, number < search.history.size
  expanded : ∀ number < search.history.size, number ∉ busy ++ search.queue →
    ∀ step ∈ search.plan.options (search.history.form number),
      search.Tried number step

/-- The search has ended, and what it says is right. -/
structure Ended (g : Grammar) (start : Symbol) (target : Form)
    (search : Search) : Prop where
  isFinal : search.status.isFinal = true
  records : search.history.Records g start
  accepted : ∀ number, search.status = .accepted number →
    Form.isTerminal target = true ∧ number < search.history.size ∧
      search.history.form number = target
  rejected : search.status = .rejected → ¬ g.Language target

/-- What holds of a search between its steps. -/
def Sound (g : Grammar) (start : Symbol) (target : Form)
    (search : Search) : Prop :=
  search.GoesOn g start target [] ∨ search.Ended g start target

theorem Sound.records (hsearch : search.Sound g start target) :
    search.history.Records g start := by
  rcases hsearch with hgoes | hended
  · exact hgoes.records
  · exact hended.records

theorem Sound.ended_of_isFinal (hsearch : search.Sound g start target)
    (hfinal : search.status.isFinal = true) :
    search.Ended g start target := by
  rcases hsearch with hgoes | hended
  · rw [hgoes.status_eq] at hfinal
    cases hfinal
  · exact hended

theorem Ended.language (hended : search.Ended g start target)
    (hstart : g.start = some start)
    (haccept : search.status = .accepted number) : g.Language target := by
  obtain ⟨hterminal, hlt, hform⟩ := hended.accepted number haccept
  have hderives := hended.records.derives hlt
  rw [hform] at hderives
  exact ⟨hterminal, start, hstart, hderives⟩

theorem GoesOn.abandon {busy : List Nat}
    (hgoes : search.GoesOn g start target busy) (guard : Guard) :
    Ended g start target { search with guard := guard, status := .abandoned } :=
  ⟨rfl, hgoes.records, by simp, by simp⟩

theorem GoesOn.withGuard {busy : List Nat}
    (hgoes : search.GoesOn g start target busy) (guard : Guard) :
    GoesOn g start target busy { search with guard := guard } :=
  ⟨hgoes.status_eq, hgoes.plan_eq, hgoes.target_isTerminal, hgoes.records,
    hgoes.absent, hgoes.waiting_lt, hgoes.expanded⟩

theorem GoesOn.not_language (hg : g.Consistent)
    (hlhs : ∀ p ∈ g.productions, p.lhs ≠ []) (hstart : g.start = some start)
    (hgoes : search.GoesOn g start target []) (hqueue : search.queue = []) :
    ¬ g.Language target := by
  intro hlanguage
  -- Nothing waits, so every form is expanded and the history is closed.
  have hclosed : (SearchPlan.ofGrammar g target).Closed
      (search.hasSeen · = true) := by
    intro form hform step hstep next hrewrite hviable
    obtain ⟨number, hlt, rfl⟩ := hasSeen_iff.mp hform
    have hexpanded := hgoes.expanded number hlt (by simp [hqueue])
    rw [← hgoes.plan_eq] at hstep hviable
    exact hexpanded step hstep next hrewrite hviable
  have hroot : search.hasSeen [start] = true := hasSeen_iff.mpr
    ⟨0, History.lt_size_of_entry hgoes.records.root,
      History.form_of_entry hgoes.records.root⟩
  have hseen := hclosed.reaches_target hg hlhs hstart hroot hlanguage
  rw [hgoes.absent] at hseen
  cases hseen

/-! ## Expanding a form -/

/-- The form with the number `parent` is expanded, and these steps from it were
tried. -/
structure Expanding (g : Grammar) (start : Symbol) (target : Form)
    (parent : Nat) (form : Form) (tried : List Step) (search : Search) :
    Prop where
  goesOn : search.GoesOn g start target [parent]
  form_eq : search.history.form parent = form
  tried : ∀ step ∈ tried, search.Tried parent step

theorem Expanding.parent_lt
    (hsearch : search.Expanding g start target parent form tried) :
    parent < search.history.size :=
  hsearch.goesOn.waiting_lt parent List.mem_cons_self

theorem Expanding.note
    (hsearch : search.Expanding g start target parent form tried)
    (hstep : search.Tried parent step) :
    search.Expanding g start target parent form (tried ++ [step]) := by
  refine ⟨hsearch.goesOn, hsearch.form_eq, fun other hother => ?_⟩
  rcases List.mem_append.mp hother with hold | hnew
  · exact hsearch.tried other hold
  · exact List.mem_singleton.mp hnew ▸ hstep

theorem mem_waiting_grow (busy : List Nat) (search : Search) (guard : Guard)
    (parent : Nat) (next : Form) (step : Step) :
    number ∈ busy ++ (search.grow guard parent next step).queue ↔
      number ∈ busy ++ search.queue ∨ number = search.history.size := by
  simp [grow, or_assoc]

theorem Tried.grow (hlt : number < search.history.size)
    (hstep : search.Tried number step) (guard : Guard) (parent : Nat)
    (next : Form) (added : Step) :
    (search.grow guard parent next added).Tried number step := by
  intro result hrewrite hviable
  rw [form_grow_of_lt hlt] at hrewrite
  rw [hasSeen_grow, hstep result hrewrite hviable, Bool.true_or]

theorem GoesOn.grow {busy : List Nat}
    (hgoes : search.GoesOn g start target busy)
    (hparent : parent < search.history.size)
    (hmem : step.production ∈ g.productions)
    (hrewrite : Form.rewrite? (search.history.form parent) step = some next)
    (hne : next ≠ target) (guard : Guard) :
    (search.grow guard parent next step).GoesOn g start target busy := by
  refine ⟨hgoes.status_eq, hgoes.plan_eq, hgoes.target_isTerminal,
    hgoes.records.addChild hparent hmem hrewrite, ?_, ?_, ?_⟩
  · rw [hasSeen_grow, hgoes.absent]
    simpa using hne
  · intro number hnumber
    rw [size_grow]
    rcases (mem_waiting_grow _ _ _ _ _ _).mp hnumber with hold | rfl
    · exact Nat.lt_succ_of_lt (hgoes.waiting_lt number hold)
    · exact Nat.lt_succ_self _
  · -- The new form waits, so only forms from before are expanded.
    intro number hlt hwaiting other hother
    rw [mem_waiting_grow, not_or] at hwaiting
    rw [size_grow] at hlt
    have hold : number < search.history.size := by omega
    rw [form_grow_of_lt hold] at hother
    exact (hgoes.expanded number hold hwaiting.1 other hother).grow hold guard
      parent next step

theorem Expanding.grow
    (hsearch : search.Expanding g start target parent form tried)
    (hmem : step.production ∈ g.productions)
    (hrewrite : Form.rewrite? form step = some next) (hne : next ≠ target)
    (guard : Guard) :
    (search.grow guard parent next step).Expanding g start target parent form
      (tried ++ [step]) := by
  have hparent := hsearch.parent_lt
  have hform : (search.grow guard parent next step).history.form parent =
      form := (form_grow_of_lt hparent guard parent next step).trans
    hsearch.form_eq
  have hmade := hsearch.form_eq.symm ▸ hrewrite
  refine ⟨hsearch.goesOn.grow hparent hmem hmade hne guard, hform, ?_⟩
  intro other hother
  rcases List.mem_append.mp hother with hold | hnew
  · exact (hsearch.tried other hold).grow hparent guard parent next step
  · rw [List.mem_singleton.mp hnew]
    intro result hresult _
    rw [hform, hrewrite, Option.some.injEq] at hresult
    rw [hasSeen_grow, hresult]
    simp

theorem Expanding.found
    (hsearch : search.Expanding g start target parent form tried)
    (hmem : step.production ∈ g.productions)
    (hrewrite : Form.rewrite? form step = some target) (guard : Guard) :
    (search.found guard parent target step).Ended g start target := by
  have hmade := hsearch.form_eq.symm ▸ hrewrite
  refine ⟨rfl, hsearch.goesOn.records.addChild hsearch.parent_lt hmem hmade,
    ?_, by simp [Search.found]⟩
  intro number hstatus
  cases hstatus
  refine ⟨hsearch.goesOn.target_isTerminal, ?_, History.form_addChild_size⟩
  change search.history.size < (search.history.addChild parent target step).size
  rw [History.size_addChild]
  exact Nat.lt_succ_self _

theorem tried_of_not_makes (hform : search.history.form parent = form)
    (hnot : ∀ next, ¬ search.Makes form step next) :
    search.Tried parent step := by
  intro next hrewrite hviable
  rw [hform] at hrewrite
  cases hseen : search.hasSeen next with
  | true => rfl
  | false => exact absurd ⟨hrewrite, hviable, hseen⟩ (hnot next)

/-- With its steps tried, the form is expanded or the search has ended. -/
theorem Expanding.rule {steps : List Step}
    (hmem : ∀ step ∈ steps, step.production ∈ g.productions)
    (checkpoint : Checkpoint) :
    ExpansionRule checkpoint parent form steps
      (Expanding g start target parent form) (Ended g start target) := by
  have hplan : ∀ {search : Search} {tried : List Step},
      search.Expanding g start target parent form tried →
      search.plan.target = target := by
    intro search tried hsearch
    rw [hsearch.goesOn.plan_eq]
    rfl
  constructor
  · intro search tried step _ hsearch hnot
    exact hsearch.note (tried_of_not_makes hsearch.form_eq hnot)
  · intro search tried guard hsearch _
    exact hsearch.goesOn.abandon guard
  · intro search tried step guard hstep hsearch hmakes _
    have hrewrite := hmakes.rewrite_eq
    rw [hplan hsearch] at hrewrite ⊢
    exact hsearch.found (hmem step hstep) hrewrite guard
  · intro search tried step next guard hstep hsearch hmakes hne _
    rw [hplan hsearch] at hne
    exact hsearch.grow (hmem step hstep) hmakes.rewrite_eq hne guard

theorem Expanding.expand {steps : List Step}
    (hsearch : search.Expanding g start target parent form tried)
    (hmem : ∀ step ∈ steps, step.production ∈ g.productions)
    (checkpoint : Checkpoint) :
    (search.expand checkpoint parent form steps).Ended g start target ∨
      (search.expand checkpoint parent form steps).Expanding g start target
        parent form (tried ++ steps) :=
  (rule hmem checkpoint).expand hsearch

/-! ## Steps -/

/-- A step in which the guard is changed when so many options have been
tried. -/
def stepInTwo (change : Guard → Guard) (checkpoint : Checkpoint) (count : Nat)
    (search : Search) : Search :=
  if search.status.isFinal then search
  else if search.guard.cancelled then { search with status := .abandoned }
  else match search.queue with
    | [] => { search with status := .rejected }
    | number :: queue =>
      let form := search.history.form number
      let options := search.plan.options form
      let half := { search with queue := queue }.expand checkpoint number form
        (options.take count)
      if half.status.isFinal then half
      else { half with guard := change half.guard }.expand checkpoint number
        form (options.drop count)

theorem expand_append (checkpoint : Checkpoint) (parent : Nat) (form : Form)
    (first second : List Step) (search : Search)
    (hsearching : search.status = .searching) :
    search.expand checkpoint parent form (first ++ second) =
      let half := search.expand checkpoint parent form first
      if half.status.isFinal then half
      else half.expand checkpoint parent form second := by
  induction first generalizing search with
  | nil => simp [Search.expand, hsearching, SearchStatus.isFinal]
  | cons step first ih =>
      simp only [List.cons_append, Search.expand]
      split
      next => exact ih search hsearching
      next =>
        split
        next => exact ih search hsearching
        next =>
          split
          next =>
            split
            next => rfl
            next => exact ih _ hsearching
          next => rfl

/-- Where the guard stays as it is, it does not matter at which option a step
is cut. -/
theorem step_eq_stepInTwo (checkpoint : Checkpoint) (count : Nat)
    (search : Search) :
    search.step checkpoint = search.stepInTwo id checkpoint count := by
  unfold Search.step stepInTwo
  split
  next => rfl
  next hstatus =>
    split
    next => rfl
    next =>
      cases search.queue with
      | nil => rfl
      | cons number queue =>
          have happend := expand_append checkpoint number
            (search.history.form number)
            ((search.plan.options (search.history.form number)).take count)
            ((search.plan.options (search.history.form number)).drop count)
            { search with queue := queue } (status_eq_searching hstatus)
          rw [List.take_append_drop] at happend
          exact happend

theorem GoesOn.take {queue : List Nat}
    (hgoes : search.GoesOn g start target [])
    (hqueue : search.queue = number :: queue) :
    Expanding g start target number (search.history.form number) []
      { search with queue := queue } := by
  refine ⟨⟨hgoes.status_eq, hgoes.plan_eq, hgoes.target_isTerminal,
    hgoes.records, hgoes.absent, ?_, ?_⟩, rfl, by simp⟩
  · intro other hother
    refine hgoes.waiting_lt other ?_
    simpa [hqueue] using hother
  · intro other hlt hwaiting
    refine hgoes.expanded other hlt ?_
    simpa [hqueue] using hwaiting

theorem Expanding.withGuard
    (hsearch : search.Expanding g start target parent form tried)
    (guard : Guard) :
    Expanding g start target parent form tried
      { search with guard := guard } :=
  ⟨hsearch.goesOn.withGuard guard, hsearch.form_eq, hsearch.tried⟩

theorem Expanding.done
    (hsearch : search.Expanding g start target parent form tried)
    (htried : tried = (SearchPlan.ofGrammar g target).options form) :
    search.GoesOn g start target [] := by
  have hgoes := hsearch.goesOn
  refine ⟨hgoes.status_eq, hgoes.plan_eq, hgoes.target_isTerminal,
    hgoes.records, hgoes.absent, ?_, ?_⟩
  · intro number hnumber
    exact hgoes.waiting_lt number (List.mem_append_right _ hnumber)
  · intro number hlt hwaiting
    by_cases hparent : number = parent
    · rw [hparent, hsearch.form_eq, hgoes.plan_eq, ← htried]
      exact hsearch.tried
    · refine hgoes.expanded number hlt ?_
      simpa [hparent] using hwaiting

/-- A form is expanded, whatever happens to the guard meanwhile. -/
theorem Expanding.expand_sound
    (hsearch : search.Expanding g start target parent form [])
    (change : Guard → Guard) (checkpoint : Checkpoint) (count : Nat) :
    let options := search.plan.options form
    let half := search.expand checkpoint parent form (options.take count)
    (if half.status.isFinal then half
      else { half with guard := change half.guard }.expand checkpoint parent
        form (options.drop count)).Sound g start target := by
  intro options half
  have hoptions : options = (SearchPlan.ofGrammar g target).options form := by
    rw [← hsearch.goesOn.plan_eq]
  have hmem : ∀ step ∈ options, step.production ∈ g.productions := by
    rw [hoptions]
    exact fun step hstep => production_mem_of_mem_options hstep
  rcases hsearch.expand (fun step hstep => hmem step (List.mem_of_mem_take hstep))
    checkpoint with hended | hhalf
  · rw [if_pos hended.isFinal]
    exact .inr hended
  · have hgoing : ¬ half.status.isFinal = true := by
      simp [half, hhalf.goesOn.status_eq, SearchStatus.isFinal]
    rw [if_neg hgoing]
    rcases (hhalf.withGuard (change half.guard)).expand
      (fun step hstep => hmem step (List.mem_of_mem_drop hstep))
      checkpoint with hended | hlast
    · exact .inr hended
    · refine .inl (hlast.done ?_)
      rw [List.nil_append, List.take_append_drop, hoptions]

theorem Sound.stepInTwo (hg : g.Consistent)
    (hlhs : ∀ p ∈ g.productions, p.lhs ≠ []) (hstart : g.start = some start)
    (hsearch : search.Sound g start target) (change : Guard → Guard)
    (checkpoint : Checkpoint) (count : Nat) :
    (search.stepInTwo change checkpoint count).Sound g start target := by
  unfold Search.stepInTwo
  rcases hsearch with hgoes | hended
  · rw [if_neg (by simp [hgoes.status_eq, SearchStatus.isFinal])]
    split
    next => exact .inr (hgoes.abandon search.guard)
    next =>
      cases hqueue : search.queue with
      | nil =>
          have hrejected := hgoes.not_language hg hlhs hstart hqueue
          exact .inr ⟨rfl, hgoes.records, by simp, fun _ => hrejected⟩
      | cons number queue =>
          exact (hgoes.take hqueue).expand_sound change checkpoint count
  · rw [if_pos hended.isFinal]
    exact .inr hended

theorem Sound.withGuard (hsearch : search.Sound g start target)
    (guard : Guard) : Sound g start target { search with guard := guard } := by
  rcases hsearch with hgoes | hended
  · exact .inl (hgoes.withGuard guard)
  · exact .inr ⟨hended.isFinal, hended.records, hended.accepted,
      hended.rejected⟩

theorem Sound.withEmitted (hsearch : search.Sound g start target)
    (emitted : Nat) :
    Sound g start target { search with emitted := emitted } := by
  rcases hsearch with hgoes | hended
  · exact .inl ⟨hgoes.status_eq, hgoes.plan_eq, hgoes.target_isTerminal,
      hgoes.records, hgoes.absent, hgoes.waiting_lt, hgoes.expanded⟩
  · exact .inr ⟨hended.isFinal, hended.records, hended.accepted,
      hended.rejected⟩

/-! ## The start of a search -/

/-- A search begins with the root alone. -/
theorem exists_root_of_start {schedule : Schedule}
    (hfirst : Search.start g target schedule = .ok search) :
    ∃ start, search.history = .ofRoot [start] ∧ search.queue = [0] ∧
      search.guard = .ofSchedule schedule ∧
      ∀ number, search.status ≠ .accepted number := by
  unfold Search.start at hfirst
  cases hstart : g.requireStart with
  | error fault =>
      rw [hstart] at hfirst
      cases hfirst
  | ok start =>
      rw [hstart] at hfirst
      cases hfirst
      refine ⟨start, rfl, rfl, rfl, ?_⟩
      intro number
      simp only
      split
      next => simp
      next => simp

theorem start_eq_ok (hg : g.Consistent) (hstart : g.start = some start)
    (target : Form) (schedule : Schedule) :
    ∃ first, Search.start g target schedule = .ok first ∧
      first.Sound g start target := by
  unfold Search.start
  rw [Grammar.requireStart_eq_ok_iff.mpr hstart]
  refine ⟨_, rfl, ?_⟩
  by_cases hall : target.all g.hasTerminal = true
  · have hterm : ∀ s ∈ target, s.isTerm = true := by
      intro s hs
      have hmem := of_decide_eq_true (List.all_eq_true.mp hall s hs)
      exact (List.mem_filter.mp hmem).2
    have hne : [start] ≠ target := by
      rintro rfl
      exact absurd (hg.start_isVar start hstart)
        (Symbol.not_isVar_of_isTerm (hterm start (List.mem_singleton_self _)))
    refine .inl ⟨by simp [hall], rfl, List.all_eq_true.mpr hterm,
      History.records_ofRoot, ?_, ?_, ?_⟩
    · simpa [hasSeen, History.ofRoot] using hne
    · intro number hnumber
      rw [List.mem_singleton.mp hnumber]
      exact Nat.zero_lt_one
    · intro number hlt hwaiting
      have hzero : number = 0 := Nat.lt_one_iff.mp hlt
      simp [hzero] at hwaiting
  · refine .inr ⟨by simp [hall, SearchStatus.isFinal], History.records_ofRoot,
      by simp [hall], fun _ hlanguage => hall ?_⟩
    refine List.all_eq_true.mpr fun s hs => decide_eq_true ?_
    exact hg.mem_terminals_of_language hlanguage hs

/-! ## Runs -/

/-- The states that a search comes to, whatever its checkpoint answers, and
whenever it is cancelled, be it in the middle of a step. -/
inductive Reached (first : Search) : Search → Prop where
  | now : Reached first first
  | step {search : Search} (checkpoint : Checkpoint)
      (hreached : Reached first search) :
      Reached first (search.step checkpoint)
  | cancel {search : Search} (hreached : Reached first search) :
      Reached first search.cancel
  /-- The cancellation comes after so many options of the step. -/
  | cancelDuring {search : Search} (checkpoint : Checkpoint) (count : Nat)
      (hreached : Reached first search) :
      Reached first (search.stepInTwo Guard.cancel checkpoint count)
  | handOut {search : Search} (hreached : Reached first search) :
      Reached first { search with emitted := search.emitted + 1 }

variable {first : Search}

theorem Reached.emit (hreached : Reached first search)
    (checkpoint : Checkpoint) : Reached first (search.emit checkpoint).2 := by
  unfold Search.emit
  generalize search.queue.length + 2 = fuel
  induction fuel generalizing search with
  | zero => exact hreached
  | succ fuel ih =>
      unfold emitWithin
      split
      next => exact hreached.handOut
      next =>
        have hstepped := hreached.step checkpoint
        simp only
        split
        next => exact hstepped
        next => exact ih hstepped

theorem Reached.sound (hg : g.Consistent)
    (hlhs : ∀ p ∈ g.productions, p.lhs ≠ []) (hstart : g.start = some start)
    (hfirst : first.Sound g start target) (hreached : Reached first search) :
    search.Sound g start target := by
  induction hreached with
  | now => exact hfirst
  | step checkpoint _ ih =>
      rw [step_eq_stepInTwo checkpoint 0]
      exact ih.stepInTwo hg hlhs hstart id checkpoint 0
  | cancel _ ih => exact ih.withGuard _
  | cancelDuring checkpoint count _ ih =>
      exact ih.stepInTwo hg hlhs hstart Guard.cancel checkpoint count
  | handOut _ ih => exact ih.withEmitted _

/-- A search that accepts has derived the target, one that rejects has shown
that it cannot be derived, and at every moment the steps to each form of the
history replay to it. -/
theorem status_decides_language (hg : g.Consistent)
    (hlhs : ∀ p ∈ g.productions, p.lhs ≠ []) (hstart : g.start = some start)
    (target : Form) (schedule : Schedule) :
    ∃ first, Search.start g target schedule = .ok first ∧
      ∀ search, Reached first search →
        (∀ number, search.status = .accepted number →
          g.Language target ∧ ∃ steps, search.derivation? = some steps ∧
            g.replay steps = .ok target) ∧
        (search.status = .rejected → ¬ g.Language target) ∧
        ∀ number < search.history.size,
          g.replay (search.history.stepsTo number) =
            .ok (search.history.form number) := by
  obtain ⟨first, hfirst, hsound⟩ := start_eq_ok hg hstart target schedule
  refine ⟨first, hfirst, ?_⟩
  intro search hreached
  have hsearch := hreached.sound hg hlhs hstart hsound
  refine ⟨?_, ?_, fun number hlt => hsearch.records.replay hstart hlt⟩
  · intro number hstatus
    have hended := hsearch.ended_of_isFinal (by rw [hstatus]; rfl)
    obtain ⟨hterminal, hlt, hform⟩ := hended.accepted number hstatus
    have hderives := hended.records.derives hlt
    have hreplay := hended.records.replay hstart hlt
    rw [hform] at hderives hreplay
    refine ⟨⟨hterminal, start, hstart, hderives⟩, _, ?_, hreplay⟩
    rw [derivation?, hstatus]
  · intro hstatus
    have hended := hsearch.ended_of_isFinal (by rw [hstatus]; rfl)
    exact hended.rejected hstatus

/-- `S → aSBc | abc`, `cB → Bc` and `bB → bb`, for as many `a` as `b` and
`c`. -/
def equalBlocks : Grammar :=
  Grammar.withProductions
    { validity := .unrestricted, start := some (.var "S") }
    [.rule (.var "S") [.term "a", .var "S", .var "B", .term "c"],
      .rule (.var "S") [.term "a", .term "b", .term "c"],
      ⟨[.term "c", .var "B"], [.var "B", .term "c"]⟩,
      ⟨[.term "b", .var "B"], [.term "b", .term "b"]⟩]

def twoOfEach : Form :=
  [.term "a", .term "a", .term "b", .term "b", .term "c", .term "c"]

theorem status_decides_equalBlocks :
    (∀ p ∈ equalBlocks.productions, p.lhs ≠ []) ∧
      equalBlocks.start = some (.var "S") ∧
      ∃ first search, Search.start equalBlocks twoOfEach {} = .ok first ∧
        Reached first search ∧ search.status = .accepted 5 ∧
        equalBlocks.Language twoOfEach ∧
        ∃ steps, search.derivation? = some steps ∧
          equalBlocks.replay steps = .ok twoOfEach := by
  have hlhs : ∀ p ∈ equalBlocks.productions, p.lhs ≠ [] := by
    decide
  obtain ⟨first, hfirst, hall⟩ := status_decides_language
    (Grammar.consistent_of_start rfl _) (g := equalBlocks) hlhs rfl twoOfEach {}
  have hrun : ∃ built, Search.start equalBlocks twoOfEach {} = .ok built ∧
      (stepTimes (Search.step .always) 5 built).status = .accepted 5 :=
    ⟨_, rfl, by decide +kernel⟩
  obtain ⟨built, hbuilt, haccepted⟩ := hrun
  rw [hfirst] at hbuilt
  cases hbuilt
  have hreached : Reached first (stepTimes (Search.step .always) 5 first) :=
    stepTimes_induct (fun _ hsearch => hsearch.step .always) 5 .now
  obtain ⟨hlanguage, hderivation⟩ := (hall _ hreached).1 5 haccepted
  exact ⟨hlhs, rfl, first, _, hfirst, hreached, haccepted, hlanguage,
    hderivation⟩

end FormalGrammars.Search
