import FormalGrammars.Proofs.History
import FormalGrammars.Search.BreadthFirst

/-!
# What an expansion does

An expansion tries the steps from a form in turn.  A step makes a form when it
leads to a form that is viable and not in the history; the others change
nothing.  For a form that is made the guard is asked: it stops the search, or
the form is added to the history and is either the target, which ends the
search, or put into the queue.

Whatever an invariant of expansions says, these four cases are all there is to
show, so they are stated once as a rule.  The same is done for the steps of a
search.
-/

namespace FormalGrammars.Search

variable {search : Search} {form next : Form} {number parent : Nat}
  {step : Step} {checkpoint : Checkpoint}

/-! ## Forms of the history -/

theorem hasSeen_iff :
    search.hasSeen form = true ↔
      ∃ number < search.history.size, search.history.form number = form := by
  simp only [hasSeen, List.any_eq_true, decide_eq_true_eq]
  constructor
  · intro hseen
    rcases hseen with ⟨entry, hmem, hform⟩
    rcases List.mem_iff_getElem?.mp hmem with ⟨number, hentry⟩
    exact ⟨number, History.lt_size_of_entry hentry,
      (History.form_of_entry hentry).trans hform⟩
  · intro hseen
    rcases hseen with ⟨number, hlt, hform⟩
    rcases History.exists_entry hlt with ⟨entry, hentry⟩
    exact ⟨entry, List.mem_of_getElem? hentry,
      (History.form_of_entry hentry).symm.trans hform⟩

/-- The search after a new form. -/
def grow (search : Search) (guard : Guard) (parent : Nat) (next : Form)
    (step : Step) : Search :=
  { search with
    guard := guard
    history := search.history.addChild parent next step
    queue := search.queue ++ [search.history.size] }

/-- The search that a new form ends. -/
def found (search : Search) (guard : Guard) (parent : Nat) (next : Form)
    (step : Step) : Search :=
  { search with
    guard := guard
    history := search.history.addChild parent next step
    status := .accepted search.history.size }

def stop (search : Search) (guard : Guard) : Search :=
  { search with guard := guard, status := .abandoned }

theorem hasSeen_grow (search : Search) (guard : Guard) (parent : Nat)
    (next : Form) (step : Step) (form : Form) :
    (search.grow guard parent next step).hasSeen form =
      (search.hasSeen form || decide (next = form)) := by
  simp [hasSeen, grow, History.addChild]

theorem size_grow (search : Search) (guard : Guard) (parent : Nat)
    (next : Form) (step : Step) :
    (search.grow guard parent next step).history.size =
      search.history.size + 1 :=
  History.size_addChild _ _ _ _

theorem form_grow_of_lt (hlt : number < search.history.size) (guard : Guard)
    (parent : Nat) (next : Form) (step : Step) :
    (search.grow guard parent next step).history.form number =
      search.history.form number :=
  History.form_addChild_of_lt hlt

theorem form_grow_size (search : Search) (guard : Guard) (parent : Nat)
    (next : Form) (step : Step) :
    (search.grow guard parent next step).history.form search.history.size =
      next :=
  History.form_addChild_size

theorem depth_grow_of_lt (hlt : number < search.history.size) (guard : Guard)
    (parent : Nat) (next : Form) (step : Step) :
    (search.grow guard parent next step).history.depth number =
      search.history.depth number :=
  History.depth_addChild_of_lt hlt

theorem depth_grow_size (search : Search) (guard : Guard) (parent : Nat)
    (next : Form) (step : Step) :
    (search.grow guard parent next step).history.depth search.history.size =
      search.history.depth parent + 1 :=
  History.depth_addChild_size

/-! ## The steps from a form -/

/-- The step leads from the form to a new one that may lead to the target. -/
structure Makes (search : Search) (form : Form) (step : Step) (next : Form) :
    Prop where
  rewrite_eq : Form.rewrite? form step = some next
  viable : search.plan.isViable next = true
  new : search.hasSeen next = false

section

variable {steps : List Step} {guard : Guard}

theorem expand_skip (hnot : ∀ next, ¬ search.Makes form step next) :
    search.expand checkpoint parent form (step :: steps) =
      search.expand checkpoint parent form steps := by
  rw [expand]
  split
  next => rfl
  next next hrewrite =>
    split
    next => rfl
    next hskip =>
      simp only [Bool.or_eq_true, Bool.not_eq_true', not_or,
        Bool.not_eq_false, Bool.not_eq_true] at hskip
      exact absurd ⟨hrewrite, hskip.1, hskip.2⟩ (hnot next)

variable (hmakes : search.Makes form step next)

include hmakes

/-- The guard decides what becomes of a form that is made. -/
theorem expand_makes :
    search.expand checkpoint parent form (step :: steps) =
      if (search.guard.advance checkpoint).1 then
        if next = search.plan.target then
          search.found (search.guard.advance checkpoint).2 parent next step
        else
          (search.grow (search.guard.advance checkpoint).2 parent next
            step).expand checkpoint parent form steps
      else search.stop (search.guard.advance checkpoint).2 := by
  simp [expand, hmakes.rewrite_eq, hmakes.viable, hmakes.new, grow, found,
    Search.stop]

theorem expand_grow (hne : next ≠ search.plan.target)
    (hadvance : search.guard.advance checkpoint = (true, guard)) :
    search.expand checkpoint parent form (step :: steps) =
      (search.grow guard parent next step).expand checkpoint parent form
        steps := by
  rw [expand_makes hmakes, hadvance, if_pos rfl, if_neg hne]

end

/-- What holds while a form is expanded, after the steps that were tried, and
what holds when the search ends meanwhile. -/
structure ExpansionRule (checkpoint : Checkpoint) (parent : Nat) (form : Form)
    (steps : List Step) (going : List Step → Search → Prop)
    (ended : Search → Prop) : Prop where
  skip : ∀ (search : Search) tried step, step ∈ steps → going tried search →
    (∀ next, ¬ search.Makes form step next) → going (tried ++ [step]) search
  stop : ∀ (search : Search) tried guard, going tried search →
    search.guard.advance checkpoint = (false, guard) →
      ended (search.stop guard)
  found : ∀ (search : Search) tried step guard, step ∈ steps →
    going tried search → search.Makes form step search.plan.target →
    search.guard.advance checkpoint = (true, guard) →
      ended (search.found guard parent search.plan.target step)
  grow : ∀ (search : Search) tried step next guard, step ∈ steps →
    going tried search → search.Makes form step next →
    next ≠ search.plan.target →
    search.guard.advance checkpoint = (true, guard) →
      going (tried ++ [step]) (search.grow guard parent next step)

variable {steps more tried : List Step} {going : List Step → Search → Prop}
  {ended : Search → Prop}

theorem ExpansionRule.mono
    (hrule : ExpansionRule checkpoint parent form steps going ended)
    (hsub : ∀ step ∈ more, step ∈ steps) :
    ExpansionRule checkpoint parent form more going ended := by
  constructor
  · intro search tried step hstep
    exact hrule.skip search tried step (hsub step hstep)
  · exact hrule.stop
  · intro search tried step guard hstep
    exact hrule.found search tried step guard (hsub step hstep)
  · intro search tried step next guard hstep
    exact hrule.grow search tried step next guard (hsub step hstep)

theorem ExpansionRule.expand
    (hrule : ExpansionRule checkpoint parent form steps going ended)
    (hsearch : going tried search) :
    ended (search.expand checkpoint parent form steps) ∨
      going (tried ++ steps) (search.expand checkpoint parent form steps) := by
  induction steps generalizing search tried with
  | nil =>
      rw [List.append_nil]
      exact .inr hsearch
  | cons step steps ih =>
      have hmem : step ∈ step :: steps := List.mem_cons_self
      have hrest := hrule.mono fun other hother =>
        List.mem_cons_of_mem step hother
      rw [List.append_cons]
      by_cases hexists : ∃ next, search.Makes form step next
      · obtain ⟨next, hmakes⟩ := hexists
        rw [expand_makes hmakes]
        cases hadvance : search.guard.advance checkpoint with
        | mk leave guard =>
            cases leave with
            | false =>
                exact .inl (hrule.stop search tried guard hsearch hadvance)
            | true =>
                simp only [if_true]
                split
                next htarget =>
                  rw [htarget] at hmakes ⊢
                  exact .inl (hrule.found search tried step guard hmem
                    hsearch hmakes hadvance)
                next hne =>
                  exact ih hrest (hrule.grow search tried step next guard
                    hmem hsearch hmakes hne hadvance)
      · have hnot := not_exists.mp hexists
        rw [expand_skip hnot]
        exact ih hrest (hrule.skip search tried step hmem hsearch hnot)

theorem ExpansionRule.expand_all
    (hrule : ExpansionRule checkpoint parent form steps going ended)
    (hsearch : going [] search) :
    ended (search.expand checkpoint parent form steps) ∨
      going steps (search.expand checkpoint parent form steps) := by
  have hexpanded := hrule.expand hsearch
  rwa [List.nil_append] at hexpanded

/-- What stays true when a form is added, whatever becomes of the search, is
true after an expansion. -/
theorem expand_keeps {motive : Search → Prop}
    (hstop : ∀ (search : Search) guard, motive search →
      search.guard.advance checkpoint = (false, guard) →
        motive (search.stop guard))
    (hadd : ∀ (search : Search) step next guard, step ∈ steps →
      motive search → search.Makes form step next →
      search.guard.advance checkpoint = (true, guard) →
        motive (search.grow guard parent next step) ∧
          motive (search.found guard parent next step))
    (hsearch : motive search) :
    motive (search.expand checkpoint parent form steps) := by
  have hrule : ExpansionRule checkpoint parent form steps
      (fun _ => motive) motive := by
    constructor
    · intro search _ _ _ hsearch _
      exact hsearch
    · intro search _ guard hsearch hadvance
      exact hstop search guard hsearch hadvance
    · intro search _ step guard hstep hsearch hmakes hadvance
      exact (hadd search step _ guard hstep hsearch hmakes hadvance).2
    · intro search _ step next guard hstep hsearch hmakes _ hadvance
      exact (hadd search step next guard hstep hsearch hmakes hadvance).1
  rcases hrule.expand_all hsearch with hended | hgoing
  · exact hended
  · exact hgoing

/-! ## The steps of a search -/

theorem status_eq_searching (hstatus : ¬ search.status.isFinal = true) :
    search.status = .searching := by
  cases hsome : search.status with
  | searching => rfl
  | accepted number => simp [hsome, SearchStatus.isFinal] at hstatus
  | rejected => simp [hsome, SearchStatus.isFinal] at hstatus
  | abandoned => simp [hsome, SearchStatus.isFinal] at hstatus

/-- What a step makes of a search. -/
inductive Stepped (checkpoint : Checkpoint) (search : Search) :
    Search → Prop where
  | ended (hfinal : search.status.isFinal = true) :
      Stepped checkpoint search search
  | cancelled (hgoing : search.status = .searching)
      (hcancelled : search.guard.cancelled = true) :
      Stepped checkpoint search (search.stop search.guard)
  | exhausted (hgoing : search.status = .searching)
      (hfree : search.guard.cancelled = false) (hqueue : search.queue = []) :
      Stepped checkpoint search { search with status := .rejected }
  | expanded (hgoing : search.status = .searching)
      (hfree : search.guard.cancelled = false) {number : Nat}
      {queue : List Nat} (hqueue : search.queue = number :: queue) :
      Stepped checkpoint search
        ({ search with queue := queue }.expand checkpoint number
          (search.history.form number)
          (search.plan.options (search.history.form number)))

theorem stepped (checkpoint : Checkpoint) (search : Search) :
    Stepped checkpoint search (search.step checkpoint) := by
  unfold Search.step
  split
  next hfinal => exact .ended hfinal
  next hstatus =>
    have hgoing := status_eq_searching hstatus
    split
    next hcancelled => exact .cancelled hgoing hcancelled
    next hfree =>
      rw [Bool.not_eq_true] at hfree
      split
      next hqueue => exact .exhausted hgoing hfree hqueue
      next hqueue => exact .expanded hgoing hfree hqueue

end FormalGrammars.Search
