import FormalGrammars.Proofs.Search.Lockstep
import FormalGrammars.Proofs.Search.Overflow
import Mathlib.Data.List.Nodup
import Mathlib.Data.List.Perm.Subperm
import Mathlib.Data.List.TakeWhile

/-!
# Searches that end

When no production makes a form shorter, a viable form is no longer than the
target: its shortest yield has at least one terminal for each of its symbols,
and without leftmost steps the length itself is tested.  There are only so many
forms of such a length, and none enters the history twice.  Every step takes a
form out of the queue and puts those into it that it adds to the history, so
the queue runs empty.

The shortest yields may overflow, though.  A variable whose strings are all too
long can then have the length zero, and a search that it keeps growing forms
for has no end.
-/

namespace FormalGrammars

/-- The forms of at most this length over an alphabet. -/
def Form.upTo (alphabet : List Symbol) : Nat → List Form
  | 0 => [[]]
  | length + 1 =>
    [] :: alphabet.flatMap fun s => (Form.upTo alphabet length).map (s :: ·)

namespace Search

variable {g : Grammar} {start : Symbol} {target next : Form} {plan : SearchPlan}
  {search first : Search} {count parent : Nat} {checkpoint : Checkpoint}

/-! ## No form twice -/

/-- The forms of the history are distinct, and all but the root are viable. -/
structure Selective (plan : SearchPlan) (search : Search) : Prop where
  plan_eq : search.plan = plan
  distinct : (search.history.entries.map History.Entry.form).Nodup
  viable : ∀ number < search.history.size, number ≠ 0 →
    plan.isViable (search.history.form number) = true

theorem Selective.withStatus (hsearch : search.Selective plan) (guard : Guard)
    (queue : List Nat) (status : SearchStatus) :
    Selective plan
      { search with guard := guard, queue := queue, status := status } :=
  ⟨hsearch.plan_eq, hsearch.distinct, hsearch.viable⟩

theorem Selective.grow (hsearch : search.Selective plan)
    (hviable : plan.isViable next = true)
    (hnew : search.hasSeen next = false) (guard : Guard) (parent : Nat)
    (step : Step) : (search.grow guard parent next step).Selective plan := by
  refine ⟨hsearch.plan_eq, ?_, ?_⟩
  · have habsent : next ∉ search.history.entries.map History.Entry.form := by
      intro hmem
      obtain ⟨entry, hentry, hform⟩ := List.mem_map.mp hmem
      have hseen : search.hasSeen next = true :=
        List.any_eq_true.mpr ⟨entry, hentry, decide_eq_true hform⟩
      rw [hnew] at hseen
      cases hseen
    simp only [Search.grow, History.addChild, List.map_append, List.map_cons,
      List.map_nil]
    exact List.nodup_append.mpr ⟨hsearch.distinct, List.nodup_singleton _,
      fun form hform other hother heq =>
        habsent (List.mem_singleton.mp hother ▸ heq ▸ hform)⟩
  · intro number hlt hne
    rw [size_grow] at hlt
    rcases Nat.lt_succ_iff_lt_or_eq.mp hlt with hold | rfl
    · rw [form_grow_of_lt hold]
      exact hsearch.viable number hold hne
    · rw [form_grow_size]
      exact hviable

theorem Selective.expand (hsearch : search.Selective plan)
    (checkpoint : Checkpoint) (parent : Nat) (form : Form)
    (steps : List Step) :
    (search.expand checkpoint parent form steps).Selective plan := by
  refine expand_keeps (motive := Selective plan) ?_ ?_ hsearch
  · intro later guard hlater _
    exact hlater.withStatus guard later.queue .abandoned
  · intro later step next guard _ hlater hmakes _
    have hviable := hmakes.viable
    rw [hlater.plan_eq] at hviable
    have hgrown := hlater.grow hviable hmakes.new guard parent step
    exact ⟨hgrown, hgrown.withStatus guard later.queue
      (.accepted later.history.size)⟩

theorem Selective.step (hsearch : search.Selective plan)
    (checkpoint : Checkpoint) :
    (search.step checkpoint).Selective plan := by
  have hstepped := stepped checkpoint search
  generalize search.step checkpoint = last at hstepped
  cases hstepped with
  | ended => exact hsearch
  | cancelled => exact hsearch.withStatus search.guard search.queue .abandoned
  | exhausted => exact hsearch.withStatus search.guard search.queue .rejected
  | @expanded _ _ number queue hqueue =>
      exact (hsearch.withStatus search.guard queue search.status).expand _ _ _ _

/-- While the search goes on, every form of the history waits or was taken out
of the queue by one of so many steps. -/
def Accounted (count : Nat) (search : Search) : Prop :=
  search.status = .searching →
    search.queue.length + count = search.history.size

/-- An expansion that does not end the search puts the forms that it adds into
the queue too. -/
theorem balance_expand {form : Form} {steps : List Step}
    (hgoing : (search.expand checkpoint parent form steps).status =
      .searching) :
    (search.expand checkpoint parent form steps).queue.length +
        search.history.size =
      search.queue.length +
        (search.expand checkpoint parent form steps).history.size := by
  have hrule : ExpansionRule checkpoint parent form steps
      (fun _ later => later.queue.length + search.history.size =
        search.queue.length + later.history.size)
      (fun later => later.status ≠ .searching) := by
    constructor
    · intro later _ _ _ hlater _
      exact hlater
    · intro later _ guard _ _
      simp [Search.stop]
    · intro later _ step guard _ _ _ _
      simp [Search.found]
    · intro later _ step next guard _ hlater _ _ _
      rw [size_grow, Search.grow, List.length_append, List.length_singleton]
      omega
  rcases hrule.expand_all rfl with hended | hbalance
  · exact absurd hgoing hended
  · exact hbalance

theorem Accounted.expand
    (hsearch : search.queue.length + count = search.history.size)
    (checkpoint : Checkpoint) (parent : Nat) (form : Form)
    (steps : List Step) :
    (search.expand checkpoint parent form steps).Accounted count := by
  intro hgoing
  have hbalance := balance_expand hgoing
  omega

theorem Accounted.step (hsearch : search.Accounted count)
    (checkpoint : Checkpoint) :
    (search.step checkpoint).Accounted (count + 1) := by
  have hstepped := stepped checkpoint search
  generalize search.step checkpoint = last at hstepped
  cases hstepped with
  | ended hfinal =>
      intro hstatus
      rw [hstatus] at hfinal
      cases hfinal
  | cancelled =>
      intro hstatus
      cases hstatus
  | exhausted =>
      intro hstatus
      cases hstatus
  | @expanded hgoing _ number queue hqueue =>
      have hcount := hsearch hgoing
      rw [hqueue, List.length_cons] at hcount
      refine Accounted.expand ?_ checkpoint number _ _
      simp only
      omega

theorem Accounted.stepTimes (hfirst : first.Accounted 0)
    (checkpoint : Checkpoint) (count : Nat) :
    Accounted count (stepTimes (Search.step checkpoint) count first) := by
  induction count with
  | zero => exact hfirst
  | succ count ih =>
      rw [stepTimes_succ_eq_step]
      exact ih.step checkpoint

theorem exists_start_fresh (hstart : g.start = some start) (target : Form)
    (schedule : Schedule) :
    ∃ first, Search.start g target schedule = .ok first ∧
      first.Selective (.ofGrammar g target) ∧ first.Accounted 0 ∧
      first.Unhindered := by
  unfold Search.start
  rw [Grammar.requireStart_eq_ok_iff.mpr hstart]
  refine ⟨_, rfl, ⟨rfl, List.nodup_singleton _, ?_⟩, fun _ => rfl, rfl, ?_⟩
  · intro number hlt hne
    exact absurd (Nat.lt_one_iff.mp hlt) hne
  · simp only
    split <;> simp

/-- `S → SP | a`, and `A` for sixteen `b`, `B` for sixteen `A` and so on up to
`P`.  The sixteen lengths in the right side of `P` add up to one more than the
greatest number. -/
def powersOfSixteen : Grammar :=
  let letters := ["A", "B", "C", "D", "E", "F", "G", "H", "I", "J", "K", "L",
    "M", "N", "O", "P"]
  Grammar.withProductions { start := some (.var "S") }
    (.rule (.var "S") [.var "S", .var "P"] :: .rule (.var "S") [.term "a"] ::
      List.zipWith (fun s below => .rule s (List.replicate 16 below))
        (letters.map .var) (.term "b" :: letters.map .var))

/-- `S` with so many `P` behind it. -/
def pile (height : Nat) : Form :=
  .var "S" :: List.replicate height (.var "P")

/-- All forms up to `pile height` are in the history, and that is the only one
to be expanded. -/
structure Piled (height : Nat) (search : Search) : Prop where
  plan_eq : search.plan = .ofGrammar powersOfSixteen [.term "b"]
  status_eq : search.status = .searching
  not_cancelled : search.guard.cancelled = false
  queue_eq : search.queue = [height]
  size_eq : search.history.size = height + 1
  form_eq : ∀ number < search.history.size,
    search.history.form number = pile number

theorem yields_powersOfSixteen :
    let yields := (SearchPlan.ofGrammar powersOfSixteen [.term "b"]).yields
    OrderedMap.get? yields (.var "S") = some 1 ∧
      OrderedMap.get? yields (.var "P") = some 0 := by
  decide +kernel

theorem leftmost_powersOfSixteen :
    (SearchPlan.ofGrammar powersOfSixteen [.term "b"]).leftmost = true := by
  decide +kernel

theorem options_pile (height : Nat) :
    (SearchPlan.ofGrammar powersOfSixteen [.term "b"]).options (pile height) =
      [⟨.rule (.var "S") [.var "S", .var "P"], 0⟩,
        ⟨.rule (.var "S") [.term "a"], 0⟩] := by
  have hproductions : (powersOfSixteen.productions.filter fun p =>
      p.head? = some (.var "S")) =
        [.rule (.var "S") [.var "S", .var "P"],
          .rule (.var "S") [.term "a"]] := by decide +kernel
  have hfirst : (pile height).findIdx? Symbol.isVar = some 0 := by
    simp [pile, List.findIdx?_cons, Symbol.isVar]
  rw [SearchPlan.options, if_pos leftmost_powersOfSixteen,
    Grammar.leftmostOptions, hfirst]
  exact congrArg (List.map fun p => (⟨p, 0⟩ : Step)) hproductions

theorem fits_pile (height : Nat) :
    (SearchPlan.ofGrammar powersOfSixteen [.term "b"]).yields.fits
      (SearchPlan.countingFor [.term "b"]) 1 0 (pile height) = true := by
  obtain ⟨hs, hp⟩ := yields_powersOfSixteen
  have hrest : (SearchPlan.ofGrammar powersOfSixteen [.term "b"]).yields.fits
      (SearchPlan.countingFor [.term "b"]) 1 1
        (List.replicate height (.var "P")) = true := by
    induction height with
    | zero => rfl
    | succ height ih =>
        rw [List.replicate_succ, Yields.fits, Yields.ofSymbol?_of_isVar rfl, hp]
        exact ih
  rw [pile, Yields.fits, Yields.ofSymbol?_of_isVar rfl, hs]
  exact hrest

/-- No terminal of a pile disagrees with the target, as there is none. -/
theorem agreesAtEnds_pile (height : Nat) :
    (SearchPlan.ofGrammar powersOfSixteen [.term "b"]).agreesAtEnds
      (pile height) = true := by
  have hvariables : ∀ s ∈ pile height, ¬ s.isTerm = true := by
    intro s hmem
    rcases List.mem_cons.mp hmem with rfl | hmem
    · decide
    · rw [List.eq_of_mem_replicate hmem]
      decide
  have hfront : (pile height).takeWhile Symbol.isTerm = [] :=
    List.takeWhile_eq_nil_iff.mpr fun _ => hvariables _ (List.getElem_mem _)
  have hback : (pile height).reverse.takeWhile Symbol.isTerm = [] :=
    List.takeWhile_eq_nil_iff.mpr fun _ =>
      hvariables _ (List.mem_reverse.mp (List.getElem_mem _))
  rw [SearchPlan.agreesAtEnds, hfront, hback, if_neg]
  · rfl
  · simp [pile, Symbol.isTerm]

/-- The length of `P` is zero, so no pile is too long. -/
theorem isViable_pile (height : Nat) :
    (SearchPlan.ofGrammar powersOfSixteen [.term "b"]).isViable (pile height) =
      true := by
  rw [SearchPlan.isViable, if_pos leftmost_powersOfSixteen,
    agreesAtEnds_pile, Bool.and_true]
  exact fits_pile height

/-- The target does not begin with `a`. -/
theorem isViable_ended (height : Nat) :
    (SearchPlan.ofGrammar powersOfSixteen [.term "b"]).isViable
      (.term "a" :: List.replicate height (.var "P")) = false := by
  have hends : (SearchPlan.ofGrammar powersOfSixteen [.term "b"]).agreesAtEnds
      (.term "a" :: List.replicate height (.var "P")) = false := by
    cases height with
    | zero => decide +kernel
    | succ height =>
        rw [SearchPlan.agreesAtEnds, if_neg (by simp [List.replicate_succ,
          Symbol.isTerm])]
        rfl
  rw [SearchPlan.isViable, if_pos leftmost_powersOfSixteen, hends,
    Bool.and_false]

/-- The next pile is higher than all forms of the history. -/
theorem Piled.makes {height : Nat} (hsearch : search.Piled height)
    (queue : List Nat) :
    Makes { search with queue := queue } (pile height)
      ⟨.rule (.var "S") [.var "S", .var "P"], 0⟩ (pile (height + 1)) := by
  refine ⟨rfl, hsearch.plan_eq ▸ isViable_pile (height + 1), ?_⟩
  rw [← Bool.not_eq_true, hasSeen_iff]
  rintro ⟨number, hlt, hsame⟩
  have hpile := (hsearch.form_eq number hlt).symm.trans hsame
  have hlength := congrArg List.length hpile
  have hsize : number < height + 1 := hsearch.size_eq ▸ hlt
  simp only [pile, List.length_cons, List.length_replicate] at hlength
  omega

theorem not_makes_ended {height : Nat} {later : Search}
    (hplan : later.plan = .ofGrammar powersOfSixteen [.term "b"]) :
    ¬ later.Makes (pile height) ⟨.rule (.var "S") [.term "a"], 0⟩ next := by
  intro hmakes
  have hviable := hmakes.viable
  cases hmakes.rewrite_eq
  rw [hplan] at hviable
  exact absurd hviable (Bool.eq_false_iff.mp (isViable_ended height))

theorem Piled.grow {height : Nat} {guard : Guard}
    (hsearch : search.Piled height) (hstill : guard.cancelled = false)
    (step : Step) :
    (Search.grow { search with queue := [] } guard height (pile (height + 1))
      step).Piled (height + 1) := by
  refine ⟨hsearch.plan_eq, hsearch.status_eq, hstill, ?_, ?_, ?_⟩
  · simp [Search.grow, hsearch.size_eq]
  · rw [size_grow, hsearch.size_eq]
  · intro number hlt
    rw [size_grow] at hlt
    rcases Nat.lt_succ_iff_lt_or_eq.mp hlt with hold | rfl
    · rw [form_grow_of_lt hold]
      exact hsearch.form_eq number hold
    · exact (form_grow_size _ _ _ _ _).trans
        (congrArg pile hsearch.size_eq.symm)

/-- Every step puts one more `P` on the pile. -/
theorem Piled.step {height : Nat} (hsearch : search.Piled height) :
    (search.step .always).Piled (height + 1) := by
  have hne : pile (height + 1) ≠ search.plan.target := by
    rw [hsearch.plan_eq]
    simp [pile, SearchPlan.ofGrammar]
  have hstepped := stepped .always search
  generalize search.step .always = last at hstepped
  cases hstepped with
  | ended hfinal =>
      rw [hsearch.status_eq] at hfinal
      cases hfinal
  | cancelled _ hcancelled =>
      rw [hsearch.not_cancelled] at hcancelled
      cases hcancelled
  | exhausted _ _ hempty =>
      rw [hsearch.queue_eq] at hempty
      cases hempty
  | expanded _ _ hnext =>
      cases hsearch.queue_eq.symm.trans hnext
      obtain ⟨hleave, hstill⟩ := Guard.advance_always hsearch.not_cancelled
      have hoptions := hsearch.plan_eq ▸ options_pile height
      have hlt : height < search.history.size :=
        hsearch.size_eq ▸ Nat.lt_succ_self height
      have hgrown := hsearch.grow hstill
        ⟨.rule (.var "S") [.var "S", .var "P"], 0⟩
      rw [hsearch.form_eq height hlt, hoptions,
        expand_grow (hsearch.makes []) hne (Prod.ext hleave rfl),
        expand_skip fun _ => not_makes_ended hgrown.plan_eq, expand]
      exact hgrown

end Search

end FormalGrammars
