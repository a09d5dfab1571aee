import FormalGrammars.Proofs.Search.Termination

/-!
# The search goes level by level

A form is one level below the form that it was made from.  The queue is first
in, first out, so the forms are expanded in the order of their numbers, and
the new ones are one level below the form that is being expanded, which is as
deep as any form is by then.

A plan offers enough steps to follow every derivation of the target, if not in
its own order then in one with as many steps, and what it leaves out cannot
lead to the target.  So a target within the levels that are expanded would have
been found before, and the derivation that is found has as few steps as any.
-/

namespace FormalGrammars

/-! ## Levels of a history -/

namespace History

variable {g : Grammar} {start : Symbol} {h : History} {number parent : Nat}

/-- Every form but the root is one level below its parent, and no level comes
before a higher one. -/
structure ByLevel (h : History) : Prop where
  depth_made : ∀ number parent step,
    (h.entry? number).bind Entry.origin = some ⟨parent, step⟩ →
      parent < number ∧ h.depth number = h.depth parent + 1
  depth_mono : ∀ i j, i ≤ j → j < h.size → h.depth i ≤ h.depth j

theorem byLevel_ofRoot (form : Form) : (ofRoot form).ByLevel := by
  constructor
  · intro number parent step horigin
    rw [origin_ofRoot] at horigin
    cases horigin
  · intro i j hij hj
    have hzero : j = 0 := Nat.lt_one_iff.mp hj
    have hsame : i = j := by omega
    exact Nat.le_of_eq (congrArg (ofRoot form).depth hsame)

/-- A form below one that is as deep as any. -/
theorem ByLevel.addChild (hlevels : h.ByLevel) (hparent : parent < h.size)
    (hdeepest : ∀ i < h.size, h.depth i ≤ h.depth parent + 1) (next : Form)
    (step : Step) : (h.addChild parent next step).ByLevel := by
  have hbelow : (h.addChild parent next step).depth h.size =
      (h.addChild parent next step).depth parent + 1 := by
    rw [depth_addChild_size, depth_addChild_of_lt hparent]
  constructor
  · intro number source made horigin
    rcases origin_addChild horigin with ⟨hold, hbefore⟩ | ⟨hnew, hsource, _⟩
    · rcases hlevels.depth_made number source made hbefore with ⟨hlt, hdepth⟩
      rw [depth_addChild_of_lt hold,
        depth_addChild_of_lt (Nat.lt_trans hlt hold)]
      exact ⟨hlt, hdepth⟩
    · rw [hnew, hsource]
      exact ⟨hparent, hbelow⟩
  · intro i j hij hj
    rw [size_addChild] at hj
    by_cases hold : j < h.size
    · rw [depth_addChild_of_lt hold, depth_addChild_of_lt (by omega)]
      exact hlevels.depth_mono i j hij hold
    · have hlast : j = h.size := by omega
      by_cases hi : i < h.size
      · rw [hlast, hbelow, depth_addChild_of_lt hi,
          depth_addChild_of_lt hparent]
        exact hdeepest i hi
      · have hsame : i = j := by omega
        exact Nat.le_of_eq
          (congrArg (h.addChild parent next step).depth hsame)

/-- The level of a form is the number of the steps to it. -/
theorem ByLevel.length_stepsTo (hlevels : h.ByLevel)
    (hrecords : h.Records g start) (hlt : number < h.size) :
    (h.stepsTo number).length = h.depth number := by
  apply hrecords.induct (motive := fun number =>
    (h.stepsTo number).length = h.depth number) ?_ ?_ _ hlt
  · rw [stepsTo_of_root hrecords.root rfl, depth, hrecords.root]
    rfl
  · intro number parent step horigin _ _ hsteps hparent
    rw [hsteps, List.length_append, List.length_singleton, hparent,
      (hlevels.depth_made number parent step horigin).2]

end History

/-! ## Levels of a search -/

namespace Search

variable {g : Grammar} {start : Symbol} {target form next : Form}
  {search first : Search} {number i j : Nat} {steps tried : List Step}

/-- The form that the step leads to, if that is viable, is in the history and
at most one level deeper. -/
def Near (search : Search) (number : Nat) (step : Step) : Prop :=
  ∀ next, Form.rewrite? (search.history.form number) step = some next →
    search.plan.isViable next = true →
      ∃ j < search.history.size, search.history.form j = next ∧
        search.history.depth j ≤ search.history.depth number + 1

/-- The forms before this number are expanded, and no form is more than one
level deeper than the one that has it. -/
structure Front (number : Nat) (search : Search) : Prop where
  byLevel : search.history.ByLevel
  deepest : number < search.history.size → ∀ i < search.history.size,
    search.history.depth i ≤ search.history.depth number + 1
  near : ∀ i < number, ∀ step ∈ search.plan.options (search.history.form i),
    search.Near i step

theorem Near.grow {step : Step} (hlt : number < search.history.size)
    (hnear : search.Near number step) (guard : Guard) (parent : Nat)
    (next : Form) (added : Step) :
    (search.grow guard parent next added).Near number step := by
  intro result hrewrite hviable
  rw [form_grow_of_lt hlt] at hrewrite
  rcases hnear result hrewrite hviable with ⟨j, hj, hform, hdepth⟩
  refine ⟨j, ?_, ?_, ?_⟩
  · rw [size_grow]
    exact Nat.lt_succ_of_lt hj
  · rw [form_grow_of_lt hj]
    exact hform
  · rw [depth_grow_of_lt hj, depth_grow_of_lt hlt]
    exact hdepth

theorem Front.grow (hfront : search.Front number)
    (hlt : number < search.history.size) (guard : Guard) (next : Form)
    (step : Step) : (search.grow guard number next step).Front number := by
  have hdeepest := hfront.deepest hlt
  constructor
  · exact hfront.byLevel.addChild hlt hdeepest next step
  · intro _ i hi
    rw [size_grow] at hi
    by_cases hold : i < search.history.size
    · rw [depth_grow_of_lt hold, depth_grow_of_lt hlt]
      exact hdeepest i hold
    · have hlast : i = search.history.size := by omega
      rw [hlast, depth_grow_of_lt hlt]
      exact Nat.le_of_eq (depth_grow_size search guard number next step)
  · intro i hi other hother
    have hold : i < search.history.size := Nat.lt_trans hi hlt
    rw [form_grow_of_lt hold] at hother
    exact (hfront.near i hi other hother).grow hold guard number next step

/-- A form that leads to the target with no more steps than there are levels
above the front would have led to it before. -/
theorem Front.hasSeen_target (hg : g.Consistent)
    (hlhs : ∀ p ∈ g.productions, p.lhs ≠ [])
    (hplan : search.plan = .ofGrammar g target)
    (htarget : Form.isTerminal target = true)
    (hfront : search.Front number) {count : Nat} (hi : i < search.history.size)
    (hderives : g.DerivesIn count (search.history.form i) target)
    (hle : search.history.depth i + count ≤ search.history.depth number) :
    search.hasSeen target = true := by
  induction count generalizing i with
  | zero =>
      generalize hform : search.history.form i = form at hderives
      cases hderives
      exact hasSeen_iff.mpr ⟨i, hi, hform⟩
  | succ count ih =>
      have hexpanded : i < number := by
        by_contra hge
        have hmono := hfront.byLevel.depth_mono number i (by omega) hi
        omega
      rcases SearchPlan.exists_option hg hlhs htarget hderives with
        ⟨step, hstep, next, hrewrite, hviable, hrest⟩
      rw [← hplan] at hstep hviable
      rcases hfront.near i hexpanded step hstep next hrewrite hviable with
        ⟨j, hj, hform, hdepth⟩
      rw [← hform] at hrest
      exact ih hj hrest (by omega)

/-! ## A form is expanded -/

/-- The form at the front is expanded, and behind it all forms wait. -/
structure Advancing (g : Grammar) (start : Symbol) (target : Form)
    (number : Nat) (form : Form) (tried : List Step) (search : Search) :
    Prop where
  expanding : search.Expanding g start target number form tried
  front : search.Front number
  queue_eq : search.queue =
    List.range' (number + 1) (search.history.size - (number + 1))

/-- The search has ended, and a derivation that it found is a shortest one. -/
structure Shortest (g : Grammar) (start : Symbol) (target : Form)
    (search : Search) : Prop where
  isFinal : search.status.isFinal = true
  byLevel : search.history.ByLevel
  le_of_accepted : ∀ number, search.status = .accepted number →
    ∀ count, g.DerivesIn count [start] target →
      search.history.depth number ≤ count

theorem Advancing.found (hg : g.Consistent)
    (hlhs : ∀ p ∈ g.productions, p.lhs ≠ [])
    (hsearch : search.Advancing g start target number form tried)
    (guard : Guard) (next : Form) (step : Step) :
    (search.found guard number next step).Shortest g start target := by
  have hlt := hsearch.expanding.parent_lt
  have hgoes := hsearch.expanding.goesOn
  have hroot := hgoes.records.root
  constructor
  · rfl
  · exact hsearch.front.byLevel.addChild hlt (hsearch.front.deepest hlt) next
      step
  · intro other hother count hderives
    cases hother
    change (search.history.addChild number next step).depth
      search.history.size ≤ count
    rw [History.depth_addChild_size]
    -- a shorter derivation would stay above the front
    by_contra hshorter
    have hdepth : search.history.depth 0 = 0 := by
      rw [History.depth, hroot]
      rfl
    have hform : search.history.form 0 = [start] := History.form_of_entry hroot
    rw [← hform] at hderives
    have hseen := hsearch.front.hasSeen_target hg hlhs hgoes.plan_eq
      hgoes.target_isTerminal (History.lt_size_of_entry hroot) hderives
      (by omega)
    rw [hgoes.absent] at hseen
    cases hseen

theorem Advancing.rule (hg : g.Consistent)
    (hlhs : ∀ p ∈ g.productions, p.lhs ≠ [])
    (hmem : ∀ step ∈ steps, step.production ∈ g.productions)
    (checkpoint : Checkpoint) :
    ExpansionRule checkpoint number form steps
      (Advancing g start target number form) (Shortest g start target) := by
  have hrule : ExpansionRule checkpoint number form steps
      (Expanding g start target number form) (Ended g start target) :=
    Expanding.rule hmem checkpoint
  constructor
  · intro search tried step hstep hsearch hnot
    exact ⟨hrule.skip search tried step hstep hsearch.expanding hnot,
      hsearch.front, hsearch.queue_eq⟩
  · intro search tried guard hsearch _
    exact ⟨rfl, hsearch.front.byLevel, by simp [Search.stop]⟩
  · intro search tried step guard _ hsearch _ _
    exact hsearch.found hg hlhs guard _ step
  · intro search tried step next guard hstep hsearch hmakes hne hadvance
    have hlt := hsearch.expanding.parent_lt
    refine ⟨hrule.grow search tried step next guard hstep hsearch.expanding
      hmakes hne hadvance, hsearch.front.grow hlt guard next step, ?_⟩
    -- the new number is the next one behind the queue
    have hcount : search.history.size + 1 - (number + 1) =
        search.history.size - (number + 1) + 1 := by omega
    rw [size_grow, hcount, List.range'_concat, ← hsearch.queue_eq]
    change search.queue ++ [search.history.size] = _
    congr 2
    omega

/-- With all steps tried the front moves on. -/
theorem Advancing.front_succ
    (hsearch : search.Advancing g start target number form tried)
    (htried : tried = (SearchPlan.ofGrammar g target).options form) :
    search.Front (number + 1) := by
  have hlt := hsearch.expanding.parent_lt
  have hdeepest := hsearch.front.deepest hlt
  have hplan := hsearch.expanding.goesOn.plan_eq
  constructor
  · exact hsearch.front.byLevel
  · intro hnext i hi
    have hmono := hsearch.front.byLevel.depth_mono number (number + 1)
      (by omega) hnext
    have hle := hdeepest i hi
    omega
  · intro i hi step hstep
    by_cases hold : i < number
    · exact hsearch.front.near i hold step hstep
    · have hlast : i = number := by omega
      rw [hlast] at hstep ⊢
      rw [hsearch.expanding.form_eq, hplan, ← htried] at hstep
      intro next hrewrite hviable
      have hseen := hsearch.expanding.tried step hstep next hrewrite hviable
      rcases hasSeen_iff.mp hseen with ⟨j, hj, hform⟩
      exact ⟨j, hj, hform, hdeepest j hj⟩

/-! ## Steps -/

/-- Between the steps all forms from the front on wait, in order. -/
structure Waiting (g : Grammar) (start : Symbol) (target : Form)
    (number : Nat) (search : Search) : Prop where
  goesOn : search.GoesOn g start target []
  front : search.Front number
  queue_eq : search.queue =
    List.range' number (search.history.size - number)

def Leveled (g : Grammar) (start : Symbol) (target : Form) (search : Search) :
    Prop :=
  (∃ number, search.Waiting g start target number) ∨
    search.Shortest g start target

theorem Leveled.byLevel (hsearch : search.Leveled g start target) :
    search.history.ByLevel := by
  rcases hsearch with ⟨number, hwaiting⟩ | hshortest
  · exact hwaiting.front.byLevel
  · exact hshortest.byLevel

theorem Leveled.depth_le (hsearch : search.Leveled g start target)
    (haccepted : search.status = .accepted number) {count : Nat}
    (hderives : g.DerivesIn count [start] target) :
    search.history.depth number ≤ count := by
  rcases hsearch with ⟨other, hwaiting⟩ | hshortest
  · rw [hwaiting.goesOn.status_eq] at haccepted
    cases haccepted
  · exact hshortest.le_of_accepted number haccepted count hderives

/-- The oldest form that waits is the one at the front. -/
theorem Waiting.take {queue : List Nat}
    (hwaiting : search.Waiting g start target number)
    (hqueue : search.queue = i :: queue) :
    Advancing g start target i (search.history.form i) []
      { search with queue := queue } := by
  have hrange := hwaiting.queue_eq
  rw [hqueue] at hrange
  have hpos : 0 < search.history.size - number := by
    by_contra hzero
    have hnone : search.history.size - number = 0 := by omega
    rw [hnone] at hrange
    cases hrange
  have hcount : search.history.size - number =
      search.history.size - (number + 1) + 1 := by omega
  rw [hcount, List.range'_succ, List.cons.injEq] at hrange
  refine ⟨hwaiting.goesOn.take hqueue, ?_, ?_⟩
  · rw [hrange.1]
    exact ⟨hwaiting.front.byLevel, hwaiting.front.deepest,
      hwaiting.front.near⟩
  · rw [hrange.1]
    exact hrange.2

theorem Waiting.expanded (hg : g.Consistent)
    (hlhs : ∀ p ∈ g.productions, p.lhs ≠ []) {queue : List Nat}
    (hwaiting : search.Waiting g start target number)
    (hqueue : search.queue = i :: queue) (checkpoint : Checkpoint) :
    Leveled g start target
      ({ search with queue := queue }.expand checkpoint i
        (search.history.form i)
        (search.plan.options (search.history.form i))) := by
  have hplan := hwaiting.goesOn.plan_eq
  have hmem : ∀ step ∈ search.plan.options (search.history.form i),
      step.production ∈ g.productions := by
    intro step hstep
    rw [hplan] at hstep
    exact SearchPlan.production_mem_of_mem_options hstep
  rcases (Advancing.rule hg hlhs hmem checkpoint).expand_all
    (hwaiting.take hqueue) with hended | hadvanced
  · exact .inr hended
  · left
    have hall : search.plan.options (search.history.form i) =
        (SearchPlan.ofGrammar g target).options (search.history.form i) := by
      rw [hplan]
    exact ⟨i + 1, hadvanced.expanding.done hall, hadvanced.front_succ hall,
      hadvanced.queue_eq⟩

theorem Leveled.step (hg : g.Consistent)
    (hlhs : ∀ p ∈ g.productions, p.lhs ≠ [])
    (hsearch : search.Leveled g start target) (checkpoint : Checkpoint) :
    (search.step checkpoint).Leveled g start target := by
  have hlevels := hsearch.byLevel
  have hstepped := stepped checkpoint search
  generalize search.step checkpoint = last at hstepped
  cases hstepped with
  | ended => exact hsearch
  | cancelled => exact .inr ⟨rfl, hlevels, by simp [Search.stop]⟩
  | exhausted => exact .inr ⟨rfl, hlevels, by simp⟩
  | expanded hgoing _ hqueue =>
      rcases hsearch with ⟨number, hwaiting⟩ | hshortest
      · exact hwaiting.expanded hg hlhs hqueue checkpoint
      · have hfinal := hshortest.isFinal
        rw [hgoing] at hfinal
        cases hfinal

theorem leveled_start {schedule : Schedule}
    (hfirst : Search.start g target schedule = .ok first)
    (hsound : first.Sound g start target) :
    first.Leveled g start target := by
  rcases exists_root_of_start hfirst with ⟨root, hhistory, hqueue, _, hstatus⟩
  have hlevels : first.history.ByLevel := by
    rw [hhistory]
    exact History.byLevel_ofRoot [root]
  rcases hsound with hgoes | hended
  · refine .inl ⟨0, hgoes, ⟨hlevels, ?_, ?_⟩, ?_⟩
    · intro _ i hi
      have hmono := hlevels.depth_mono 0 i (Nat.zero_le i) hi
      rw [hhistory] at hi ⊢
      have hzero : i = 0 := Nat.lt_one_iff.mp hi
      rw [hzero]
      exact Nat.le_succ _
    · intro i hi
      exact absurd hi (Nat.not_lt_zero i)
    · rw [hqueue, hhistory]
      rfl
  · exact .inr ⟨hended.isFinal, hlevels,
      fun number haccepted => absurd haccepted (hstatus number)⟩

end Search

end FormalGrammars
