import FormalGrammars.Search.BreadthFirst
import FormalGrammars.Proofs.Reordering
import FormalGrammars.Proofs.Search.BoundedYield

/-!
# Forms that lead to the target are viable

A form from which the target can be derived passes all the tests of a plan: its
shortest yield is no longer than the target, the terminals at its ends are
those of the target, and where no production makes a form shorter it is not
longer than the target.  The steps of a plan are enough to come to the target,
as every derivation in a context-free grammar can be made leftmost.  So a set
of forms with the start that is closed under the steps to viable forms has the
target, if that is in the language.
-/

namespace FormalGrammars

variable {g : Grammar} {start : Symbol} {target : Form}

namespace Grammar

/-! ## Ends of a form -/

theorem Yields.of_isTerminal {before form result : Form}
    (hbefore : Form.isTerminal before = true)
    (hyields : g.Yields (before ++ form) result) :
    ∃ tail, result = before ++ tail ∧ g.Yields form tail := by
  induction before generalizing result with
  | nil => exact ⟨result, rfl, hyields⟩
  | cons s before ih =>
      obtain ⟨hs, hbefore⟩ := isTerminal_cons.mp hbefore
      obtain ⟨rest, rfl, hrest⟩ := hyields.of_isTerm hs
      obtain ⟨tail, rfl, htail⟩ := ih hbefore hrest
      exact ⟨tail, rfl, htail⟩

theorem Yields.of_append_isTerminal {form after result : Form}
    (hafter : Form.isTerminal after = true)
    (hyields : g.Yields (form ++ after) result) :
    ∃ front, result = front ++ after ∧ g.Yields form front := by
  obtain ⟨front, back, rfl, hfront, hback⟩ := hyields.exists_append
  rw [← List.append_nil after] at hback
  obtain ⟨tail, rfl, htail⟩ := hback.of_isTerminal hafter
  rw [htail.eq_nil, List.append_nil]
  exact ⟨front, rfl, hfront⟩

theorem Yields.takeWhile_prefix {form word : Form}
    (hyields : g.Yields form word) :
    form.takeWhile Symbol.isTerm <+: word := by
  rw [← List.takeWhile_append_dropWhile (p := Symbol.isTerm) (l := form)]
    at hyields
  obtain ⟨tail, rfl, _⟩ := hyields.of_isTerminal List.all_takeWhile
  exact List.prefix_append _ _

theorem Yields.takeWhile_reverse_prefix {form word : Form}
    (hyields : g.Yields form word) :
    form.reverse.takeWhile Symbol.isTerm <+: word.reverse := by
  have hform : form = (form.reverse.dropWhile Symbol.isTerm).reverse ++
      (form.reverse.takeWhile Symbol.isTerm).reverse := by
    rw [← List.reverse_append, List.takeWhile_append_dropWhile,
      List.reverse_reverse]
  have hterm : Form.isTerminal
      (form.reverse.takeWhile Symbol.isTerm).reverse = true := by
    rw [Form.isTerminal, List.all_reverse]
    exact List.all_takeWhile
  rw [hform] at hyields
  obtain ⟨front, rfl, _⟩ := hyields.of_append_isTerminal hterm
  rw [List.reverse_append, List.reverse_reverse]
  exact List.prefix_append _ _

/-! ## Lengths -/

theorem DerivesIn.length_le {count : Nat} {first last : Form}
    (hmonotone : ∀ p ∈ g.productions, p.lhs.length ≤ p.rhs.length)
    (hderives : g.DerivesIn count first last) :
    first.length ≤ last.length := by
  induction hderives with
  | refl form => exact Nat.le_refl _
  | head hstep _ ih =>
      obtain ⟨p, before, after, hmem⟩ := hstep
      have hle := hmonotone p hmem
      simp only [List.length_append] at ih ⊢
      omega

/-! ## Symbols -/

theorem DerivesIn.mem {count : Nat} {first last : Form}
    (hderives : g.DerivesIn count first last) {s : Symbol} (hs : s ∈ last) :
    s ∈ first ∨ ∃ p ∈ g.productions, s ∈ p.rhs := by
  induction hderives with
  | refl form => exact .inl hs
  | head hstep _ ih =>
      obtain ⟨p, before, after, hmem⟩ := hstep
      rcases ih hs with hsecond | hrhs
      · simp only [List.mem_append] at hsecond ⊢
        rcases hsecond with (hbefore | hrhs) | hafter
        · exact .inl (.inl (.inl hbefore))
        · exact .inr ⟨p, hmem, hrhs⟩
        · exact .inl (.inr hafter)
      · exact .inr hrhs

theorem Consistent.mem_terminals_of_language (hg : g.Consistent)
    (hlanguage : g.Language target) {s : Symbol} (hs : s ∈ target) :
    s ∈ g.terminals := by
  obtain ⟨hterminal, start, hstart, count, hderives⟩ := hlanguage
  have hterm := List.all_eq_true.mp hterminal s hs
  rcases hderives.mem hs with hroot | ⟨p, hp, hrhs⟩
  · rw [List.mem_singleton.mp hroot] at hterm
    exact absurd (hg.start_isVar start hstart)
      (Symbol.not_isVar_of_isTerm hterm)
  · exact hg.mem_terminals_of_mem_rhs hp hrhs hterm

/-! ## Options -/

theorem mem_options {step : Step} {form : Form} :
    step ∈ g.options form ↔
      step.position < form.length ∧ step.production ∈ g.productions ∧
        step.production.lhs <+: form.drop step.position := by
  simp only [options, List.mem_flatMap, List.mem_range, List.mem_map,
    List.mem_filter, List.isPrefixOf_iff_prefix]
  constructor
  · rintro ⟨position, hlt, p, ⟨hp, hprefix⟩, rfl⟩
    exact ⟨hlt, hp, hprefix⟩
  · rintro ⟨hlt, hp, hprefix⟩
    exact ⟨_, hlt, _, ⟨hp, hprefix⟩, rfl⟩

theorem findIdx?_isVar {before : Form} {s : Symbol}
    (hbefore : Form.isTerminal before = true) (hvar : s.isVar = true)
    (after : Form) :
    (before ++ s :: after).findIdx? Symbol.isVar = some before.length := by
  have hnone : before.findIdx? Symbol.isVar = none := by
    rw [List.findIdx?_eq_none_iff]
    intro t ht
    have hterm := List.all_eq_true.mp hbefore t ht
    simpa [Symbol.isTerm_eq_not_isVar] using hterm
  rw [List.findIdx?_append, hnone, List.findIdx?_cons, hvar]
  simp

theorem mem_leftmostOptions {before after : Form} {s : Symbol} {p : Production}
    (hbefore : Form.isTerminal before = true) (hmem : p ∈ g.productions)
    (hhead : p.head? = some s) :
    ⟨p, before.length⟩ ∈ g.leftmostOptions (before ++ s :: after) := by
  unfold leftmostOptions
  rw [findIdx?_isVar hbefore (isVar_of_head? hhead)]
  refine List.mem_map.mpr ⟨p, List.mem_filter.mpr ⟨hmem, ?_⟩, rfl⟩
  simp [hhead]

theorem production_mem_of_mem_leftmostOptions {step : Step} {form : Form}
    (hstep : step ∈ g.leftmostOptions form) :
    step.production ∈ g.productions := by
  unfold leftmostOptions at hstep
  split at hstep
  next => simp at hstep
  next position _ =>
    obtain ⟨p, hp, rfl⟩ := List.mem_map.mp hstep
    exact (List.mem_filter.mp hp).1

end Grammar

namespace SearchPlan

/-! ## Viable forms -/

theorem ofGrammar_leftmost_iff :
    (ofGrammar g target).leftmost = true ↔ g.ContextFree := by
  simp [ofGrammar, Grammar.ContextFree]

theorem yields_ofGrammar (hfree : g.ContextFree) :
    (ofGrammar g target).yields = g.shortestYields (countingFor target) :=
  if_pos (List.all_eq_true.mpr hfree)

theorem production_mem_of_mem_options {step : Step} {form : Form}
    (hstep : step ∈ (ofGrammar g target).options form) :
    step.production ∈ g.productions := by
  unfold options at hstep
  split at hstep
  next => exact Grammar.production_mem_of_mem_leftmostOptions hstep
  next => exact (Grammar.mem_options.mp hstep).2.1

theorem agreesAtEnds_of_yields {form : Form} (hyields : g.Yields form target) :
    (ofGrammar g target).agreesAtEnds form = true := by
  unfold agreesAtEnds
  split
  next hterm =>
    rw [← List.append_nil form] at hyields
    obtain ⟨tail, htarget, htail⟩ := hyields.of_isTerminal hterm
    rw [htail.eq_nil, List.append_nil] at htarget
    exact decide_eq_true htarget.symm
  next =>
    rw [Bool.and_eq_true, List.isPrefixOf_iff_prefix,
      List.isPrefixOf_iff_prefix]
    exact ⟨hyields.takeWhile_prefix, hyields.takeWhile_reverse_prefix⟩

theorem isViable_of_yields (hg : g.Consistent) (hfree : g.ContextFree)
    (htarget : Form.isTerminal target = true) {form : Form}
    (hyields : g.Yields form target) :
    (ofGrammar g target).isViable form = true := by
  unfold isViable
  rw [if_pos (ofGrammar_leftmost_iff.mpr hfree), agreesAtEnds_of_yields hyields,
    Bool.and_true, yields_ofGrammar hfree]
  exact Yields.fits_of_yields hg hyields htarget
    (Nat.le_max_right maxCount (target.length + 1))

theorem isViable_of_derivesIn (hfree : ¬ g.ContextFree) {count : Nat}
    {form : Form} (hderives : g.DerivesIn count form target) :
    (ofGrammar g target).isViable form = true := by
  unfold isViable
  rw [if_neg (by rwa [ofGrammar_leftmost_iff]), Bool.or_eq_true]
  by_cases hmonotone : (ofGrammar g target).monotone = true
  · right
    refine decide_eq_true (hderives.length_le fun p hp => ?_)
    exact of_decide_eq_true (List.all_eq_true.mp hmonotone p hp)
  · left
    simpa using hmonotone

/-! ## Steps that are offered -/

/-- The first step of a derivation of the target is offered, or one that can
be taken first instead. -/
theorem exists_option (hg : g.Consistent)
    (hlhs : ∀ p ∈ g.productions, p.lhs ≠ [])
    (htarget : Form.isTerminal target = true) {count : Nat} {form : Form}
    (hderives : g.DerivesIn (count + 1) form target) :
    ∃ step ∈ (ofGrammar g target).options form, ∃ next,
      Form.rewrite? form step = some next ∧
        (ofGrammar g target).isViable next = true ∧
        g.DerivesIn count next target := by
  by_cases hfree : g.ContextFree
  · rcases hderives.exists_leftmost hfree htarget with
      ⟨before, s, after, hform, hbefore, p, hp, hhead, hrest⟩
    have hoption : ⟨p, before.length⟩ ∈ (ofGrammar g target).options form := by
      unfold options
      rw [if_pos (ofGrammar_leftmost_iff.mpr hfree), hform]
      exact Grammar.mem_leftmostOptions hbefore hp hhead
    have hrewrite : Form.rewrite? form ⟨p, before.length⟩ =
        some (before ++ p.rhs ++ after) := by
      rw [hform]
      exact Form.rewrite?_eq_some_iff.mpr ⟨before, after, rfl,
        by simp [(Production.head?_eq_some_iff.mp hhead).1], rfl⟩
    exact ⟨_, hoption, _, hrewrite,
      isViable_of_yields hg hfree htarget (hrest.yields hfree), hrest⟩
  · cases hderives with
    | head hstep hrest =>
        cases hstep with
        | intro p before after hp =>
            have hoption : ⟨p, before.length⟩ ∈ (ofGrammar g target).options
                (before ++ p.lhs ++ after) := by
              unfold options
              rw [if_neg (by rwa [ofGrammar_leftmost_iff])]
              have hpos := List.length_pos_iff.mpr (hlhs p hp)
              refine Grammar.mem_options.mpr ⟨?_, hp, ?_⟩
              · simp only [List.length_append]
                omega
              · rw [List.append_assoc, List.drop_left]
                exact List.prefix_append _ _
            have hrewrite : Form.rewrite? (before ++ p.lhs ++ after)
                ⟨p, before.length⟩ = some (before ++ p.rhs ++ after) :=
              Form.rewrite?_eq_some_iff.mpr ⟨before, after, rfl, rfl, rfl⟩
            exact ⟨_, hoption, _, hrewrite, isViable_of_derivesIn hfree hrest,
              hrest⟩

/-! ## Closed sets of forms -/

/-- The steps that the plan offers lead from the forms to no other viable
ones. -/
def Closed (plan : SearchPlan) (reached : Form → Prop) : Prop :=
  ∀ form, reached form → ∀ step ∈ plan.options form, ∀ next,
    Form.rewrite? form step = some next → plan.isViable next = true →
    reached next

variable {reached : Form → Prop}

theorem Closed.reaches_derived (hg : g.Consistent)
    (hlhs : ∀ p ∈ g.productions, p.lhs ≠ [])
    (htarget : Form.isTerminal target = true)
    (hclosed : (ofGrammar g target).Closed reached) {count : Nat} {form : Form}
    (hderives : g.DerivesIn count form target) (hform : reached form) :
    reached target := by
  induction count generalizing form with
  | zero =>
      cases hderives
      exact hform
  | succ count ih =>
      rcases exists_option hg hlhs htarget hderives with
        ⟨step, hstep, next, hrewrite, hviable, hrest⟩
      exact ih hrest (hclosed form hform step hstep next hrewrite hviable)

/-- A closed set with the start has the target, if that is in the language. -/
theorem Closed.reaches_target (hg : g.Consistent)
    (hlhs : ∀ p ∈ g.productions, p.lhs ≠ []) (hstart : g.start = some start)
    (hclosed : (ofGrammar g target).Closed reached) (hroot : reached [start])
    (hlanguage : g.Language target) : reached target := by
  rcases hlanguage with ⟨htarget, s, hs, count, hderives⟩
  rw [hstart, Option.some.injEq] at hs
  rw [← hs] at hderives
  exact hclosed.reaches_derived hg hlhs htarget hderives hroot

end SearchPlan

end FormalGrammars
