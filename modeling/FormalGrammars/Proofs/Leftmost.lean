import FormalGrammars.Proofs.Predictive.Derivation
import FormalGrammars.Proofs.Search.Decision

/-!
# Leftmost derivations

A derivation that always rewrites the leftmost variable is told by its
productions alone.  A walk through a tree in preorder is such a derivation as
long as the frontier is terminal, and so are the ways to the forms of a search
in a context-free grammar, because the plan offers no other steps.
-/

namespace FormalGrammars

variable {g : Grammar} {start : Symbol} {target form next : Form}

/-! ## Trees -/

namespace Tree

/-- The productions of a tree rewrite its root leftmost, where only terminals
stand before it. -/
def RewritesLeftmost (g : Grammar) (tree : Tree) : Prop :=
  tree.ValidFor g → ∀ (offset : Nat) (before after : Form),
    Form.isTerminal (before ++ tree.frontier) = true →
    Form.rewriteAllLeftmost? (before ++ tree.root :: after)
        ((tree.stepsFrom offset).map Step.production) =
      some (before ++ tree.frontier ++ after)

theorem rewritesLeftmost_forest {trees : List Tree}
    (htrees : ∀ tree ∈ trees, RewritesLeftmost g tree)
    (hvalid : AllValidFor g trees) (offset : Nat) (before after : Form)
    (hterminal : Form.isTerminal (before ++ frontierOfAll trees) = true) :
    Form.rewriteAllLeftmost? (before ++ trees.map root ++ after)
        ((stepsOfAllFrom offset trees).map Step.production) =
      some (before ++ frontierOfAll trees ++ after) := by
  induction trees generalizing offset before with
  | nil => rfl
  | cons tree trees ih =>
      rw [frontierOfAll, ← List.append_assoc] at hterminal
      have hfirst := htrees tree List.mem_cons_self hvalid.1 offset before
        (trees.map root ++ after) (Grammar.isTerminal_append.mp hterminal).1
      have hrest := ih
        (fun other hother => htrees other (List.mem_cons_of_mem tree hother))
        hvalid.2 (offset + tree.frontier.length) (before ++ tree.frontier)
        hterminal
      rw [List.append_assoc] at hrest
      unfold Form.rewriteAllLeftmost? at hfirst hrest ⊢
      rw [stepsOfAllFrom, List.map_append, List.foldlM_append, List.map_cons,
        List.append_assoc, List.cons_append, hfirst]
      simp only [Option.bind_eq_bind, Option.bind_some]
      rw [hrest, frontierOfAll]
      simp only [List.append_assoc]

theorem rewritesLeftmost (tree : Tree) : RewritesLeftmost g tree := by
  induction tree using Tree.induction with
  | leaf s =>
      intro _ offset before after _
      simp [stepsFrom, root, frontier, Form.rewriteAllLeftmost?]
  | node s p children ih =>
      rintro ⟨_, hhead, hroots, hchildren⟩ offset before after hterminal
      have hbelow := rewritesLeftmost_forest ih hchildren offset before after
        hterminal
      have hbefore := (Grammar.isTerminal_append.mp hterminal).1
      rw [hroots] at hbelow
      unfold Form.rewriteAllLeftmost? at hbelow ⊢
      rw [stepsFrom, List.map_cons, List.foldlM_cons, root,
        Form.rewriteLeftmost?_append hbefore hhead]
      exact hbelow

theorem mem_productions_forest {trees : List Tree}
    (htrees : ∀ tree ∈ trees, tree.ValidFor g → ∀ offset,
      ∀ step ∈ tree.stepsFrom offset, step.production ∈ g.productions)
    (hvalid : AllValidFor g trees) (offset : Nat) :
    ∀ step ∈ stepsOfAllFrom offset trees, step.production ∈ g.productions := by
  induction trees generalizing offset with
  | nil => simp [stepsOfAllFrom]
  | cons tree trees ih =>
      intro step hstep
      rcases List.mem_append.mp hstep with hfirst | hrest
      · exact htrees tree List.mem_cons_self hvalid.1 offset step hfirst
      · exact ih
          (fun other hother => htrees other (List.mem_cons_of_mem tree hother))
          hvalid.2 _ step hrest

theorem ValidFor.mem_productions {tree : Tree} (hvalid : tree.ValidFor g)
    (offset : Nat) :
    ∀ step ∈ tree.stepsFrom offset, step.production ∈ g.productions := by
  induction tree using Tree.induction generalizing offset with
  | leaf s => simp [stepsFrom]
  | node s p children ih =>
      obtain ⟨hmem, _, _, hchildren⟩ := hvalid
      intro step hstep
      rcases List.mem_cons.mp hstep with rfl | hbelow
      · exact hmem
      · exact mem_productions_forest
          (fun child hchild hvalid offset => ih child hchild hvalid offset)
          hchildren offset step hbelow

theorem CompleteFor.mem_productions {tree : Tree} {word : Form}
    (htree : tree.CompleteFor g word) :
    ∀ p ∈ tree.productions, p ∈ g.productions := by
  intro p hp
  obtain ⟨step, hstep, rfl⟩ := List.mem_map.mp hp
  exact htree.valid.mem_productions 0 step hstep

/-- The productions of a complete tree are a leftmost derivation. -/
theorem CompleteFor.rewriteAllLeftmost?_productions {tree : Tree} {word : Form}
    (htree : tree.CompleteFor g word) :
    Form.rewriteAllLeftmost? [tree.root] tree.productions = some word := by
  have hterminal : Form.isTerminal ([] ++ tree.frontier) = true := by
    rw [List.nil_append, htree.frontier_eq]
    exact htree.terminal
  have hrewrites := rewritesLeftmost tree htree.valid 0 [] [] hterminal
  rw [List.append_nil, List.nil_append, htree.frontier_eq] at hrewrites
  exact hrewrites

end Tree

/-! ## Steps at the leftmost variable -/

theorem Grammar.exists_of_mem_leftmostOptions {step : Step}
    (hstep : step ∈ g.leftmostOptions form) :
    ∃ before s after, form = before ++ s :: after ∧
      Form.isTerminal before = true ∧ before.length = step.position ∧
      step.production.head? = some s := by
  unfold leftmostOptions at hstep
  split at hstep
  next => simp at hstep
  next position hposition =>
    obtain ⟨p, hp, rfl⟩ := List.mem_map.mp hstep
    obtain ⟨hlt, _, hbefore⟩ :=
      List.findIdx?_eq_some_iff_getElem.mp hposition
    have hhead : p.head? = form[position]? :=
      of_decide_eq_true (List.mem_filter.mp hp).2
    rw [List.getElem?_eq_getElem hlt] at hhead
    refine ⟨form.take position, form[position], form.drop (position + 1), ?_,
      ?_, by simp [Nat.le_of_lt hlt], hhead⟩
    · rw [← List.drop_eq_getElem_cons hlt, List.take_append_drop]
    · refine List.all_eq_true.mpr fun s hs => ?_
      obtain ⟨number, hnumber, rfl⟩ := List.mem_take_iff_getElem.mp hs
      have hvar := hbefore number (by omega)
      rw [Symbol.isTerm_eq_not_isVar]
      simpa using hvar

theorem Form.rewriteLeftmost?_of_mem_leftmostOptions {step : Step}
    (hstep : step ∈ g.leftmostOptions form)
    (hrewrite : Form.rewrite? form step = some next) :
    Form.rewriteLeftmost? form step.production = some next := by
  obtain ⟨before, s, after, rfl, hbefore, hlength, hhead⟩ :=
    Grammar.exists_of_mem_leftmostOptions hstep
  obtain ⟨front, back, hfront, hform, rfl⟩ :=
    Form.rewrite?_eq_some_iff.mp hrewrite
  rw [(Production.head?_eq_some_iff.mp hhead).1, List.append_assoc] at hform
  obtain ⟨rfl, hrest⟩ := List.append_inj hform (hlength.trans hfront.symm)
  cases hrest
  exact Form.rewriteLeftmost?_append hbefore hhead

/-! ## Searches -/

/-- Every form but the root was made by a step that the plan offers. -/
def History.Follows (plan : SearchPlan) (h : History) : Prop :=
  ∀ number parent step,
    (h.entry? number).bind History.Entry.origin = some ⟨parent, step⟩ →
    parent < number ∧ step ∈ plan.options (h.form parent)

namespace History

variable {plan : SearchPlan} {h : History} {parent : Nat} {step : Step}

theorem follows_ofRoot (plan : SearchPlan) (form : Form) :
    (ofRoot form).Follows plan := by
  intro number parent step horigin
  rw [origin_ofRoot] at horigin
  cases horigin

theorem Follows.addChild (hfollows : h.Follows plan) (hparent : parent < h.size)
    (hstep : step ∈ plan.options (h.form parent)) (next : Form) :
    (h.addChild parent next step).Follows plan := by
  intro number source made horigin
  rcases origin_addChild horigin with ⟨hold, hbefore⟩ | ⟨hnew, hsource, hmade⟩
  · rcases hfollows number source made hbefore with ⟨hless, hoffered⟩
    rw [form_addChild_of_lt (Nat.lt_trans hless hold)]
    exact ⟨hless, hoffered⟩
  · rw [hnew, hsource, hmade, form_addChild_of_lt hparent]
    exact ⟨hparent, hstep⟩

/-- The steps to a form are a leftmost derivation of it. -/
theorem Follows.rewriteAllLeftmost?_stepsTo (hrecords : h.Records g start)
    (hfree : g.ContextFree)
    (hfollows : h.Follows (.ofGrammar g target)) {number : Nat}
    (hlt : number < h.size) :
    Form.rewriteAllLeftmost? [start]
        ((h.stepsTo number).map Step.production) =
      some (h.form number) := by
  apply hrecords.induct (motive := fun number =>
    Form.rewriteAllLeftmost? [start]
        ((h.stepsTo number).map Step.production) =
      some (h.form number)) ?_ ?_ _ hlt
  · rw [stepsTo_of_root hrecords.root rfl, form_of_entry hrecords.root]
    rfl
  · intro number parent step horigin _ hrewrite hsteps hparent
    have hoption := (hfollows number parent step horigin).2
    unfold SearchPlan.options at hoption
    rw [if_pos (SearchPlan.ofGrammar_leftmost_iff.mpr hfree)] at hoption
    rw [hsteps, List.map_append, List.map_cons, List.map_nil,
      Form.rewriteAllLeftmost?_concat hparent]
    exact Form.rewriteLeftmost?_of_mem_leftmostOptions hoption hrewrite

end History

theorem Grammar.ContextFree.lhs_ne_nil (hfree : g.ContextFree) :
    ∀ p ∈ g.productions, p.lhs ≠ [] := by
  intro p hp hempty
  have hhead := hfree p hp
  simp [Production.hasHead, Production.head?, hempty,
    Form.soleVariable?] at hhead

namespace Search

variable {plan : SearchPlan} {search : Search} {parent : Nat}

/-- The history follows the plan, and the form that is expanded is in it. -/
structure FollowsFrom (plan : SearchPlan) (parent : Nat) (form : Form)
    (search : Search) : Prop where
  follows : search.history.Follows plan
  parent_lt : parent < search.history.size
  form_eq : search.history.form parent = form

theorem FollowsFrom.grow (hsearch : search.FollowsFrom plan parent form)
    {step : Step} (hstep : step ∈ plan.options form) (guard : Guard)
    (next : Form) :
    (search.grow guard parent next step).FollowsFrom plan parent form := by
  have hlt := hsearch.parent_lt
  rw [← hsearch.form_eq] at hstep
  constructor
  · exact hsearch.follows.addChild hlt hstep next
  · rw [size_grow]
    exact Nat.lt_succ_of_lt hlt
  · rw [form_grow_of_lt hlt]
    exact hsearch.form_eq

theorem FollowsFrom.expand (hsearch : search.FollowsFrom plan parent form)
    {steps : List Step} (hsteps : ∀ step ∈ steps, step ∈ plan.options form)
    (checkpoint : Checkpoint) :
    (search.expand checkpoint parent form steps).FollowsFrom plan parent
      form := by
  refine expand_keeps (motive := FollowsFrom plan parent form) ?_ ?_ hsearch
  · intro later guard hlater _
    exact ⟨hlater.follows, hlater.parent_lt, hlater.form_eq⟩
  · intro later step next guard hmem hlater _ _
    have hgrown := hlater.grow (hsteps step hmem) guard next
    exact ⟨hgrown, hgrown.follows, hgrown.parent_lt, hgrown.form_eq⟩

theorem Sound.follows_step (hsearch : search.Sound g start target)
    (hfollows : search.history.Follows (.ofGrammar g target))
    (checkpoint : Checkpoint) :
    (search.step checkpoint).history.Follows (.ofGrammar g target) := by
  have hstepped := stepped checkpoint search
  generalize search.step checkpoint = last at hstepped
  cases hstepped with
  | ended => exact hfollows
  | cancelled => exact hfollows
  | exhausted => exact hfollows
  | @expanded hgoing _ number queue hqueue =>
      rcases hsearch with hgoes | hended
      · have hlt := hgoes.waiting_lt number (by simp [hqueue])
        have htaken : FollowsFrom (.ofGrammar g target) number
            (search.history.form number) { search with queue := queue } :=
          ⟨hfollows, hlt, rfl⟩
        exact (htaken.expand (fun step hstep => hgoes.plan_eq ▸ hstep)
          checkpoint).follows
      · have hfinal := hended.isFinal
        rw [hgoing] at hfinal
        cases hfinal

theorem follows_start {schedule : Schedule}
    (hstart : Search.start g target schedule = .ok search) :
    search.history.Follows plan := by
  obtain ⟨start, hhistory, _⟩ := exists_root_of_start hstart
  exact hhistory ▸ History.follows_ofRoot plan [start]

theorem sound_and_follows (hg : g.Consistent) (hfree : g.ContextFree)
    (hstart : g.start = some start) (hsound : search.Sound g start target)
    (hfollows : search.history.Follows (.ofGrammar g target))
    (checkpoint : Checkpoint) (count : Nat) :
    let last := stepTimes (Search.step checkpoint) count search
    last.Sound g start target ∧
      last.history.Follows (.ofGrammar g target) := by
  refine stepTimes_induct (motive := fun search : Search =>
    search.Sound g start target ∧
      search.history.Follows (.ofGrammar g target)) ?_ count ⟨hsound, hfollows⟩
  rintro other ⟨hother, hmade⟩
  have hnext : Reached other (other.step checkpoint) := .step checkpoint .now
  exact ⟨hnext.sound hg hfree.lhs_ne_nil hstart hother,
    hother.follows_step hmade checkpoint⟩

end Search

end FormalGrammars
