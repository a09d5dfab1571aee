import FormalGrammars.Derivation.Tree
import FormalGrammars.Iteration
import FormalGrammars.Proofs.History
import FormalGrammars.Proofs.Replay
import FormalGrammars.Proofs.Search.Viability

/-!
# Walking through a tree

A walk through a tree keeps the subtrees that it has not visited yet on a stack,
with the next one on top, and the leaves that it has passed.  An expanded node
makes a step at the number of these leaves.  No form is kept, but at every
moment there is one: the passed leaves, and behind them the roots of the pending
subtrees.  It is what the steps so far rewrite the root to, so the walk ends
with the leftmost derivation of the frontier.

The forms of this derivation, and the history with one branch that holds them,
follow the steps one by one.
-/

namespace FormalGrammars

/-! ## Forms along steps -/

/-- The form after all steps, if each of them fits. -/
def Form.rewriteAll? (form : Form) (steps : List Step) : Option Form :=
  steps.foldlM Form.rewrite? form

section

variable {form last : Form} {step : Step} {steps : List Step}

theorem Form.rewriteAll?_cons :
    Form.rewriteAll? form (step :: steps) =
      (Form.rewrite? form step).bind fun next => Form.rewriteAll? next steps :=
  List.foldlM_cons

theorem Form.rewriteAll?_concat
    (hlast : Form.rewriteAll? form steps = some last) :
    Form.rewriteAll? form (steps ++ [step]) = Form.rewrite? last step := by
  unfold rewriteAll? at hlast ⊢
  rw [List.foldlM_append, hlast]
  simp

/-- Each form is what the steps before it make. -/
theorem getElem?_formsAlong (hlast : Form.rewriteAll? form steps = some last)
    {number : Nat} (hle : number ≤ steps.length) :
    (formsAlong form steps)[number]? =
      Form.rewriteAll? form (steps.take number) := by
  induction steps generalizing form number with
  | nil =>
      rw [Nat.le_zero.mp hle]
      rfl
  | cons step steps ih =>
      rw [Form.rewriteAll?_cons, Option.bind_eq_some_iff] at hlast
      obtain ⟨next, hnext, hrest⟩ := hlast
      cases number with
      | zero => simp [formsAlong, Form.rewriteAll?]
      | succ number =>
          have hbelow := ih hrest (Nat.le_of_succ_le_succ hle)
          rw [List.take_succ_cons, Form.rewriteAll?_cons, hnext,
            Option.bind_some, ← hbelow]
          simp [formsAlong, hnext]

theorem length_formsAlong (hlast : Form.rewriteAll? form steps = some last) :
    (formsAlong form steps).length = steps.length + 1 := by
  induction steps generalizing form with
  | nil => rfl
  | cons step steps ih =>
      rw [Form.rewriteAll?_cons, Option.bind_eq_some_iff] at hlast
      obtain ⟨next, hnext, hrest⟩ := hlast
      simp [formsAlong, hnext, ih hrest]

theorem getLast?_formsAlong (hlast : Form.rewriteAll? form steps = some last) :
    (formsAlong form steps).getLast? = some last := by
  rw [List.getLast?_eq_getElem?, length_formsAlong hlast, Nat.add_sub_cancel,
    getElem?_formsAlong hlast (Nat.le_refl _), List.take_length, hlast]

/-- Each step makes the form behind it from the form before it. -/
theorem exists_forms_at (hlast : Form.rewriteAll? form steps = some last)
    {number : Nat} (hstep : steps[number]? = some step) :
    ∃ before after, (formsAlong form steps)[number]? = some before ∧
      (formsAlong form steps)[number + 1]? = some after ∧
      Form.rewriteAll? form (steps.take number) = some before ∧
      Form.rewrite? before step = some after := by
  obtain ⟨hlt, hget⟩ := List.getElem?_eq_some_iff.mp hstep
  have hforms := length_formsAlong hlast
  have hbefore := getElem?_formsAlong hlast (Nat.le_of_lt hlt)
  have hafter := getElem?_formsAlong hlast (Nat.succ_le_of_lt hlt)
  have hlong : number + 1 < (formsAlong form steps).length := by omega
  rw [List.getElem?_eq_getElem (Nat.lt_of_succ_lt hlong)] at hbefore
  rw [List.getElem?_eq_getElem hlong, List.take_succ_eq_append_getElem hlt, hget,
    Form.rewriteAll?_concat hbefore.symm] at hafter
  exact ⟨_, _, List.getElem?_eq_getElem _, List.getElem?_eq_getElem _,
    hbefore.symm, hafter.symm⟩

end

/-! ## One branch -/

namespace History

variable {h : History} {form last : Form} {forms : List Form}
  {steps taken : List Step}

/-- Each form but the last has one child, the next one, and the steps lead to
the last one. -/
structure Branch (h : History) (forms : List Form) (taken : List Step) :
    Prop where
  forms_eq : h.entries.map Entry.form = forms
  length_children : h.children.length = h.size
  childrenOf_eq : ∀ number, h.childrenOf number =
    if number + 1 < h.size then [number + 1] else []
  parent_eq : ∀ number < h.size, h.parent? number =
    if number = 0 then none else some (number - 1)
  depth_eq : ∀ number < h.size, h.depth number = number
  stepsTo_eq : h.stepsTo (h.size - 1) = taken

theorem branch_ofRoot (form : Form) : (ofRoot form).Branch [form] [] := by
  refine ⟨rfl, rfl, ?_, ?_, ?_, ?_⟩
  · intro number
    cases number with
    | zero => rfl
    | succ number => simp [childrenOf, ofRoot, size]
  · intro number hlt
    rw [Nat.lt_one_iff.mp hlt]
    rfl
  · intro number hlt
    rw [Nat.lt_one_iff.mp hlt]
    rfl
  · rw [stepsTo_eq, origin_ofRoot]

theorem Branch.size_eq (hbranch : h.Branch forms taken) :
    h.size = forms.length := by
  rw [← hbranch.forms_eq, List.length_map]
  rfl

theorem Branch.addChild (hbranch : h.Branch forms taken) (hpos : 0 < h.size)
    (next : Form) (step : Step) :
    (h.addChild (h.size - 1) next step).Branch (forms ++ [next])
      (taken ++ [step]) := by
  have hlast : h.size - 1 < h.size := Nat.sub_one_lt_of_lt hpos
  have hsize := size_addChild h (h.size - 1) next step
  have hgrows := GrowsTo.addChild h (h.size - 1) next step
  constructor
  · simp [History.addChild, ← hbranch.forms_eq]
  · rw [hsize]
    simp [History.addChild, hbranch.length_children]
  · intro number
    rw [childrenOf_addChild (hbranch.length_children ▸ hlast),
      hbranch.childrenOf_eq, hsize]
    rcases Nat.lt_trichotomy (number + 1) h.size with hlt | heq | hgt
    · have hne : number ≠ h.size - 1 := by omega
      rw [if_pos hlt, if_neg hne, if_pos (Nat.lt_succ_of_lt hlt),
        List.append_nil]
    · rw [if_neg (by omega), if_pos (by omega), if_pos (by omega), heq,
        List.nil_append]
    · rw [if_neg (by omega), if_neg (by omega), if_neg (by omega),
        List.append_nil]
  · intro number hlt
    rcases lt_or_eq_of_lt_addChild hlt with hold | rfl
    · rw [parent?_addChild_of_lt hold, hbranch.parent_eq number hold]
    · rw [parent?_addChild_size, if_neg (Nat.pos_iff_ne_zero.mp hpos)]
  · intro number hlt
    rcases lt_or_eq_of_lt_addChild hlt with hold | rfl
    · rw [hgrows.depth_eq hold, hbranch.depth_eq number hold]
    · rw [depth_addChild_size, hbranch.depth_eq _ hlast]
      omega
  · rw [hsize, Nat.add_sub_cancel,
      stepsTo_of_parent entry_addChild_size rfl hlast,
      hgrows.stepsTo_eq hlast, hbranch.stepsTo_eq]

/-- The steps lengthen the branch by the forms that they make. -/
theorem Branch.extendAlong (hbranch : h.Branch (forms ++ [form]) taken)
    (hlast : Form.rewriteAll? form steps = some last) :
    (h.extendAlong (h.size - 1) form steps).Branch
      (forms ++ formsAlong form steps) (taken ++ steps) := by
  induction steps generalizing h form forms taken with
  | nil =>
      rw [List.append_nil]
      exact hbranch
  | cons step steps ih =>
      rw [Form.rewriteAll?_cons, Option.bind_eq_some_iff] at hlast
      obtain ⟨next, hnext, hrest⟩ := hlast
      have hpos : 0 < h.size := by
        rw [hbranch.size_eq, List.length_append]
        exact Nat.succ_pos _
      have hlonger := ih (hbranch.addChild hpos next step) hrest
      rw [size_addChild, Nat.add_sub_cancel] at hlonger
      rw [History.extendAlong, formsAlong, hnext]
      simpa using hlonger

end History

/-! ## Walks -/

namespace Tree

/-- The subtrees that were not visited, the next one first, the leaves that were
passed, and the steps that were made. -/
structure Walk where
  pending : List Tree
  passed : Form
  steps : List Step

namespace Walk

def start (tree : Tree) : Walk := ⟨[tree], [], []⟩

/-- Passes a leaf, or puts the children of a node in its place. -/
def move (w : Walk) : Walk :=
  match w.pending with
  | [] => w
  | leaf s :: rest => ⟨rest, w.passed ++ [s], w.steps⟩
  | node _ p children :: rest =>
    ⟨children ++ rest, w.passed, w.steps ++ [⟨p, w.passed.length⟩]⟩

/-- The form that the walk does not keep. -/
def sentential (w : Walk) : Form :=
  w.passed ++ w.pending.map root

/-- A walk comes past the trees on top of the stack with their leaves and
steps. -/
theorem passes_forest {trees : List Tree}
    (htrees : ∀ tree ∈ trees, ∀ rest passed steps, ∃ count,
      stepTimes move count ⟨tree :: rest, passed, steps⟩ =
        ⟨rest, passed ++ tree.frontier,
          steps ++ tree.stepsFrom passed.length⟩)
    (rest : List Tree) (passed : Form) (steps : List Step) :
    ∃ count, stepTimes move count ⟨trees ++ rest, passed, steps⟩ =
      ⟨rest, passed ++ frontierOfAll trees,
        steps ++ stepsOfAllFrom passed.length trees⟩ := by
  induction trees generalizing passed steps with
  | nil => exact ⟨0, by simp [stepTimes, frontierOfAll, stepsOfAllFrom]⟩
  | cons tree trees ih =>
      obtain ⟨m, hm⟩ :=
        htrees tree List.mem_cons_self (trees ++ rest) passed steps
      obtain ⟨n, hn⟩ := ih
        (fun other hother => htrees other (List.mem_cons_of_mem tree hother))
        (passed ++ tree.frontier) (steps ++ tree.stepsFrom passed.length)
      refine ⟨m + n, ?_⟩
      rw [stepTimes_add, List.cons_append, hm, hn]
      simp [frontierOfAll, stepsOfAllFrom]

theorem passes (tree : Tree) (rest : List Tree) (passed : Form)
    (steps : List Step) :
    ∃ count, stepTimes move count ⟨tree :: rest, passed, steps⟩ =
      ⟨rest, passed ++ tree.frontier,
        steps ++ tree.stepsFrom passed.length⟩ := by
  induction tree using Tree.induction generalizing rest passed steps with
  | leaf s => exact ⟨1, by simp [stepTimes, move, frontier, stepsFrom]⟩
  | node s p children ih =>
      obtain ⟨count, hcount⟩ := passes_forest ih rest passed
        (steps ++ [⟨p, passed.length⟩])
      refine ⟨count + 1, ?_⟩
      rw [stepTimes]
      simp only [move]
      rw [hcount]
      simp [frontier, stepsFrom]

theorem exists_end (tree : Tree) :
    ∃ count, stepTimes move count (start tree) =
      ⟨[], tree.frontier, tree.steps⟩ :=
  passes tree [] [] []

/-- What is true at every moment of a walk through a valid tree. -/
structure Retells (g : Grammar) (tree : Tree) (w : Walk) : Prop where
  valid : AllValidFor g w.pending
  frontier_eq : w.passed ++ frontierOfAll w.pending = tree.frontier
  rewrites : Form.rewriteAll? [tree.root] w.steps = some w.sentential
  leftmost : Form.isTerminal tree.frontier = true →
    ∀ number step, w.steps[number]? = some step →
      ∃ form,
        Form.rewriteAll? [tree.root] (w.steps.take number) = some form ∧
          form.findIdx? Symbol.isVar = some step.position

variable {g : Grammar} {tree : Tree} {w : Walk}

theorem retells_start (hvalid : tree.ValidFor g) :
    (start tree).Retells g tree := by
  refine ⟨⟨hvalid, trivial⟩, ?_, rfl, ?_⟩
  · simp [start, frontierOfAll]
  · intro _ number step hstep
    simp [start] at hstep

theorem Retells.move (hw : w.Retells g tree) : w.move.Retells g tree := by
  obtain ⟨pending, passed, steps⟩ := w
  obtain ⟨hvalid, hfrontier, hrewrites, hleftmost⟩ := hw
  cases pending with
  | nil => exact ⟨hvalid, hfrontier, hrewrites, hleftmost⟩
  | cons first rest =>
      cases first with
      | leaf s =>
          refine ⟨hvalid.2, ?_, ?_, hleftmost⟩
          · rw [← hfrontier]
            simp [Walk.move, frontierOfAll, frontier]
          · refine hrewrites.trans ?_
            simp [sentential, Walk.move, root]
      | node s p children =>
          obtain ⟨⟨hmem, hhead, hroots, hchildren⟩, hrest⟩ := hvalid
          have hlhs := (Production.head?_eq_some_iff.mp hhead).1
          have hstep : Form.rewrite? (passed ++ s :: rest.map root)
              ⟨p, passed.length⟩ =
              some (passed ++ p.rhs ++ rest.map root) :=
            Form.rewrite?_eq_some_iff.mpr
              ⟨passed, rest.map root, rfl, by simp [hlhs], rfl⟩
          refine ⟨allValidFor_append.mpr ⟨hchildren, hrest⟩, ?_, ?_, ?_⟩
          · rw [← hfrontier]
            simp [Walk.move, frontierOfAll, frontier]
          · simp only [Walk.move]
            rw [Form.rewriteAll?_concat hrewrites]
            simp only [sentential, List.map_cons, root, List.map_append,
              hroots]
            rw [hstep, List.append_assoc]
          · intro hterminal number made hmade
            simp only [Walk.move] at hmade ⊢
            rcases Nat.lt_or_ge number steps.length with hlt | hge
            · rw [List.getElem?_append_left hlt] at hmade
              rw [List.take_append_of_le_length (Nat.le_of_lt hlt)]
              exact hleftmost hterminal number made hmade
            · -- the new step, whose form is the one before it
              rw [← hfrontier] at hterminal
              have hpassed := (Grammar.isTerminal_append.mp hterminal).1
              have hlength : number = steps.length := by
                have hlt := (List.getElem?_eq_some_iff.mp hmade).1
                simp only [List.length_append, List.length_singleton] at hlt
                omega
              rw [hlength, List.getElem?_concat_length,
                Option.some.injEq] at hmade
              rw [hlength, List.take_left, ← hmade]
              exact ⟨_, hrewrites, Grammar.findIdx?_isVar hpassed
                (Grammar.isVar_of_head? hhead) _⟩

theorem retells_end (hvalid : tree.ValidFor g) :
    Retells g tree ⟨[], tree.frontier, tree.steps⟩ := by
  obtain ⟨count, hcount⟩ := exists_end tree
  rw [← hcount]
  exact stepTimes_induct (fun _ hw => hw.move) count (retells_start hvalid)

end Walk

/-- A valid tree that is rooted at the start tells one derivation in four ways:
by its frontier, its steps, its forms and its history.  A walk with a stack of
pending subtrees finds them. -/
theorem views_agree {g : Grammar} {tree : Tree} (hvalid : tree.ValidFor g)
    (hroot : g.start = some tree.root) :
    (∃ count, stepTimes Walk.move count (Walk.start tree) =
      ⟨[], tree.frontier, tree.steps⟩) ∧
    g.replay tree.steps = .ok tree.frontier ∧
    tree.forms.length = tree.steps.length + 1 ∧
    tree.forms.head? = some [tree.root] ∧
    tree.forms.getLast? = some tree.frontier ∧
    (∀ number step, tree.steps[number]? = some step →
      ∃ before after, tree.forms[number]? = some before ∧
        tree.forms[number + 1]? = some after ∧
        Form.rewrite? before step = some after ∧
        (Form.isTerminal tree.frontier = true →
          before.findIdx? Symbol.isVar = some step.position)) ∧
    tree.history.Branch tree.forms tree.steps := by
  obtain ⟨_, _, hrewrites, hleftmost⟩ := Walk.retells_end hvalid
  simp only [Walk.sentential, List.map_nil, List.append_nil] at hrewrites
  refine ⟨Walk.exists_end tree, replay_steps hvalid hroot,
    length_formsAlong hrewrites, ?_, getLast?_formsAlong hrewrites, ?_, ?_⟩
  · rw [forms, List.head?_eq_getElem?,
      getElem?_formsAlong hrewrites (Nat.zero_le _)]
    rfl
  · intro number step hstep
    obtain ⟨before, after, hbefore, hafter, htaken, hrewrite⟩ :=
      exists_forms_at hrewrites hstep
    refine ⟨before, after, hbefore, hafter, hrewrite, fun hterminal => ?_⟩
    obtain ⟨form, hform, hindex⟩ := hleftmost hterminal number step hstep
    rw [hform, Option.some.injEq] at htaken
    exact htaken ▸ hindex
  · have hstart : History.Branch (.ofRoot [tree.root]) ([] ++ [[tree.root]]) [] :=
      History.branch_ofRoot [tree.root]
    exact hstart.extendAlong hrewrites

/-- `S → AaB`, `A → λ` and `B → bB | λ`. -/
def vanishingEnds : Grammar :=
  Grammar.withProductions { start := some (.var "S") }
    [.rule (.var "S") [.var "A", .term "a", .var "B"],
      .rule (.var "A") [],
      .rule (.var "B") [.term "b", .var "B"],
      .rule (.var "B") []]

/-- The tree of `ab`, in which `A` and the last `B` vanish. -/
def vanishingEndsTree : Tree :=
  .node (.var "S") (.rule (.var "S") [.var "A", .term "a", .var "B"])
    [.node (.var "A") (.rule (.var "A") []) [],
      .leaf (.term "a"),
      .node (.var "B") (.rule (.var "B") [.term "b", .var "B"])
        [.leaf (.term "b"), .node (.var "B") (.rule (.var "B") []) []]]

theorem views_agree_vanishingEnds :
    vanishingEndsTree.ValidFor vanishingEnds ∧
    vanishingEnds.start = some vanishingEndsTree.root ∧
    vanishingEnds.replay vanishingEndsTree.steps =
      .ok [.term "a", .term "b"] ∧
    vanishingEndsTree.forms.length = 5 ∧
    (∃ before, vanishingEndsTree.forms[2]? = some before ∧
      before.findIdx? Symbol.isVar = some 1) ∧
    vanishingEndsTree.history.Branch vanishingEndsTree.forms
      vanishingEndsTree.steps := by
  have hvalid : vanishingEndsTree.ValidFor vanishingEnds := by
    decide +kernel
  have hthird : vanishingEndsTree.steps[2]? =
      some ⟨.rule (.var "B") [.term "b", .var "B"], 1⟩ := by
    decide +kernel
  obtain ⟨_, hreplay, hlength, _, _, hforms, hbranch⟩ :=
    views_agree (g := vanishingEnds) hvalid rfl
  obtain ⟨before, _, hbefore, _, _, hleftmost⟩ := hforms 2 _ hthird
  exact ⟨hvalid, rfl, hreplay, hlength, ⟨before, hbefore, hleftmost rfl⟩,
    hbranch⟩

end Tree

end FormalGrammars
