import FormalGrammars.Iteration
import FormalGrammars.Proofs.History
import Mathlib.Data.List.Chain

/-!
# The tree in a history

A history grows by calls that each add a form below one that is there.  The new
form gets the next number and is written down twice: as an entry that names its
parent, and among the children of its parent.  Whatever the order in which the
forms are added, both tell the same tree.

A parent is there before its children, so it has a smaller number.  This is why
the way up from a form ends.  It comes to the root after as many moves as the
form is deep, and the path is this way turned around.
-/

namespace FormalGrammars.History

variable {h : History} {number parent : Nat}

/-! ## Calls -/

/-- A call that adds what the step makes from the form `parent`. -/
structure Addition where
  parent : Nat
  form : Form
  step : Step
  deriving DecidableEq, Repr

namespace Addition

variable {addition : Addition} {additions : List Addition}

/-- The number that the call hands out, and the history after it. -/
def perform (h : History) (addition : Addition) : Nat × History :=
  (h.size, h.addChild addition.parent addition.form addition.step)

/-- The numbers that the calls hand out, and the history after all of them. -/
def performAll : List Addition → History → List Nat × History
  | [], h => ([], h)
  | addition :: more, h =>
    let (number, next) := addition.perform h
    let (numbers, last) := performAll more next
    (number :: numbers, last)

/-- Each call names a parent that is there when it comes. -/
def ParentsExist : List Addition → History → Prop
  | [], _ => True
  | addition :: more, h =>
    addition.parent < h.size ∧ ParentsExist more (addition.perform h).2

theorem performAll_cons (addition : Addition) (more : List Addition)
    (h : History) :
    performAll (addition :: more) h =
      (h.size :: (performAll more (addition.perform h).2).1,
        (performAll more (addition.perform h).2).2) :=
  rfl

theorem size_perform (addition : Addition) (h : History) :
    (addition.perform h).2.size = h.size + 1 :=
  size_addChild h _ _ _

theorem numbers_performAll (additions : List Addition) (h : History) :
    (performAll additions h).1 = List.range' h.size additions.length := by
  induction additions generalizing h with
  | nil => rfl
  | cons addition more ih =>
      rw [performAll_cons, ih, size_perform, List.length_cons,
        List.range'_succ]

theorem size_performAll (additions : List Addition) (h : History) :
    (performAll additions h).2.size = h.size + additions.length := by
  induction additions generalizing h with
  | nil => rfl
  | cons addition more ih =>
      rw [performAll_cons, ih, size_perform, List.length_cons]
      omega

theorem growsTo_performAll (additions : List Addition) (h : History) :
    h.GrowsTo (performAll additions h).2 := by
  induction additions generalizing h with
  | nil => exact .refl h
  | cons addition more ih =>
      have hnext := GrowsTo.addChild h addition.parent addition.form
        addition.step
      exact hnext.trans (ih _)

/-- The form of a call is found under the number that was handed out for it. -/
theorem entry_performAll (hparents : ParentsExist additions h)
    (hcall : additions[number]? = some addition) :
    addition.parent < h.size + number ∧
      History.entry? (performAll additions h).2 (h.size + number) =
        some ⟨addition.form, some ⟨addition.parent, addition.step⟩,
          (performAll additions h).2.depth addition.parent + 1⟩ := by
  induction additions generalizing h number with
  | nil => cases hcall
  | cons first more ih =>
      rw [performAll_cons]
      cases number with
      | zero =>
          rw [List.getElem?_cons_zero, Option.some.injEq] at hcall
          subst hcall
          have hnext := growsTo_performAll more (first.perform h).2
          have hnew : h.size < (first.perform h).2.size := by
            rw [size_perform]
            exact Nat.lt_succ_self _
          have hdepth := hnext.depth_eq (Nat.lt_trans hparents.1 hnew)
          refine ⟨hparents.1, ?_⟩
          rw [Nat.add_zero, hnext.entry_eq hnew, hdepth, perform,
            entry_addChild_size, depth_addChild_of_lt hparents.1]
      | succ number =>
          have hlater := ih hparents.2 hcall
          rw [size_perform, Nat.add_right_comm] at hlater
          exact hlater

end Addition

/-! ## One tree, told twice -/

/-- The step that made a form; none for the root. -/
def step? (h : History) (number : Nat) : Option Step :=
  ((h.entry? number).bind Entry.origin).map Origin.step

/-- Every form but the root is below an earlier one, and the lists of children
say the same as the entries. -/
structure Rooted (h : History) : Prop where
  root : ∃ form, h.entry? 0 = some ⟨form, none, 0⟩
  made : ∀ number, number ≠ 0 → number < h.size → ∃ form parent step,
    h.entry? number = some ⟨form, some ⟨parent, step⟩, h.depth parent + 1⟩ ∧
      parent < number
  length_children : h.children.length = h.size
  childrenOf_eq : ∀ parent, h.childrenOf parent =
    (List.range h.size).filter fun number => h.parent? number = some parent

theorem lt_size_of_parent? (hparent : h.parent? number = some parent) :
    number < h.size := by
  cases hentry : h.entry? number with
  | none =>
      rw [parent?, hentry] at hparent
      cases hparent
  | some entry => exact lt_size_of_entry hentry

theorem rooted_ofRoot (form : Form) : (ofRoot form).Rooted := by
  refine ⟨⟨form, rfl⟩, ?_, rfl, ?_⟩
  · intro number hne hlt
    exact absurd (Nat.lt_one_iff.mp hlt) hne
  · intro parent
    cases parent with
    | zero => rfl
    | succ parent => rfl

theorem Rooted.size_pos (hrooted : h.Rooted) : 0 < h.size := by
  obtain ⟨form, hroot⟩ := hrooted.root
  exact lt_size_of_entry hroot

/-- The new form is in both lists, and all else is as before. -/
theorem Rooted.addChild (hrooted : h.Rooted) (hparent : parent < h.size)
    (form : Form) (step : Step) : (h.addChild parent form step).Rooted := by
  constructor
  · rw [entry_addChild_of_lt hrooted.size_pos]
    exact hrooted.root
  · intro number hne hlt
    rcases lt_or_eq_of_lt_addChild hlt with hold | rfl
    · obtain ⟨other, source, made, hentry, hless⟩ :=
        hrooted.made number hne hold
      refine ⟨other, source, made, ?_, hless⟩
      rw [entry_addChild_of_lt hold, hentry,
        depth_addChild_of_lt (Nat.lt_trans hless hold)]
    · refine ⟨form, parent, step, ?_, hparent⟩
      rw [entry_addChild_size, depth_addChild_of_lt hparent]
  · rw [size_addChild]
    simp [History.addChild, hrooted.length_children]
  · intro other
    have hold : ∀ number ∈ List.range h.size,
        decide ((h.addChild parent form step).parent? number = some other) =
          decide (h.parent? number = some other) := by
      intro number hnumber
      rw [parent?_addChild_of_lt (List.mem_range.mp hnumber)]
    rw [childrenOf_addChild (hrooted.length_children ▸ hparent),
      hrooted.childrenOf_eq, size_addChild, List.range_succ,
      List.filter_append, List.filter_congr hold, List.filter_singleton,
      parent?_addChild_size]
    by_cases hsame : other = parent
    · simp [hsame]
    · simp [hsame, Ne.symm hsame]

theorem Rooted.performAll {additions : List Addition} (hrooted : h.Rooted)
    (hparents : Addition.ParentsExist additions h) :
    (Addition.performAll additions h).2.Rooted := by
  induction additions generalizing h with
  | nil => exact hrooted
  | cons addition more ih =>
      exact ih (hrooted.addChild hparents.1 _ _) hparents.2

/-- A form is in the list of its parent once, and in no other list. -/
theorem Rooted.count_childrenOf (hrooted : h.Rooted) (number parent : Nat) :
    (h.childrenOf parent).count number =
      if h.parent? number = some parent then 1 else 0 := by
  rw [hrooted.childrenOf_eq]
  by_cases hparent : h.parent? number = some parent
  · have hmem : number ∈ List.range h.size :=
      List.mem_range.mpr (lt_size_of_parent? hparent)
    rw [if_pos hparent, List.count_filter (by simpa using hparent),
      List.nodup_range.count, if_pos hmem]
  · rw [if_neg hparent, List.count_eq_zero]
    intro hmem
    exact hparent (of_decide_eq_true (List.mem_filter.mp hmem).2)

/-- What holds of the root and is handed down from parents to children holds of
every form. -/
theorem Rooted.induct (hrooted : h.Rooted) {motive : Nat → Prop}
    (hroot : ∀ form, h.entry? 0 = some ⟨form, none, 0⟩ → motive 0)
    (hmade : ∀ number form parent step,
      h.entry? number =
        some ⟨form, some ⟨parent, step⟩, h.depth parent + 1⟩ →
      parent < number → motive parent → motive number) :
    ∀ number < h.size, motive number := by
  intro number hlt
  induction number using Nat.strongRecOn with
  | ind number ih =>
    rcases Nat.eq_zero_or_pos number with rfl | hpos
    · obtain ⟨form, hentry⟩ := hrooted.root
      exact hroot form hentry
    · obtain ⟨form, parent, step, hentry, hless⟩ :=
        hrooted.made number (Nat.pos_iff_ne_zero.mp hpos) hlt
      exact hmade number form parent step hentry hless
        (ih parent hless (Nat.lt_trans hless hlt))

/-! ## The way up -/

/-- The forms that were passed on the way up, and the one that was reached. -/
structure Climb where
  passed : List Nat
  reached : Nat

namespace Climb

def start (number : Nat) : Climb := ⟨[number], number⟩

/-- Moves to the parent, whatever its number, unless the root is reached. -/
def move (h : History) (climb : Climb) : Climb :=
  match h.parent? climb.reached with
  | none => climb
  | some parent => ⟨climb.passed ++ [parent], parent⟩

end Climb

theorem path_of_root (hroot : h.parent? number = none) :
    h.path number = [number] := by
  rw [path, ascent, hroot]
  rfl

theorem path_of_parent (hparent : h.parent? number = some parent)
    (hlt : parent < number) : h.path number = h.path parent ++ [number] := by
  rw [path, ascent, hparent]
  simp only [if_pos hlt, List.reverse_cons]
  rw [path]

/-- The moves lead along the path, and after the last one the root is reached. -/
theorem Rooted.climbs (hrooted : h.Rooted) (hlt : number < h.size)
    (before : List Nat) :
    stepTimes (Climb.move h) (h.depth number) ⟨before ++ [number], number⟩ =
      ⟨before ++ (h.path number).reverse, 0⟩ := by
  -- a parent is reached with its children behind it, so `before` may be any list
  apply hrooted.induct (motive := fun number => ∀ before,
    stepTimes (Climb.move h) (h.depth number) ⟨before ++ [number], number⟩ =
      ⟨before ++ (h.path number).reverse, 0⟩) ?_ ?_ number hlt before
  · intro form hentry before
    rw [depth_of_entry hentry, path_of_root (parent?_of_entry hentry)]
    rfl
  · intro number form parent step hentry hless ih before
    have hparent := parent?_of_entry hentry
    have hmove : Climb.move h ⟨before ++ [number], number⟩ =
        ⟨before ++ [number] ++ [parent], parent⟩ := by
      rw [Climb.move, hparent]
      rfl
    rw [depth_of_entry hentry, stepTimes, hmove, ih,
      path_of_parent hparent hless]
    simp

/-- From the root down to the form, each the parent of the next. -/
structure LeadsTo (h : History) (number : Nat) (path : List Nat) : Prop where
  head?_eq : path.head? = some 0
  getLast?_eq : path.getLast? = some number
  descends : path.IsChain fun parent child => h.parent? child = some parent
  ascending : path.Pairwise (· < ·)
  length_eq : path.length = h.depth number + 1

theorem LeadsTo.concat {path : List Nat} (hpath : h.LeadsTo parent path)
    (hparent : h.parent? number = some parent) (hless : parent < number)
    (hdepth : h.depth number = h.depth parent + 1) :
    h.LeadsTo number (path ++ [number]) := by
  obtain ⟨hhead, hlast, hdescends, hascending, hlength⟩ := hpath
  refine ⟨?_, List.getLast?_concat, ?_, ?_, ?_⟩
  · rw [List.head?_append, hhead]
    rfl
  · refine List.isChain_append.mpr ⟨hdescends, .singleton number, ?_⟩
    rw [hlast]
    simpa using hparent
  · refine List.isChain_iff_pairwise.mp (List.isChain_append.mpr
      ⟨List.isChain_iff_pairwise.mpr hascending, .singleton number, ?_⟩)
    rw [hlast]
    simpa using hless
  · rw [List.length_append, hlength, hdepth, List.length_singleton]

theorem Rooted.leadsTo_path (hrooted : h.Rooted) (hlt : number < h.size) :
    h.LeadsTo number (h.path number) := by
  apply hrooted.induct (motive := fun number =>
    h.LeadsTo number (h.path number)) ?_ ?_ number hlt
  · intro form hentry
    rw [path_of_root (parent?_of_entry hentry)]
    refine ⟨rfl, rfl, .singleton 0, List.pairwise_singleton _ 0, ?_⟩
    rw [depth_of_entry hentry, List.length_singleton]
  · intro number form parent step hentry hless ih
    have hparent := parent?_of_entry hentry
    rw [path_of_parent hparent hless]
    exact ih.concat hparent hless (depth_of_entry hentry)

theorem LeadsTo.ne_nil {path : List Nat} (hpath : h.LeadsTo number path) :
    path ≠ [] := by
  intro hnil
  have hhead := hpath.head?_eq
  rw [hnil] at hhead
  cases hhead

/-- The steps to a form are those of the forms below the root on the path. -/
theorem Rooted.map_stepsTo (hrooted : h.Rooted) (hlt : number < h.size) :
    (h.stepsTo number).map some = (h.path number).tail.map h.step? := by
  apply hrooted.induct (motive := fun number =>
    (h.stepsTo number).map some = (h.path number).tail.map h.step?)
    ?_ ?_ number hlt
  · intro form hentry
    rw [stepsTo_of_root hentry rfl, path_of_root (parent?_of_entry hentry)]
    rfl
  · intro number form parent step hentry hless ih
    have hlt := Nat.lt_trans hless (lt_size_of_entry hentry)
    have hne := (hrooted.leadsTo_path hlt).ne_nil
    rw [stepsTo_of_parent hentry rfl hless,
      path_of_parent (parent?_of_entry hentry) hless,
      List.tail_append_of_ne_nil hne, List.map_append, List.map_append, ih,
      List.map_singleton, List.map_singleton, step?, hentry]
    rfl

/-- However a history is grown, its numbers are consecutive, what is in it stays
as it was, and every form but the root is the child of one form, with a smaller
number.  The way up from a form ends at the root, and turned around it is the
path with the steps that lead to the form. -/
theorem additions_keep_tree (form : Form) {additions : List Addition}
    (hparents : Addition.ParentsExist additions (ofRoot form)) :
    let numbers := (Addition.performAll additions (ofRoot form)).1
    let h := (Addition.performAll additions (ofRoot form)).2
    numbers = List.range' 1 additions.length ∧
    h.size = additions.length + 1 ∧ h.children.length = h.size ∧
    h.entry? 0 = some ⟨form, none, 0⟩ ∧
    (∀ number addition, additions[number]? = some addition →
      addition.parent < number + 1 ∧
      h.entry? (number + 1) =
        some ⟨addition.form, some ⟨addition.parent, addition.step⟩,
          h.depth addition.parent + 1⟩) ∧
    (∀ more, h.GrowsTo (Addition.performAll more h).2) ∧
    (∀ parent, 0 ∉ h.childrenOf parent) ∧
    (∀ number < h.size, number ≠ 0 →
      ∃ parent < number, h.parent? number = some parent ∧
        ∀ other, (h.childrenOf other).count number =
          if other = parent then 1 else 0) ∧
    h.parent? 0 = none ∧
    ∀ number < h.size,
      stepTimes (Climb.move h) (h.depth number) (Climb.start number) =
        ⟨(h.path number).reverse, 0⟩ ∧
      h.LeadsTo number (h.path number) ∧
      (h.stepsTo number).map some = (h.path number).tail.map h.step? := by
  intro numbers h
  have hrooted : h.Rooted := (rooted_ofRoot form).performAll hparents
  have hgrown : (ofRoot form).GrowsTo h := Addition.growsTo_performAll _ _
  have hroot : h.entry? 0 = some ⟨form, none, 0⟩ := hgrown.entry_eq Nat.one_pos
  have hsize : h.size = 1 + additions.length := Addition.size_performAll _ _
  have hnone : h.parent? 0 = none := parent?_of_entry hroot
  refine ⟨Addition.numbers_performAll _ _, hsize.trans (Nat.add_comm _ _),
    hrooted.length_children, hroot, ?_,
    fun more => Addition.growsTo_performAll more h, ?_, ?_, hnone, ?_⟩
  · intro number addition hcall
    rw [Nat.add_comm number]
    exact Addition.entry_performAll hparents hcall
  · intro parent
    rw [← List.count_eq_zero, hrooted.count_childrenOf, hnone,
      if_neg (Option.some_ne_none parent).symm]
  · intro number hlt hne
    obtain ⟨made, parent, step, hentry, hless⟩ := hrooted.made number hne hlt
    have hparent : h.parent? number = some parent := parent?_of_entry hentry
    refine ⟨parent, hless, hparent, fun other => ?_⟩
    rw [hrooted.count_childrenOf, hparent]
    simp only [Option.some.injEq, eq_comm (a := parent)]
  · intro number hlt
    exact ⟨hrooted.climbs hlt [], hrooted.leadsTo_path hlt,
      hrooted.map_stepsTo hlt⟩

/-- Below `S`, first `aSb` and `ab`, and then on from `aSb` to `aaabbb`. -/
def branchingAdditions : List Addition :=
  [⟨0, [.term "a", .var "S", .term "b"],
      .rule (.var "S") [.term "a", .var "S", .term "b"], 0⟩,
    ⟨0, [.term "a", .term "b"],
      .rule (.var "S") [.term "a", .term "b"], 0⟩,
    ⟨1, [.term "a", .term "a", .var "S", .term "b", .term "b"],
      .rule (.var "S") [.term "a", .var "S", .term "b"], 1⟩,
    ⟨3, [.term "a", .term "a", .term "a", .term "b", .term "b", .term "b"],
      .rule (.var "S") [.term "a", .term "b"], 2⟩]

theorem branchingAdditions_keep_tree :
    Addition.ParentsExist branchingAdditions (ofRoot [.var "S"]) ∧
    (Addition.performAll branchingAdditions (ofRoot [.var "S"])).1 =
      [1, 2, 3, 4] ∧
    let h := (Addition.performAll branchingAdditions (ofRoot [.var "S"])).2
    (h.childrenOf 0).count 2 = 1 ∧ (h.childrenOf 1).count 2 = 0 ∧
    h.path 4 = [0, 1, 3, 4] ∧ h.LeadsTo 4 (h.path 4) ∧
    (h.stepsTo 4).map some =
      [some ⟨.rule (.var "S") [.term "a", .var "S", .term "b"], 0⟩,
        some ⟨.rule (.var "S") [.term "a", .var "S", .term "b"], 1⟩,
        some ⟨.rule (.var "S") [.term "a", .term "b"], 2⟩] := by
  have hparents : Addition.ParentsExist branchingAdditions
      (ofRoot [.var "S"]) := by
    simp only [branchingAdditions, Addition.ParentsExist]
    decide
  obtain ⟨hnumbers, _, _, _, _, _, _, hchildren, _, hpaths⟩ :=
    additions_keep_tree [.var "S"] hparents
  refine ⟨hparents, hnumbers, ?_⟩
  intro h
  obtain ⟨parent, _, hparent, hcount⟩ := hchildren 2 (by decide) (by decide)
  obtain ⟨hclimb, hleads, hsteps⟩ := hpaths 4 (by decide)
  have hzero : h.parent? 2 = some 0 := rfl
  rw [hzero, Option.some.injEq] at hparent
  subst hparent
  have hup : stepTimes (Climb.move h) (h.depth 4) (Climb.start 4) =
      ⟨[4, 3, 1, 0], 0⟩ := rfl
  have hpath : h.path 4 = [0, 1, 3, 4] := by
    rw [hup, Climb.mk.injEq] at hclimb
    rw [← List.reverse_reverse (h.path 4), ← hclimb.1]
    rfl
  refine ⟨hcount 0, hcount 1, hpath, hleads, ?_⟩
  rw [hsteps, hpath]
  rfl

end FormalGrammars.History
