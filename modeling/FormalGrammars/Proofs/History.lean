import FormalGrammars.Derivation.History
import FormalGrammars.Proofs.Yield

/-!
# Histories replay

In a history that records derivations from the start of a grammar, every form
but the first is made by a production of the grammar from a form with a smaller
number.  Adding a form that is made so keeps this.  The steps that lead to a
form are those that lead to its parent and one more, so they replay from the
start to the form.

A history only grows.  What is in it stays as it is, and so does the way to it.
-/

namespace FormalGrammars.History

variable {g : Grammar} {start : Symbol} {h : History} {number parent : Nat}
  {entry : Entry} {form next : Form} {step : Step}

/-! ## Adding a form -/

theorem size_addChild (h : History) (parent : Nat) (form : Form) (step : Step) :
    (h.addChild parent form step).size = h.size + 1 := by
  simp [addChild, size]

theorem lt_or_eq_of_lt_addChild
    (hlt : number < (h.addChild parent form step).size) :
    number < h.size ∨ number = h.size := by
  rw [size_addChild] at hlt
  exact Nat.lt_succ_iff_lt_or_eq.mp hlt

theorem entry_addChild_of_lt (hlt : number < h.size) :
    History.entry? (h.addChild parent form step) number = h.entry? number :=
  List.getElem?_append_left hlt

theorem entry_addChild_size :
    History.entry? (h.addChild parent form step) h.size =
      some ⟨form, some ⟨parent, step⟩, h.depth parent + 1⟩ := by
  simp [addChild, entry?, size]

theorem form_addChild_of_lt (hlt : number < h.size) :
    (h.addChild parent form step).form number = h.form number := by
  rw [History.form, entry_addChild_of_lt hlt, History.form]

theorem form_addChild_size :
    (h.addChild parent form step).form h.size = form := by
  rw [History.form, entry_addChild_size]
  rfl

theorem depth_addChild_of_lt (hlt : number < h.size) :
    (h.addChild parent form step).depth number = h.depth number := by
  rw [History.depth, entry_addChild_of_lt hlt, History.depth]

theorem depth_addChild_size :
    (h.addChild parent form step).depth h.size = h.depth parent + 1 := by
  rw [History.depth, entry_addChild_size]
  rfl

theorem parent?_addChild_of_lt (hlt : number < h.size) :
    (h.addChild parent form step).parent? number = h.parent? number := by
  rw [History.parent?, entry_addChild_of_lt hlt, History.parent?]

theorem parent?_addChild_size :
    (h.addChild parent form step).parent? h.size = some parent := by
  rw [History.parent?, entry_addChild_size]
  rfl

/-- The parent gets the new form as its last child. -/
theorem childrenOf_addChild (hparent : parent < h.children.length) :
    (h.addChild parent form step).childrenOf number =
      h.childrenOf number ++ if number = parent then [h.size] else [] := by
  unfold childrenOf addChild
  rcases Nat.lt_or_ge number h.children.length with hlt | hge
  · have hkept : number < (h.children.modify parent (· ++ [h.size])).length := by
      simpa using hlt
    rw [List.getElem?_append_left hkept, List.getElem?_modify,
      List.getElem?_eq_getElem hlt]
    by_cases heq : number = parent
    · simp [heq]
    · simp [heq, Ne.symm heq]
  · have hne : number ≠ parent := by omega
    rw [if_neg hne, List.append_nil, List.getElem?_eq_none hge,
      List.getElem?_append_right (by simpa using hge)]
    cases number - (h.children.modify parent (· ++ [h.size])).length with
    | zero => rfl
    | succ count => rfl

/-- A form is made as it was before, or by the step that is added. -/
theorem origin_addChild {source : Nat} {made : Step}
    (horigin : (History.entry? (h.addChild parent form step) number).bind
      Entry.origin = some ⟨source, made⟩) :
    (number < h.size ∧
        (h.entry? number).bind Entry.origin = some ⟨source, made⟩) ∨
      (number = h.size ∧ source = parent ∧ made = step) := by
  rcases Nat.lt_trichotomy number h.size with hold | hnew | hbeyond
  · rw [entry_addChild_of_lt hold] at horigin
    exact .inl ⟨hold, horigin⟩
  · rw [hnew, entry_addChild_size] at horigin
    cases horigin
    exact .inr ⟨hnew, rfl, rfl⟩
  · have hsize : (h.addChild parent form step).size ≤ number := by
      rw [size_addChild]
      exact hbeyond
    rw [History.entry?, List.getElem?_eq_none hsize] at horigin
    cases horigin

theorem origin_ofRoot (form : Form) (number : Nat) :
    (History.entry? (ofRoot form) number).bind Entry.origin = none := by
  cases number with
  | zero => rfl
  | succ number => simp [ofRoot, History.entry?]

theorem form_of_entry (hentry : h.entry? number = some entry) :
    h.form number = entry.form := by
  rw [History.form, hentry]
  rfl

theorem depth_of_entry (hentry : h.entry? number = some entry) :
    h.depth number = entry.depth := by
  rw [History.depth, hentry]
  rfl

theorem parent?_of_entry (hentry : h.entry? number = some entry) :
    h.parent? number = entry.origin.map Origin.parent := by
  rw [History.parent?, hentry]
  rfl

theorem lt_size_of_entry (hentry : h.entry? number = some entry) :
    number < h.size :=
  (List.getElem?_eq_some_iff.mp hentry).1

theorem exists_entry (hlt : number < h.size) :
    ∃ entry, h.entry? number = some entry :=
  ⟨_, List.getElem?_eq_getElem hlt⟩

/-! ## Records of derivations -/

/-- Every form but the first is made from an earlier one. -/
structure Records (g : Grammar) (start : Symbol) (h : History) : Prop where
  root : h.entry? 0 = some ⟨[start], none, 0⟩
  made : ∀ number entry, h.entry? number = some entry → number ≠ 0 →
    ∃ parent step, entry.origin = some ⟨parent, step⟩ ∧ parent < number ∧
      step.production ∈ g.productions ∧
      Form.rewrite? (h.form parent) step = some entry.form

theorem records_ofRoot : (ofRoot [start]).Records g start := by
  refine ⟨rfl, ?_⟩
  intro number entry hentry hne
  have hlt : number < 1 := lt_size_of_entry hentry
  exact absurd (Nat.lt_one_iff.mp hlt) hne

theorem Records.addChild (hrecords : h.Records g start)
    (hparent : parent < h.size) (hmem : step.production ∈ g.productions)
    (hrewrite : Form.rewrite? (h.form parent) step = some next) :
    (h.addChild parent next step).Records g start := by
  constructor
  · rw [entry_addChild_of_lt (lt_size_of_entry hrecords.root)]
    exact hrecords.root
  · intro number entry hentry hne
    rcases lt_or_eq_of_lt_addChild (lt_size_of_entry hentry) with hold | rfl
    · rw [entry_addChild_of_lt hold] at hentry
      obtain ⟨source, made, horigin, hless, hp, hmade⟩ :=
        hrecords.made number entry hentry hne
      refine ⟨source, made, horigin, hless, hp, ?_⟩
      rw [form_addChild_of_lt (Nat.lt_trans hless hold)]
      exact hmade
    · rw [entry_addChild_size, Option.some.injEq] at hentry
      subst hentry
      refine ⟨parent, step, rfl, hparent, hmem, ?_⟩
      rw [form_addChild_of_lt hparent]
      exact hrewrite

/-! ## The way to a form -/

theorem stepsTo_eq (h : History) (number : Nat) :
    h.stepsTo number =
      match (h.entry? number).bind Entry.origin with
      | none => []
      | some origin =>
        (if origin.parent < number then h.stepsTo origin.parent else []) ++
          [origin.step] := by
  unfold stepsTo path
  rw [ascent, parent?]
  cases horigin : (h.entry? number).bind Entry.origin with
  | none => simp only [Option.map_none, List.reverse_singleton,
      List.filterMap_cons, horigin, List.filterMap_nil]
  | some origin =>
      by_cases hlt : origin.parent < number
      · simp only [Option.map_some, if_pos hlt, List.reverse_cons,
          List.filterMap_append, List.filterMap_cons, horigin,
          List.filterMap_nil]
      · simp only [Option.map_some, if_neg hlt, List.reverse_singleton,
          List.filterMap_cons, horigin, List.filterMap_nil, List.nil_append]

theorem stepsTo_of_root (hentry : h.entry? number = some entry)
    (horigin : entry.origin = none) : h.stepsTo number = [] := by
  simp [stepsTo_eq, hentry, horigin]

theorem stepsTo_of_parent (hentry : h.entry? number = some entry)
    (horigin : entry.origin = some ⟨parent, step⟩) (hlt : parent < number) :
    h.stepsTo number = h.stepsTo parent ++ [step] := by
  rw [stepsTo_eq, hentry, Option.bind_some, horigin]
  simp only [if_pos hlt]

/-- What holds of the root and is handed on to what a step makes holds of every
form. -/
theorem Records.induct (hrecords : h.Records g start) {motive : Nat → Prop}
    (hroot : motive 0)
    (hmade : ∀ number parent step,
      (h.entry? number).bind Entry.origin = some ⟨parent, step⟩ →
      step.production ∈ g.productions →
      Form.rewrite? (h.form parent) step = some (h.form number) →
      h.stepsTo number = h.stepsTo parent ++ [step] → motive parent →
      motive number) :
    ∀ number, number < h.size → motive number := by
  intro number hlt
  induction number using Nat.strongRecOn with
  | ind number ih =>
    rcases Nat.eq_zero_or_pos number with rfl | hpos
    · exact hroot
    · obtain ⟨entry, hentry⟩ := exists_entry hlt
      obtain ⟨parent, step, horigin, hless, hmem, hrewrite⟩ :=
        hrecords.made number entry hentry (Nat.pos_iff_ne_zero.mp hpos)
      rw [← form_of_entry hentry] at hrewrite
      have hsource : (h.entry? number).bind Entry.origin =
          some ⟨parent, step⟩ := by
        rw [hentry]
        exact horigin
      exact hmade number parent step hsource hmem hrewrite
        (stepsTo_of_parent hentry horigin hless)
        (ih parent hless (Nat.lt_trans hless hlt))

/-- The steps to a form lead from the start to it. -/
theorem Records.replay (hrecords : h.Records g start)
    (hstart : g.start = some start) (hlt : number < h.size) :
    g.replay (h.stepsTo number) = .ok (h.form number) := by
  have hrequire := Grammar.requireStart_eq_ok_iff.mpr hstart
  unfold Grammar.replay
  rw [hrequire]
  change (h.stepsTo number).foldlM g.apply [start] = .ok (h.form number)
  apply hrecords.induct (motive := fun number =>
    (h.stepsTo number).foldlM g.apply [start] = .ok (h.form number)) ?_ ?_ _ hlt
  · rw [stepsTo_of_root hrecords.root rfl, form_of_entry hrecords.root]
    rfl
  · intro number parent step _ hmem hrewrite hsteps hparent
    have happly : g.apply (h.form parent) step = .ok (h.form number) := by
      rw [Grammar.apply, if_pos (Grammar.contains_iff.mpr hmem), hrewrite]
    rw [hsteps, List.foldlM_append, hparent]
    change [step].foldlM g.apply (h.form parent) = _
    rw [List.foldlM_cons, happly]
    rfl

theorem Records.mem_productions (hrecords : h.Records g start)
    (hlt : number < h.size) :
    ∀ step ∈ h.stepsTo number, step.production ∈ g.productions := by
  apply hrecords.induct (motive := fun number =>
    ∀ step ∈ h.stepsTo number, step.production ∈ g.productions) ?_ ?_ _ hlt
  · simp [stepsTo_of_root hrecords.root rfl]
  · intro number parent step _ hmem _ hsteps hparent other hother
    rw [hsteps] at hother
    rcases List.mem_append.mp hother with hold | hnew
    · exact hparent other hold
    · exact List.mem_singleton.mp hnew ▸ hmem

theorem Records.derives (hrecords : h.Records g start) (hlt : number < h.size) :
    g.Derives [start] (h.form number) := by
  apply hrecords.induct (motive := fun number =>
    g.Derives [start] (h.form number)) ?_ ?_ _ hlt
  · rw [form_of_entry hrecords.root]
    exact .refl _
  · intro number parent step _ hmem hrewrite _ hparent
    obtain ⟨before, after, _, hform, hnext⟩ :=
      Form.rewrite?_eq_some_iff.mp hrewrite
    rw [hform] at hparent
    rw [hnext]
    exact hparent.trans (Grammar.Rewrites.intro _ before after hmem).derives

/-! ## Histories that grow -/

/-- Forms are added at the end, of the history and of lists of children. -/
structure GrowsTo (h k : History) : Prop where
  entries : h.entries <+: k.entries
  children : ∀ number, h.childrenOf number <+: k.childrenOf number

namespace GrowsTo

variable {h k l : History}

theorem refl (h : History) : h.GrowsTo h :=
  ⟨List.prefix_refl _, fun _ => List.prefix_refl _⟩

theorem trans (hfirst : h.GrowsTo k) (hsecond : k.GrowsTo l) : h.GrowsTo l :=
  ⟨hfirst.entries.trans hsecond.entries,
    fun number => (hfirst.children number).trans (hsecond.children number)⟩

theorem addChild (h : History) (parent : Nat) (form : Form) (step : Step) :
    h.GrowsTo (h.addChild parent form step) := by
  refine ⟨List.prefix_append _ _, fun number => ?_⟩
  unfold History.childrenOf
  rcases Nat.lt_or_ge number h.children.length with hlt | hge
  · have hkept : number < (h.children.modify parent (· ++ [h.size])).length := by
      simpa using hlt
    rw [History.addChild, List.getElem?_append_left hkept,
      List.getElem?_modify, List.getElem?_eq_getElem hlt]
    by_cases hparent : parent = number
    · simp [hparent]
    · simp [hparent]
  · rw [List.getElem?_eq_none hge]
    exact List.nil_prefix

theorem size_le (hgrows : h.GrowsTo k) : h.size ≤ k.size :=
  hgrows.entries.length_le

theorem entry_eq (hgrows : h.GrowsTo k) {number : Nat}
    (hlt : number < h.size) : k.entry? number = h.entry? number := by
  have hentries := List.prefix_iff_getElem?.mp hgrows.entries
  rw [History.entry?, hentries number hlt, History.entry?,
    List.getElem?_eq_getElem hlt]

theorem depth_eq (hgrows : h.GrowsTo k) {number : Nat}
    (hlt : number < h.size) : k.depth number = h.depth number := by
  rw [History.depth, hgrows.entry_eq hlt, History.depth]

/-- The way to a form does not change. -/
theorem stepsTo_eq (hgrows : h.GrowsTo k) {number : Nat}
    (hlt : number < h.size) : k.stepsTo number = h.stepsTo number := by
  induction number using Nat.strongRecOn with
  | ind number ih =>
      rw [History.stepsTo_eq, History.stepsTo_eq, hgrows.entry_eq hlt]
      cases (h.entry? number).bind History.Entry.origin with
      | none => rfl
      | some origin =>
          by_cases hless : origin.parent < number
          · simp only [if_pos hless, ih _ hless (Nat.lt_trans hless hlt)]
          · simp only [if_neg hless]

end GrowsTo

end FormalGrammars.History
