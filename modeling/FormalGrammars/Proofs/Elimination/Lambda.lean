import FormalGrammars.Elimination.Lambda
import FormalGrammars.Proofs.Elimination.Restoration
import FormalGrammars.Proofs.Nullability

/-!
# Elimination of lambda productions keeps the non-empty strings

A choice of positions is allowed when it drops only nullable symbols.  The
productions of the result are exactly what is left of the productions of the
grammar, with a non-empty right side, by allowed choices.  What a form yields
in the grammar is yielded in the result by what an allowed choice leaves of
the form: the symbols that yield the empty string are dropped.  In the other
direction the dropped symbols come back with derivations of the empty string,
in a yield as well as in a tree.
-/

namespace FormalGrammars

variable {g : Grammar}

/-! ## Choices of positions -/

namespace Nullability

variable {n : Nullability}

/-- One choice for each symbol, and only nullable symbols are dropped. -/
def Allows (n : Nullability) : Form → List Bool → Prop
  | [], [] => True
  | s :: form, kept :: mask =>
    (kept = false → n.contains s = true) ∧ Allows n form mask
  | _, _ => False

theorem mem_extendMasks {masks : List (List Bool)} {s : Symbol}
    {mask : List Bool} :
    mask ∈ n.extendMasks masks s ↔
      ∃ first ∈ masks, ∃ kept, mask = first ++ [kept] ∧
        (kept = false → n.contains s = true) := by
  unfold extendMasks
  by_cases hs : n.contains s = true
  · simp only [hs, if_true, List.mem_append, List.mem_map, implies_true,
      and_true]
    constructor
    · rintro (⟨first, hfirst, rfl⟩ | ⟨first, hfirst, rfl⟩)
      · exact ⟨first, hfirst, true, rfl⟩
      · exact ⟨first, hfirst, false, rfl⟩
    · rintro ⟨first, hfirst, kept, rfl⟩
      cases kept with
      | true => exact .inl ⟨first, hfirst, rfl⟩
      | false => exact .inr ⟨first, hfirst, rfl⟩
  · simp only [hs, Bool.false_eq_true, if_false, List.mem_map, imp_false,
      Bool.not_eq_false]
    constructor
    · rintro ⟨first, hfirst, rfl⟩
      exact ⟨first, hfirst, true, rfl, rfl⟩
    · rintro ⟨first, hfirst, kept, rfl, rfl⟩
      exact ⟨first, hfirst, rfl⟩

theorem mem_foldl_extendMasks {form : Form} {masks : List (List Bool)}
    {mask : List Bool} :
    mask ∈ form.foldl n.extendMasks masks ↔
      ∃ first ∈ masks, ∃ rest, mask = first ++ rest ∧ n.Allows form rest := by
  induction form generalizing masks with
  | nil =>
      constructor
      · intro hmask
        exact ⟨mask, hmask, [], (List.append_nil mask).symm, trivial⟩
      · rintro ⟨first, hfirst, rest, rfl, hrest⟩
        cases rest with
        | nil => simpa using hfirst
        | cons kept rest => exact hrest.elim
  | cons s form ih =>
      rw [List.foldl_cons, ih]
      constructor
      · rintro ⟨_, hlonger, rest, rfl, hrest⟩
        obtain ⟨first, hfirst, kept, rfl, hkept⟩ := mem_extendMasks.mp hlonger
        exact ⟨first, hfirst, kept :: rest, by simp, hkept, hrest⟩
      · rintro ⟨first, hfirst, rest, rfl, hrest⟩
        cases rest with
        | nil => exact hrest.elim
        | cons kept rest =>
            refine ⟨first ++ [kept], ?_, rest, by simp, hrest.2⟩
            exact mem_extendMasks.mpr ⟨first, hfirst, kept, rfl, hrest.1⟩

theorem mem_masks {form : Form} {mask : List Bool} :
    mask ∈ n.masks form ↔ n.Allows form mask := by
  unfold masks
  rw [mem_foldl_extendMasks]
  simp

theorem allows_keepAll (form : Form) :
    n.Allows form (form.map fun _ => true) := by
  induction form with
  | nil => trivial
  | cons s form ih => exact ⟨by simp, ih⟩

theorem select_keepAll (form : Form) :
    Form.select (form.map fun _ => true) form = form := by
  induction form with
  | nil => rfl
  | cons s form ih => rw [List.map_cons, Form.select, ih]

/-! ## Variants -/

/-- What is left of a production by an allowed choice, if it is not empty. -/
structure IsVariant (n : Nullability) (p q : Production)
    (mask : List Bool) : Prop where
  allows : n.Allows p.rhs mask
  rhs_ne : Form.select mask p.rhs ≠ []
  eq_rule : ∃ head, p.head? = some head ∧
    q = .rule head (Form.select mask p.rhs)

def candidates (n : Nullability) (p : Production) : List (Form × List Bool) :=
  ((n.masks p.rhs).filter fun mask =>
    !(Form.select mask p.rhs).isEmpty).map fun mask =>
      (Form.select mask p.rhs, mask)

theorem mem_candidates {p : Production} {rhs : Form} {mask : List Bool} :
    (rhs, mask) ∈ n.candidates p ↔ n.Allows p.rhs mask ∧
      rhs ≠ [] ∧ rhs = Form.select mask p.rhs := by
  simp only [candidates, List.mem_map, List.mem_filter, mem_masks,
    Bool.not_eq_true', List.isEmpty_eq_false_iff, Prod.mk.injEq]
  constructor
  · rintro ⟨_, ⟨hallows, hne⟩, rfl, rfl⟩
    exact ⟨hallows, hne, rfl⟩
  · rintro ⟨hallows, hne, rfl⟩
    exact ⟨mask, ⟨hallows, hne⟩, rfl, rfl⟩

theorem variants_eq {p : Production} {head : Symbol}
    (hhead : p.head? = some head) :
    n.variants p = ((n.candidates p).foldl
      (fun cuts entry => cuts.insertIfNew entry.1 entry.2)
      (⟨[]⟩ : OrderedMap Form (List Bool))).entries.map
        fun entry => (.rule head entry.1, entry.2) := by
  unfold variants candidates
  rw [hhead, List.foldl_map]

theorem isVariant_of_mem_variants {p q : Production} {mask : List Bool}
    (hmem : (q, mask) ∈ n.variants p) : n.IsVariant p q mask := by
  cases hhead : p.head? with
  | none => simp [variants, hhead] at hmem
  | some head =>
      rw [variants_eq hhead] at hmem
      obtain ⟨⟨rhs, kept⟩, hentry, heq⟩ := List.mem_map.mp hmem
      cases heq
      rcases OrderedMap.mem_entries_foldl_insertIfNew hentry with hold | hnew
      · simp at hold
      · obtain ⟨hallows, hne, rfl⟩ := mem_candidates.mp hnew
        exact ⟨hallows, hne, head, hhead, rfl⟩

theorem exists_mem_variants {p q : Production} {mask : List Bool}
    (hvariant : n.IsVariant p q mask) :
    ∃ kept, (q, kept) ∈ n.variants p := by
  obtain ⟨head, hhead, rfl⟩ := hvariant.eq_rule
  rw [variants_eq hhead]
  have hkey : Form.select mask p.rhs ∈ ((n.candidates p).foldl
      (fun cuts entry => cuts.insertIfNew entry.1 entry.2)
      (⟨[]⟩ : OrderedMap Form (List Bool))).keys := by
    rw [OrderedMap.keys_foldl_insertIfNew, mem_extendNew]
    refine .inr (List.mem_map.mpr ⟨(Form.select mask p.rhs, mask), ?_, rfl⟩)
    exact mem_candidates.mpr ⟨hvariant.allows, hvariant.rhs_ne, rfl⟩
  obtain ⟨⟨rhs, kept⟩, hentry, heq⟩ := List.mem_map.mp hkey
  cases heq
  exact ⟨kept, List.mem_map.mpr ⟨_, hentry, rfl⟩⟩

end Nullability

/-! ## Origins -/

namespace LambdaElimination

open Nullability

variable {start : Symbol} {e : LambdaElimination}

def CutFrom (g : Grammar) (n : Nullability)
    (origins : OrderedMap Production Cut) : Prop :=
  ∀ entry ∈ origins.entries, entry.2.source ∈ g.productions ∧
    n.IsVariant entry.2.source entry.1 entry.2.kept

theorem isVariant_keepAll {n : Nullability} {p : Production}
    (hhead : p.hasHead = true) (hlambda : p.isLambda = false) :
    n.IsVariant p p (p.rhs.map fun _ => true) := by
  obtain ⟨head, hsome⟩ := Option.isSome_iff_exists.mp hhead
  refine ⟨allows_keepAll p.rhs, ?_, head, hsome, ?_⟩
  · rw [select_keepAll]
    simpa [Production.isLambda, hhead] using hlambda
  · rw [select_keepAll]
    exact Production.eq_rule_of_head? hsome

def allVariants (g : Grammar) (n : Nullability) : List (Production × Cut) :=
  g.productions.flatMap fun p =>
    (n.variants p).map fun entry => (entry.1, ⟨p, entry.2⟩)

def unchanged (g : Grammar) : OrderedMap Production Cut :=
  (g.productions.filter fun p => !p.isLambda).foldl
    (fun origins p => origins.insert p ⟨p, p.rhs.map fun _ => true⟩) ⟨[]⟩

theorem cutFrom_unchanged (hg : g.ContextFree) (n : Nullability) :
    CutFrom g n (unchanged g) := by
  apply List.foldlRecOn (motive := CutFrom g n)
  · exact fun _ hentry => absurd hentry List.not_mem_nil
  · intro origins horigins p hp entry hentry
    obtain ⟨hmem, hlambda⟩ := List.mem_filter.mp hp
    rcases OrderedMap.mem_entries_insert hentry with hold | rfl
    · exact horigins entry hold
    · exact ⟨hmem, isVariant_keepAll (hg p hmem) (by simpa using hlambda)⟩

theorem originsOf_eq (g : Grammar) (n : Nullability) :
    originsOf g n = (allVariants g n).foldl
      (fun origins entry => origins.insertIfNew entry.1 entry.2)
      (unchanged g) := by
  unfold originsOf allVariants unchanged
  rw [List.foldl_flatMap]
  simp only [List.foldl_map]

theorem cutFrom_originsOf (hg : g.ContextFree) (n : Nullability) :
    CutFrom g n (originsOf g n) := by
  rw [originsOf_eq]
  intro entry hentry
  rcases OrderedMap.mem_entries_foldl_insertIfNew hentry with hold | hnew
  · exact cutFrom_unchanged hg n entry hold
  · obtain ⟨p, hp, hmem⟩ := List.mem_flatMap.mp hnew
    obtain ⟨⟨q, kept⟩, hvariant, rfl⟩ := List.mem_map.mp hmem
    exact ⟨hp, isVariant_of_mem_variants hvariant⟩

theorem mem_keys_originsOf {n : Nullability} {p q : Production}
    {mask : List Bool} (hmem : p ∈ g.productions)
    (hvariant : n.IsVariant p q mask) : q ∈ (originsOf g n).keys := by
  obtain ⟨kept, hkept⟩ := exists_mem_variants hvariant
  rw [originsOf_eq, OrderedMap.keys_foldl_insertIfNew, mem_extendNew]
  refine .inr (List.mem_map.mpr ⟨(q, ⟨p, kept⟩), ?_, rfl⟩)
  exact List.mem_flatMap.mpr
    ⟨p, hmem, List.mem_map.mpr ⟨(q, kept), hkept, rfl⟩⟩

/-! ## The result -/

structure Describes (g : Grammar) (start : Symbol)
    (e : LambdaElimination) : Prop where
  contextFree : g.ContextFree
  nullability_eq : e.nullability = g.nullability
  grammar_eq : e.grammar = g.withProductions e.origins.keys
  start_iff : e.startDerivesLambda = g.nullability.contains start
  origins_eq : e.origins = originsOf g g.nullability

theorem describes_eliminateLambda
    (hstart : g.requireContextFree = .ok start) :
    ∃ e, g.eliminateLambda = .ok e ∧ Describes g start e := by
  refine ⟨⟨g.nullability,
    g.withProductions (originsOf g g.nullability).keys,
    g.nullability.contains start, originsOf g g.nullability⟩, ?_, ?_⟩
  · unfold Grammar.eliminateLambda
    rw [hstart]
    rfl
  · exact ⟨(Grammar.requireContextFree_eq_ok_iff.mp hstart).2, rfl, rfl, rfl, rfl⟩

theorem Describes.mem_productions (he : e.Describes g start)
    {q : Production} :
    q ∈ e.grammar.productions ↔ q ∈ e.origins.keys := by
  rw [he.grammar_eq, Grammar.productions_withProductions, mem_extendNew]
  simp

theorem Describes.consistent (he : e.Describes g start)
    (hg : g.Consistent) : e.grammar.Consistent := by
  rw [he.grammar_eq]
  exact hg.withProductions _

theorem Describes.exists_cut (he : e.Describes g start) {q : Production}
    (hmem : q ∈ e.grammar.productions) :
    ∃ cut, e.origins.get? q = some cut ∧ cut.source ∈ g.productions ∧
      g.nullability.IsVariant cut.source q cut.kept := by
  obtain ⟨cut, hget⟩ := OrderedMap.get?_of_mem_keys (he.mem_productions.mp hmem)
  have hentry := OrderedMap.mem_entries_of_get? hget
  rw [he.origins_eq] at hentry
  exact ⟨cut, hget, cutFrom_originsOf he.contextFree _ _ hentry⟩

theorem Describes.mem_of_isVariant (he : e.Describes g start)
    {p q : Production} {mask : List Bool} (hmem : p ∈ g.productions)
    (hvariant : g.nullability.IsVariant p q mask) :
    q ∈ e.grammar.productions := by
  rw [he.mem_productions, he.origins_eq]
  exact mem_keys_originsOf hmem hvariant

theorem Describes.requireContextFree_eq_ok (he : e.Describes g start)
    (hstart : g.requireContextFree = .ok start) :
    e.grammar.requireContextFree = .ok start := by
  rw [Grammar.requireContextFree_eq_ok_iff] at hstart ⊢
  refine ⟨?_, fun q hq => ?_⟩
  · rw [he.grammar_eq, Grammar.start_withProductions]
    exact hstart.1
  · obtain ⟨_, _, _, hvariant⟩ := he.exists_cut hq
    obtain ⟨head, hhead, rfl⟩ := hvariant.eq_rule
    rw [Production.hasHead, Production.head?_rule (Grammar.isVar_of_head? hhead)]
    rfl

theorem Describes.rhs_ne_nil (he : e.Describes g start) {q : Production}
    (hmem : q ∈ e.grammar.productions) : q.rhs ≠ [] := by
  obtain ⟨_, _, _, hvariant⟩ := he.exists_cut hmem
  obtain ⟨head, _, rfl⟩ := hvariant.eq_rule
  exact hvariant.rhs_ne

/-! ## Yields -/

theorem yields_select {form : Form} {mask : List Bool}
    (hallows : g.nullability.Allows form mask) :
    g.Yields form (Form.select mask form) := by
  induction form generalizing mask with
  | nil =>
      cases mask with
      | nil => exact .nil
      | cons => exact hallows.elim
  | cons s form ih =>
      cases mask with
      | nil => exact hallows.elim
      | cons kept mask =>
          have hrest := ih hallows.2
          cases kept with
          | true => exact .keep s hrest
          | false =>
              have hnull := Nullability.contains_iff_yields.mp (hallows.1 rfl)
              exact hnull.append hrest

theorem Describes.yields_of_yields (he : e.Describes g start)
    {form word : Form} (hyields : e.grammar.Yields form word) :
    g.Yields form word := by
  induction hyields with
  | nil => exact .nil
  | keep s _ ih => exact .keep s ih
  | @expand s q rest left right hmem hhead _ _ ihrhs ihrest =>
      obtain ⟨cut, _, hsource, hvariant⟩ := he.exists_cut hmem
      obtain ⟨head, hsole, rfl⟩ := hvariant.eq_rule
      rw [Production.head?_rule (Grammar.isVar_of_head? hsole),
        Option.some.injEq] at hhead
      subst hhead
      exact .expand cut.source hsource hsole
        ((yields_select hvariant.allows).trans ihrhs) ihrest

/-- What a form yields is yielded by what is left of it without the symbols
that yield the empty string. -/
theorem Describes.exists_yields_select (he : e.Describes g start)
    {form word : Form} (hyields : g.Yields form word) :
    ∃ mask, g.nullability.Allows form mask ∧
      e.grammar.Yields (Form.select mask form) word := by
  induction hyields with
  | nil => exact ⟨[], trivial, .nil⟩
  | keep s _ ih =>
      obtain ⟨mask, hallows, hrest⟩ := ih
      exact ⟨true :: mask, ⟨by simp, hallows⟩, .keep s hrest⟩
  | @expand s p rest left right hmem hhead hrhs _ ihrhs ihrest =>
      obtain ⟨mask, hallows, hselected⟩ := ihrhs
      obtain ⟨others, hothers, hrest⟩ := ihrest
      by_cases hempty : left = []
      · have hnull : g.Yields [s] left :=
          (Grammar.Yields.of_production hmem hhead).trans hrhs
        rw [hempty] at hnull ⊢
        exact ⟨false :: others,
          ⟨fun _ => Nullability.contains_iff_yields.mpr hnull, hothers⟩, hrest⟩
      · have hne : Form.select mask p.rhs ≠ [] := by
          intro hnil
          rw [hnil] at hselected
          exact hempty hselected.eq_nil
        have hvariant : g.nullability.IsVariant p
            (.rule s (Form.select mask p.rhs)) mask :=
          ⟨hallows, hne, s, hhead, rfl⟩
        exact ⟨true :: others, ⟨by simp, hothers⟩,
          .expand _ (he.mem_of_isVariant hmem hvariant)
            (Production.head?_rule (Grammar.isVar_of_head? hhead) _)
            hselected hrest⟩

/-- A symbol yields the same strings as before, but for the empty one. -/
theorem Describes.yields_iff (he : e.Describes g start) {s : Symbol}
    {word : Form} (hne : word ≠ []) :
    e.grammar.Yields [s] word ↔ g.Yields [s] word := by
  refine ⟨he.yields_of_yields, fun hyields => ?_⟩
  obtain ⟨mask, hallows, hselected⟩ := he.exists_yields_select hyields
  match mask, hallows with
  | [true], _ => exact hselected
  | [false], _ => exact absurd hselected.eq_nil hne

/-! ## Trees -/

/-- The children stay where symbols were kept, and a tree of the empty string
stands where one was dropped. -/
inductive Refills (g : Grammar) :
    Form → List Bool → List Tree → List Tree → Prop where
  | nil : Refills g [] [] [] []
  | kept {s : Symbol} {form : Form} {mask : List Bool} {child : Tree}
      {children after : List Tree} (hroot : child.root = s)
      (hrest : Refills g form mask children after) :
      Refills g (s :: form) (true :: mask) (child :: children) (child :: after)
  | dropped {s : Symbol} {form : Form} {mask : List Bool} {tree : Tree}
      {children after : List Tree} (hempty : IsEmptyTree g s tree)
      (hrest : Refills g form mask children after) :
      Refills g (s :: form) (false :: mask) children (tree :: after)

theorem refills_refill {form : Form} {mask : List Bool} {children : List Tree}
    (hallows : g.nullability.Allows form mask)
    (hroots : children.map Tree.root = Form.select mask form) :
    Refills g form mask children
      (refill g.nullability (form.zip mask) children) := by
  induction form generalizing mask children with
  | nil =>
      cases mask with
      | nil =>
          rw [List.map_eq_nil_iff.mp hroots]
          exact .nil
      | cons => exact hallows.elim
  | cons s form ih =>
      cases mask with
      | nil => exact hallows.elim
      | cons kept mask =>
          cases kept with
          | true =>
              rcases List.map_eq_cons_iff.mp hroots with
                ⟨child, children, rfl, hroot, hrest⟩
              exact .kept hroot (ih hallows.2 hrest)
          | false =>
              rcases Nullability.exists_emptyTree?_of_contains
                (hallows.1 rfl) with ⟨tree, htree, hempty⟩
              simp only [List.zip_cons_cons, refill, htree, Option.getD_some]
              exact .dropped hempty (ih hallows.2 hroots)

/-- Trees of the empty string add nothing to the frontier. -/
theorem Refills.spells {form : Form} {mask : List Bool}
    {children after : List Tree} (hrefills : Refills g form mask children after)
    (hvalid : Tree.AllValidFor g children) :
    Tree.Spells g form (Tree.frontierOfAll children) after := by
  induction hrefills with
  | nil => exact Tree.spells_nil
  | kept hroot _ ih => exact .cons hvalid.1 hroot rfl (ih hvalid.2)
  | dropped hempty _ ih =>
      exact .cons hempty.valid hempty.root_eq hempty.frontier_eq (ih hvalid)

theorem restoreAll_eq_map (trees : List Tree) :
    e.restoreAll trees = trees.map e.restore := by
  induction trees with
  | nil => rfl
  | cons tree trees ih => rw [restoreAll, ih, List.map_cons]

theorem Describes.refills_restore (he : e.Describes g start) {s : Symbol}
    {q : Production} {children : List Tree} (hmem : q ∈ e.grammar.productions)
    (hsole : q.head? = some s)
    (hroots : (children.map e.restore).map Tree.root = q.rhs) :
    ∃ cut after, e.origins.get? q = some cut ∧
      cut.source ∈ g.productions ∧ cut.source.head? = some s ∧
      e.restore (.node s q children) = .node s cut.source after ∧
      Refills g cut.source.rhs cut.kept (children.map e.restore) after := by
  rcases he.exists_cut hmem with ⟨cut, hget, hsource, hvariant⟩
  rcases hvariant.eq_rule with ⟨head, hhead, hrule⟩
  rw [hrule, Production.head?_rule (Grammar.isVar_of_head? hhead),
    Option.some.injEq] at hsole
  rw [hrule] at hroots
  subst hsole
  refine ⟨cut, _, hget, hsource, hhead, ?_,
    refills_refill hvariant.allows hroots⟩
  simp only [restore, hget, he.nullability_eq, restoreAll_eq_map]

theorem Describes.restores (he : e.Describes g start) (tree : Tree) :
    tree.ValidFor e.grammar → Tree.Restores g tree (e.restore tree) := by
  induction tree using Tree.induction with
  | leaf s => exact fun _ => Tree.restores_leaf s
  | node s q children ih =>
      intro hvalid
      rcases hvalid with ⟨hmem, hsole, hroots, hchildren⟩
      have hbelow := Tree.spells_map fun child hchild =>
        ih child hchild (Tree.allValidFor_iff.mp hchildren child hchild)
      rcases he.refills_restore hmem hsole (hbelow.roots_eq.trans hroots) with
        ⟨cut, after, _, hsource, hhead, heq, hrefills⟩
      have hafter := hrefills.spells hbelow.valid
      rw [hbelow.frontier_eq] at hafter
      rw [heq]
      exact hafter.node hsource hhead

end LambdaElimination

end FormalGrammars
