import FormalGrammars.Elimination.Unit
import FormalGrammars.Proofs.Elimination.Restoration
import FormalGrammars.Proofs.VariableGraph
import Mathlib.Logic.Relation

/-!
# Elimination of unit productions keeps the terminal strings

A variable leads to another when they are the same or a chain of unit
productions goes from one to the other.  The productions of the result are the
rules `A → α` where `A` leads to the head of a production with the right side
`α` that is no unit production; which of them are stored with an origin does
not matter for the language.  It matters for trees: there the chain of an
origin is put back above the node that borrowed.
-/

namespace FormalGrammars.UnitElimination

open VariableGraph (Walk)
open Relation (TransGen)

variable {g : Grammar} {start : Symbol} {e : UnitElimination}

/-! ## Chains of unit productions -/

/-- The same variable, or one at the end of a chain of unit productions. -/
def Leads (g : Grammar) (s t : Symbol) : Prop :=
  s = t ∨ ∃ path, Walk (.ofUnits g) s t path

theorem isVar_of_hasEdge {s t : Symbol}
    (hedge : (VariableGraph.ofUnits g).hasEdge s t = true) :
    s.isVar = true := by
  obtain ⟨_, p, _, hhead, _⟩ := VariableGraph.hasEdge_ofUnits.mp hedge
  exact Grammar.isVar_of_head? hhead

theorem Leads.isVar {s t : Symbol} (hleads : Leads g s t)
    (hvar : t.isVar = true) : s.isVar = true := by
  rcases hleads with rfl | ⟨path, hwalk⟩
  · exact hvar
  · cases hwalk with
    | edge hedge => exact isVar_of_hasEdge hedge
    | cons hedge _ => exact isVar_of_hasEdge hedge

theorem Leads.cons {s next t : Symbol} {p : Production}
    (hmem : p ∈ g.productions) (hhead : p.head? = some s)
    (hrhs : p.rhs = [next]) (hvar : next.isVar = true)
    (hleads : Leads g next t) : Leads g s t := by
  have hedge := VariableGraph.hasEdge_ofUnits.mpr ⟨hvar, p, hmem, hhead, hrhs⟩
  rcases hleads with rfl | ⟨path, hwalk⟩
  · exact .inr ⟨_, .edge hedge⟩
  · exact .inr ⟨_, .cons hedge hwalk⟩

theorem yields_of_hasEdge {s t : Symbol}
    (hedge : (VariableGraph.ofUnits g).hasEdge s t = true) :
    g.Yields [s] [t] := by
  obtain ⟨_, p, hmem, hhead, hrhs⟩ := VariableGraph.hasEdge_ofUnits.mp hedge
  exact hrhs ▸ .of_production hmem hhead

theorem Leads.yields {s t : Symbol} (hleads : Leads g s t) :
    g.Yields [s] [t] := by
  rcases hleads with rfl | ⟨path, hwalk⟩
  · exact .refl [s]
  · induction hwalk with
    | edge hedge => exact yields_of_hasEdge hedge
    | cons hedge _ ih => exact (yields_of_hasEdge hedge).trans ih

/-! ## Borrowed productions -/

/-- A production of the source of a walk, borrowed from the target. -/
inductive Borrows (g : Grammar) : Production → Borrowing → Prop where
  | intro {s t : Symbol} {path : List Symbol} {base : Production}
      (hwalk : Walk (.ofUnits g) s t path) (hmem : base ∈ g.productions)
      (hhead : base.head? = some t) (hunit : base.isUnit = false) :
      Borrows g (base.withHead s) ⟨unitChain path, base⟩

theorem mem_productionsOf {p : Production} {s : Symbol} :
    p ∈ g.productionsOf s ↔ p ∈ g.productions ∧ p.head? = some s := by
  simp [Grammar.productionsOf]

theorem borrows_of_mem_borrowedBy {s : Symbol} {q : Production}
    {borrowing : Borrowing}
    (hmem : (q, borrowing) ∈ g.borrowedBy (.ofUnits g) s) :
    Borrows g q borrowing := by
  obtain ⟨t, ht, hmem⟩ := List.mem_flatMap.mp hmem
  split at hmem
  next => simp at hmem
  next =>
    obtain ⟨path, hpath, hwalk⟩ :=
      VariableGraph.exists_path?_of_mem_dependencies ht
    simp only [hpath, List.mem_map, List.mem_filter, mem_productionsOf] at hmem
    obtain ⟨base, ⟨⟨hbase, hhead⟩, hunit⟩, heq⟩ := hmem
    cases heq
    exact .intro hwalk hbase hhead (by simpa using hunit)

theorem exists_mem_borrowedBy {s t : Symbol} {path : List Symbol}
    {base : Production} (hwalk : Walk (.ofUnits g) s t path) (hne : t ≠ s)
    (hmem : base ∈ g.productions) (hhead : base.head? = some t)
    (hunit : base.isUnit = false) :
    ∃ borrowing, (base.withHead s, borrowing) ∈
      g.borrowedBy (.ofUnits g) s := by
  have ht := VariableGraph.mem_dependencies_iff.mpr ⟨path, hwalk⟩
  obtain ⟨found, hfound, _⟩ :=
    VariableGraph.exists_path?_of_mem_dependencies ht
  refine ⟨⟨unitChain found, base⟩, List.mem_flatMap.mpr ⟨t, ht, ?_⟩⟩
  simp only [if_neg hne, hfound, List.mem_map, List.mem_filter,
    mem_productionsOf]
  exact ⟨base, ⟨⟨hmem, hhead⟩, by simpa using hunit⟩, rfl⟩

/-- All borrowings that are not productions of the grammar already. -/
def allBorrowings (g : Grammar) : List (Production × Borrowing) :=
  ((VariableGraph.ofUnits g).nodes.flatMap
    (g.borrowedBy (.ofUnits g))).filter fun entry =>
      entry.1 ∉ g.productions.filter fun p => !p.isUnit

/-! ## The result -/

structure Describes (g : Grammar) (e : UnitElimination) : Prop where
  contextFree : g.ContextFree
  start_eq : e.grammar.start = g.start
  consistent : g.Consistent → e.grammar.Consistent
  mem_iff : ∀ q, q ∈ e.grammar.productions ↔
    (q ∈ g.productions ∧ q.isUnit = false) ∨ q ∈ e.origins.keys
  borrows : ∀ entry ∈ e.origins.entries, Borrows g entry.1 entry.2
  mem_keys : ∀ entry ∈ allBorrowings g, entry.1 ∈ e.origins.keys

theorem describes_eliminateUnits (hstart : g.requireContextFree = .ok start) :
    ∃ e, g.eliminateUnits = .ok e ∧ Describes g e := by
  unfold Grammar.eliminateUnits
  rw [hstart]
  refine ⟨_, rfl, ?_⟩
  constructor
  · exact (Grammar.requireContextFree_eq_ok_iff.mp hstart).2
  · exact Grammar.start_withProductions _
  · exact fun hg => hg.withProductions _
  · intro q
    rw [Grammar.productions_withProductions, mem_extendNew, List.mem_append,
      List.mem_filter]
    simp
  · intro entry hentry
    rcases OrderedMap.mem_entries_foldl_insertIfNew hentry with hold | hnew
    · simp at hold
    · obtain ⟨s, _, hmem⟩ :=
        List.mem_flatMap.mp (List.mem_filter.mp hnew).1
      exact borrows_of_mem_borrowedBy hmem
  · intro entry hentry
    refine (OrderedMap.keys_foldl_insertIfNew (allBorrowings g) ⟨[]⟩).symm ▸ ?_
    exact mem_extendNew.mpr (.inr (List.mem_map.mpr ⟨entry, hentry, rfl⟩))

/-- The rules with the right sides of the variables that the head leads to. -/
theorem Describes.mem_productions_iff (he : Describes g e) {q : Production} :
    q ∈ e.grammar.productions ↔ ∃ s t base, Leads g s t ∧
      base ∈ g.productions ∧ base.head? = some t ∧ base.isUnit = false ∧
      q = .rule s base.rhs := by
  rw [he.mem_iff]
  constructor
  · rintro (⟨hmem, hunit⟩ | hkey)
    · obtain ⟨s, hhead⟩ :=
        Option.isSome_iff_exists.mp (he.contextFree q hmem)
      exact ⟨s, s, q, .inl rfl, hmem, hhead, hunit,
        Production.eq_rule_of_head? hhead⟩
    · obtain ⟨⟨_, borrowing⟩, hentry, rfl⟩ := List.mem_map.mp hkey
      obtain ⟨hwalk, hmem, hhead, hunit⟩ := he.borrows _ hentry
      exact ⟨_, _, _, .inr ⟨_, hwalk⟩, hmem, hhead, hunit, rfl⟩
  · rintro ⟨s, t, base, hleads, hmem, hhead, hunit, rfl⟩
    -- only what the grammar does not have already gets an origin
    by_cases hkept : Production.rule s base.rhs ∈ g.productions ∧
        (Production.rule s base.rhs).isUnit = false
    · exact .inl hkept
    · right
      have hne : t ≠ s := by
        rintro rfl
        rw [← Production.eq_rule_of_head? hhead] at hkept
        exact hkept ⟨hmem, hunit⟩
      obtain ⟨path, hwalk⟩ := hleads.resolve_left hne.symm
      obtain ⟨borrowing, hborrowing⟩ :=
        exists_mem_borrowedBy hwalk hne hmem hhead hunit
      have hnode : s ∈ (VariableGraph.ofUnits g).nodes := by
        cases hwalk with
        | edge hedge => exact VariableGraph.mem_nodes_of_hasEdge hedge
        | cons hedge _ => exact VariableGraph.mem_nodes_of_hasEdge hedge
      have hnew : Production.rule s base.rhs ∉
          g.productions.filter fun p => !p.isUnit := by
        intro hin
        obtain ⟨hmem, hunit⟩ := List.mem_filter.mp hin
        exact hkept ⟨hmem, by simpa using hunit⟩
      exact he.mem_keys (.rule s base.rhs, borrowing) (List.mem_filter.mpr
        ⟨List.mem_flatMap.mpr ⟨s, hnode, hborrowing⟩, decide_eq_true hnew⟩)

theorem Describes.requireContextFree_eq_ok (he : Describes g e)
    (hstart : g.requireContextFree = .ok start) :
    e.grammar.requireContextFree = .ok start := by
  rw [Grammar.requireContextFree_eq_ok_iff] at hstart ⊢
  refine ⟨he.start_eq.trans hstart.1, fun q hq => ?_⟩
  obtain ⟨s, t, base, hleads, _, hhead, _, rfl⟩ := he.mem_productions_iff.mp hq
  have hvar := hleads.isVar (Grammar.isVar_of_head? hhead)
  rw [Production.hasHead, Production.head?_rule hvar]
  rfl

theorem Describes.isUnit_eq_false (he : Describes g e) {q : Production}
    (hmem : q ∈ e.grammar.productions) : q.isUnit = false := by
  obtain ⟨s, t, base, hleads, hbase, hhead, hunit, rfl⟩ :=
    he.mem_productions_iff.mp hmem
  have hvar := hleads.isVar (Grammar.isVar_of_head? hhead)
  have hsome := he.contextFree base hbase
  rw [Production.isUnit, hsome, Bool.true_and] at hunit
  rw [Production.isUnit, Production.hasHead, Production.head?_rule hvar]
  exact hunit

theorem Describes.rhs_ne_nil (he : Describes g e)
    (hne : ∀ p ∈ g.productions, p.rhs ≠ []) {q : Production}
    (hmem : q ∈ e.grammar.productions) : q.rhs ≠ [] := by
  obtain ⟨_, _, base, _, hbase, _, _, rfl⟩ := he.mem_productions_iff.mp hmem
  exact hne base hbase

/-! ## Yields -/

theorem Describes.yields_of_yields (he : Describes g e) {form word : Form}
    (hyields : e.grammar.Yields form word) : g.Yields form word := by
  induction hyields with
  | nil => exact .nil
  | keep s _ ih => exact .keep s ih
  | @expand s q rest left right hmem hsole _ _ ihrhs ihrest =>
      obtain ⟨head, t, base, hleads, hbase, hhead, _, rfl⟩ :=
        he.mem_productions_iff.mp hmem
      have hvar := hleads.isVar (Grammar.isVar_of_head? hhead)
      rw [Production.head?_rule hvar, Option.some.injEq] at hsole
      subst hsole
      have hrhs : g.Yields [head] base.rhs :=
        hleads.yields.trans (.of_production hbase hhead)
      exact (hrhs.trans ihrhs).append ihrest

/-- A rule of the target of a unit production is one of the head, too. -/
theorem Describes.rule_mem_of_unit (he : Describes g e) {s t : Symbol}
    {p q : Production} (hp : p ∈ g.productions) (hhead : p.head? = some s)
    (hrhs : p.rhs = [t]) (hq : q ∈ e.grammar.productions)
    (hsole : q.head? = some t) :
    Production.rule s q.rhs ∈ e.grammar.productions := by
  obtain ⟨head, last, base, hleads, hbase, hlast, hunit, rfl⟩ :=
    he.mem_productions_iff.mp hq
  have hvar := hleads.isVar (Grammar.isVar_of_head? hlast)
  rw [Production.head?_rule hvar, Option.some.injEq] at hsole
  subst hsole
  exact he.mem_productions_iff.mpr ⟨s, last, base,
    hleads.cons hp hhead hrhs hvar, hbase, hlast, hunit, rfl⟩

theorem Describes.yields_terminal (he : Describes g e) {form word : Form}
    (hyields : g.Yields form word) (hword : Form.isTerminal word = true) :
    e.grammar.Yields form word := by
  induction hyields with
  | nil => exact .nil
  | keep s _ ih =>
      exact .keep s (ih (Grammar.isTerminal_cons.mp hword).2)
  | @expand s p rest left right hmem hhead _ _ ihrhs ihrest =>
      obtain ⟨hleft, hright⟩ := Grammar.isTerminal_append.mp hword
      have hvar := Grammar.isVar_of_head? hhead
      cases hunit : p.isUnit with
      | false =>
          have hkept := he.mem_productions_iff.mpr ⟨s, s, p, .inl rfl, hmem,
            hhead, hunit, Production.eq_rule_of_head? hhead⟩
          exact .expand p hkept hhead (ihrhs hleft) (ihrest hright)
      | true =>
          simp only [Production.isUnit, Bool.and_eq_true] at hunit
          split at hunit
          next t hrhs =>
            have hbelow := ihrhs hleft
            rw [hrhs] at hbelow
            obtain ⟨q, hq, hsole, hyields⟩ :=
              hbelow.exists_production hunit.2 hleft
            exact .expand _ (he.rule_mem_of_unit hmem hhead hrhs hq hsole)
              (Production.head?_rule hvar _) hyields (ihrest hright)
          next => exact absurd hunit.2 (by simp)

theorem Describes.yields_iff (he : Describes g e) {s : Symbol} {word : Form}
    (hword : Form.isTerminal word = true) :
    e.grammar.Yields [s] word ↔ g.Yields [s] word :=
  ⟨he.yields_of_yields, fun hyields => he.yields_terminal hyields hword⟩

/-! ## Trees -/

theorem restoreAll_eq_map (trees : List Tree) :
    e.restoreAll trees = trees.map e.restore := by
  induction trees with
  | nil => rfl
  | cons tree trees ih => rw [restoreAll, ih, List.map_cons]

theorem unitChain_cons {s next t : Symbol} {path : List Symbol}
    (hwalk : Walk (.ofUnits g) next t path) :
    unitChain (s :: path) = .rule s [next] :: unitChain path := by
  cases hwalk <;> rfl

/-- The whole is a tree with a unit production of the grammar on top. -/
inductive Links (g : Grammar) (below : Tree) : Tree → Prop where
  | intro {s : Symbol} {p : Production} (hmem : p ∈ g.productions)
      (hunit : p.isUnit = true) (hhead : p.head? = some s)
      (hrhs : p.rhs = [below.root]) : Links g below (.node s p [below])

theorem links_of_hasEdge {s next : Symbol} {below : Tree}
    (hedge : (VariableGraph.ofUnits g).hasEdge s next = true)
    (hroot : below.root = next) :
    Links g below (.node s (.rule s [next]) [below]) := by
  rcases VariableGraph.hasEdge_ofUnits.mp hedge with
    ⟨hvar, p, hmem, hhead, hrhs⟩
  have hrule : p = .rule s [next] := by
    rw [Production.eq_rule_of_head? hhead, hrhs]
  subst hrule
  have hunit : (Production.rule s [next]).isUnit = true := by
    simp [Production.isUnit, Production.hasHead, hhead, hrhs, hvar]
  exact .intro hmem hunit hhead (by rw [hrhs, hroot])

theorem Links.restores {below whole : Tree} (hlink : Links g below whole)
    (hvalid : below.ValidFor g) :
    whole.ValidFor g ∧ whole.frontier = below.frontier := by
  cases hlink with
  | intro hmem _ hhead hrhs =>
      constructor
      · exact ⟨hmem, hhead, hrhs.symm, hvalid, trivial⟩
      · simp [Tree.frontier, Tree.frontierOfAll]

/-- A chain over a tree leaves the frontier as it is. -/
theorem restores_of_links {below whole : Tree}
    (hlinks : TransGen (Links g) below whole) (hvalid : below.ValidFor g) :
    whole.ValidFor g ∧ whole.frontier = below.frontier := by
  induction hlinks with
  | single hfirst => exact hfirst.restores hvalid
  | tail _ hlast ih =>
      have hwhole := hlast.restores ih.1
      exact ⟨hwhole.1, hwhole.2.trans ih.2⟩

/-- The chain of a walk over a tree, one link for each edge. -/
theorem links_of_walk {s t fallback : Symbol} {path : List Symbol}
    {tree : Tree} (hwalk : Walk (.ofUnits g) s t path) (hroot : tree.root = t) :
    let whole := (unitChain path).foldr
      (fun link tree => .node (link.head?.getD fallback) link [tree]) tree
    TransGen (Links g) tree whole ∧ whole.root = s := by
  induction hwalk with
  | edge hedge =>
      have hvar := isVar_of_hasEdge hedge
      simp only [unitChain, List.foldr_cons, List.foldr_nil,
        Production.head?_rule hvar, Option.getD_some]
      exact ⟨.single (links_of_hasEdge hedge hroot), rfl⟩
  | cons hedge hrest ih =>
      have hvar := isVar_of_hasEdge hedge
      rcases ih hroot with ⟨hlinks, hnext⟩
      simp only [unitChain_cons hrest, List.foldr_cons,
        Production.head?_rule hvar, Option.getD_some]
      exact ⟨hlinks.tail (links_of_hasEdge hedge hnext), rfl⟩

/-- A borrowed production is replaced by the production that it was borrowed
from, below its chain. -/
theorem Describes.links_restore (he : Describes g e) {s : Symbol}
    {q : Production} {children : List Tree} {origin : Borrowing}
    (hsole : q.head? = some s) (hget : e.origins.get? q = some origin) :
    ∃ t, origin.base ∈ g.productions ∧ origin.base.head? = some t ∧
      origin.base.isUnit = false ∧ origin.base.rhs = q.rhs ∧
      TransGen (Links g) (.node t origin.base (children.map e.restore))
        (e.restore (.node s q children)) ∧
      (e.restore (.node s q children)).root = s := by
  cases he.borrows _ (OrderedMap.mem_entries_of_get? hget) with
  | @intro head t path base hwalk hbase hhead hunit =>
      have hvar := Leads.isVar (.inr ⟨path, hwalk⟩)
        (Grammar.isVar_of_head? hhead)
      have hsame : head = s :=
        Option.some.inj ((Production.head?_rule hvar _).symm.trans hsole)
      subst hsame
      have hroot : (Tree.node t base (children.map e.restore)).root = t := rfl
      rcases links_of_walk hwalk hroot with ⟨hlinks, hwhole⟩
      refine ⟨t, hbase, hhead, hunit, rfl, ?_⟩
      simp only [restore, hget, hhead, Option.getD_some, restoreAll_eq_map]
      exact ⟨hlinks, hwhole⟩

theorem Describes.restores (he : Describes g e) (tree : Tree) :
    tree.ValidFor e.grammar → Tree.Restores g tree (e.restore tree) := by
  induction tree using Tree.induction with
  | leaf s => exact fun _ => Tree.restores_leaf s
  | node s q children ih =>
      intro hvalid
      rcases hvalid with ⟨hmem, hsole, hroots, hchildren⟩
      have hbelow := Tree.spells_map fun child hchild =>
        ih child hchild (Tree.allValidFor_iff.mp hchildren child hchild)
      rw [hroots] at hbelow
      cases hget : e.origins.get? q with
      | none =>
          have hnew := OrderedMap.get?_eq_none_iff.mp hget
          have hkept := ((he.mem_iff q).mp hmem).resolve_right hnew
          simp only [restore, hget, restoreAll_eq_map]
          exact hbelow.node hkept.1 hsole
      | some origin =>
          rcases he.links_restore hsole hget with
            ⟨t, hbase, hhead, _, hrhs, hlinks, hroot⟩
          have hnode : (Tree.node t origin.base
              (children.map e.restore)).ValidFor g :=
            ⟨hbase, hhead, hbelow.roots_eq.trans hrhs.symm, hbelow.valid⟩
          rcases restores_of_links hlinks hnode with ⟨hwhole, hfrontier⟩
          exact ⟨hwhole, hroot, hfrontier.trans hbelow.frontier_eq⟩

end FormalGrammars.UnitElimination
