import FormalGrammars.NormalForm.Chomsky
import FormalGrammars.Proofs.Elimination.Restoration
import FormalGrammars.Proofs.NormalForm.Splitting

/-!
# Chomsky normal form keeps the terminal strings

What a rule produces is yielded from its head in normal form, by induction on
the length of its right side: a stand-in for a part of a right side has a
shorter rule.  The other direction is about trees.  A tree in normal form is
opened along the rules that emitted its productions, and a node of a stand-in
is opened into one tree for each symbol that it stands for.
-/

namespace FormalGrammars

/-! ## Productions in normal form -/

section Emission

variable {rules : List Production}

theorem Cuts.two_le_length {heads pair : Form} (hcuts : Cuts rules heads pair) :
    2 ≤ heads.length := by
  cases hcuts with
  | pair first second => simp
  | chain first hlong _ =>
      rw [List.length_cons]
      omega

theorem Cuts.exists_pair {heads pair : Form} (hcuts : Cuts rules heads pair)
    (hheads : ∀ s ∈ heads, s.isVar = true) :
    ∃ first second, pair = [first, second] ∧ first.isVar = true ∧
      second.isVar = true := by
  cases hcuts with
  | pair first second =>
      exact ⟨first, second, rfl, hheads first (by simp),
        hheads second (by simp)⟩
  | chain first _ hstands =>
      exact ⟨first, _, rfl, hheads first (by simp), hstands.isVar⟩

/-- What is emitted has a terminal or two variables on the right. -/
theorem Emits.rhs_cases {p q : Production} (hemits : Emits rules p q) :
    (∃ t, t.isTerm = true ∧ q.rhs = [t]) ∨
      ∃ first second, first.isVar = true ∧ second.isVar = true ∧
        q.rhs = [first, second] := by
  cases hemits with
  | terminal _ hterm => exact .inl ⟨_, hterm, rfl⟩
  | split hsplits =>
      obtain ⟨heads, hreplaces, hcuts⟩ := hsplits.exists_heads
      obtain ⟨first, second, hpair, hfirst, hsecond⟩ :=
        hcuts.exists_pair hreplaces.isVar
      exact .inr ⟨first, second, hfirst, hsecond, hpair⟩

theorem Emits.isChomsky {p q : Production} (hemits : Emits rules p q)
    (hhead : p.hasHead = true) : q.isChomsky = true := by
  have hsole : q.hasHead = true := by
    rw [Production.hasHead, hemits.head_eq]
    exact hhead
  rw [Production.isChomsky, hsole, Bool.true_and]
  rcases hemits.rhs_cases with
    ⟨t, hterm, hrhs⟩ | ⟨first, second, hfirst, hsecond, hrhs⟩
  · rw [hrhs]
    exact hterm
  · rw [hrhs]
    simp [hfirst, hsecond]

end Emission

namespace ChomskyForm

variable {g : Grammar} {start : Symbol} {c : ChomskyForm}

/-! ## The result -/

def rules (g : Grammar) (c : ChomskyForm) : List Production :=
  g.productions ++ c.helpers.entries.map fun entry => .rule entry.1 entry.2

structure Describes (g : Grammar) (c : ChomskyForm) : Prop where
  start_eq : c.grammar.start = g.start
  consistent : c.grammar.Consistent
  head_isSome : ∀ p ∈ c.rules g, p.hasHead = true
  helpers_new : ∀ p ∈ g.productions, ∀ s ∈ p.symbols, s ∉ c.helpers.keys
  emitted : ∀ q ∈ c.grammar.productions,
    ∃ p ∈ c.rules g, Emits (c.rules g) p q
  known : ∀ q ∈ c.grammar.productions, ∀ s, q.head? = some s →
    s ∈ c.helpers.keys ∨ q ∈ g.productions ∨ q ∈ c.origins.keys
  covers : ∀ p ∈ c.rules g,
    ∃ q ∈ c.grammar.productions, Emits (c.rules g) p q
  origins : ∀ entry ∈ c.origins.entries, entry.2 ∈ g.productions ∧
    Splits (c.rules g) entry.2 entry.1

theorem describes_finish (hg : g.Consistent) (hfree : g.ContextFree)
    {last : Splitting} (hlast : Splitting.Complete g g.productions last)
    (hc : last.finish g = .ok c) : Describes g c := by
  rcases Splitting.finish_eq_ok_iff.mp hc with ⟨_, rfl⟩
  have houtput : ∀ q, q ∈ (g.withProductions last.output).productions ↔
      q ∈ last.output := by
    intro q
    rw [Grammar.productions_withProductions, mem_extendNew]
    simp
  refine ⟨Grammar.start_withProductions _, hg.withProductions _, ?_,
    hlast.sound.helpers_new, ?_, ?_, ?_, hlast.sound.origins⟩
  · intro p hp
    rcases List.mem_append.mp hp with hold | hhelper
    · exact hfree p hold
    · obtain ⟨entry, hentry, rfl⟩ := List.mem_map.mp hhelper
      rw [Production.hasHead, hlast.sound.head?_helperRule hentry]
      rfl
  · exact fun q hq => (hlast.accounted q ((houtput q).mp hq)).emitted
  · exact fun q hq => (hlast.accounted q ((houtput q).mp hq)).known
  · intro p hp
    obtain ⟨q, hq, hemits⟩ := hlast.covers_rule hp
    exact ⟨q, (houtput q).mpr hq, hemits⟩

theorem exists_last (hstart : g.requireContextFree = .ok start)
    {naming : Naming} (hc : g.toChomskyForm naming = .ok c) :
    ∃ last, g.productions.foldlM (fun c p => (c.split p).map Prod.snd)
        (Splitting.ofGrammar g naming) = .ok last ∧
      last.finish g = .ok c := by
  unfold Grammar.toChomskyForm at hc
  rw [hstart] at hc
  cases hfold : g.productions.foldlM
      (fun c p => (c.split p).map Prod.snd) (Splitting.ofGrammar g naming) with
  | error fault =>
      simp only [bind, Except.bind, hfold] at hc
      cases hc
  | ok last =>
      simp only [bind, Except.bind, hfold] at hc
      exact ⟨last, rfl, hc⟩

theorem describes_toChomskyForm (hg : g.Consistent)
    (hstart : g.requireContextFree = .ok start) {naming : Naming}
    (hc : g.toChomskyForm naming = .ok c) : Describes g c := by
  have hfree := (Grammar.requireContextFree_eq_ok_iff.mp hstart).2
  obtain ⟨last, hfold, hfinish⟩ := exists_last hstart hc
  exact describes_finish hg hfree
    ((Splitting.complete_ofGrammar hg hfree naming).foldlM hfree
      (fun p hp => hp) hfold) hfinish

theorem Describes.isChomsky (hc : c.Describes g) {q : Production}
    (hmem : q ∈ c.grammar.productions) : q.isChomsky = true := by
  obtain ⟨p, hp, hemits⟩ := hc.emitted q hmem
  exact hemits.isChomsky (hc.head_isSome p hp)

theorem Describes.requireContextFree_eq_ok (hc : c.Describes g)
    (hstart : g.requireContextFree = .ok start) :
    c.grammar.requireContextFree = .ok start := by
  rw [Grammar.requireContextFree_eq_ok_iff] at hstart ⊢
  exact ⟨hc.start_eq.trans hstart.1,
    fun _ hq => Production.hasHead_of_isChomsky (hc.isChomsky hq)⟩

/-! ## Yields -/

theorem yields_of_replaces {rules : List Production} {h : Grammar}
    {form heads : Form} (hreplaces : Replaces rules form heads)
    (hterminal : ∀ s t, Stands rules s [t] → h.Yields [s] [t]) :
    h.Yields heads form := by
  induction hreplaces with
  | nil => exact .nil
  | keep _ _ ih => exact .keep _ ih
  | replace _ hstands _ ih => exact (hterminal _ _ hstands).append ih

theorem yields_of_cuts {rules : List Production} {h : Grammar}
    {heads pair : Form} (hcuts : Cuts rules heads pair)
    (hrest : ∀ s rest, rest.length < heads.length → Stands rules s rest →
      h.Yields [s] rest) : h.Yields pair heads := by
  cases hcuts with
  | pair first second => exact .refl _
  | chain first _ hstands =>
      refine .keep first (hrest _ _ ?_ hstands)
      rw [List.length_cons]
      omega

/-- The head of a rule yields the right side in normal form. -/
theorem Describes.yields_rule (hc : c.Describes g) {p : Production}
    {s : Symbol} (hmem : p ∈ c.rules g) (hhead : p.head? = some s) :
    c.grammar.Yields [s] p.rhs := by
  induction hlength : p.rhs.length using Nat.strongRecOn generalizing p s with
  | ind length ih =>
      have hshorter : ∀ t form, form.length < length →
          Stands (c.rules g) t form → c.grammar.Yields [t] form :=
        fun t form hlt hstands => ih form.length hlt hstands.rule_mem
          (Production.head?_rule hstands.isVar form) rfl
      obtain ⟨q, hq, hemits⟩ := hc.covers p hmem
      have hsole := hemits.head_eq.trans hhead
      have hfirst := Grammar.Yields.of_production hq hsole
      cases hemits with
      | terminal => exact hfirst
      | split hsplits =>
          obtain ⟨heads, hreplaces, hcuts⟩ := hsplits.exists_heads
          -- a stand-in, for a terminal or for the rest, has a shorter rule
          have hlong := hcuts.two_le_length
          have hsame := hreplaces.length_eq
          have hback : c.grammar.Yields heads p.rhs :=
            yields_of_replaces hreplaces fun t u hstands =>
              hshorter t [u] (by rw [List.length_singleton]; omega) hstands
          refine (hfirst.trans ?_).trans hback
          exact yields_of_cuts hcuts fun t rest hlt hstands =>
            hshorter t rest (by omega) hstands

theorem Describes.yields_of_yields (hc : c.Describes g) {form word : Form}
    (hyields : g.Yields form word) : c.grammar.Yields form word := by
  induction hyields with
  | nil => exact .nil
  | keep s _ ih => exact .keep s ih
  | expand p hmem hhead _ _ ihrhs ihrest =>
      have hrule := hc.yields_rule (List.mem_append_left _ hmem) hhead
      exact (hrule.trans ihrhs).append ihrest

/-! ## Trees -/

theorem Describes.eq_of_stands_terminal (hc : c.Describes g) {s t : Symbol}
    {word : Form} (hstands : Stands (c.rules g) s [t])
    (hterm : t.isTerm = true) (hword : Form.isTerminal word = true)
    (hyields : c.grammar.Yields [s] word) : word = [t] := by
  obtain ⟨q, hq, hhead, hbelow⟩ :=
    hyields.exists_production hstands.isVar hword
  obtain ⟨p, hp, hemits⟩ := hc.emitted q hq
  have hrhs := hstands.rhs_eq p hp (hemits.head_eq.symm.trans hhead)
  cases hemits with
  | terminal =>
      rw [hrhs] at hbelow
      obtain ⟨tail, rfl, hnil⟩ := hbelow.of_isTerm hterm
      rw [hnil.eq_nil]
  | split hsplits =>
      obtain ⟨heads, hreplaces, hcuts⟩ := hsplits.exists_heads
      have hlong := hcuts.two_le_length
      rw [hreplaces.length_eq, hrhs, List.length_singleton] at hlong
      omega

/-- A production of a stand-in for variables is cut from just these. -/
theorem Describes.cuts_of_stands (hc : c.Describes g) {q : Production}
    {s : Symbol} {heads : Form} (hq : q ∈ c.grammar.productions)
    (hhead : q.head? = some s) (hstands : Stands (c.rules g) s heads)
    (hlong : 2 ≤ heads.length) (hheads : ∀ t ∈ heads, t.isVar = true) :
    Cuts (c.rules g) heads q.rhs := by
  obtain ⟨p, hp, hemits⟩ := hc.emitted q hq
  have hrhs := hstands.rhs_eq p hp (hemits.head_eq.symm.trans hhead)
  cases hemits with
  | terminal =>
      rw [← hrhs] at hlong
      simp [Production.rule] at hlong
  | split hsplits =>
      obtain ⟨others, hreplaces, hcuts⟩ := hsplits.exists_heads
      rw [hrhs] at hreplaces
      rwa [hreplaces.eq_of_isVar hheads] at hcuts

/-- What is claimed of a tree with a terminal frontier: it is restored below
a symbol of the grammar, and below a stand-in it is opened. -/
structure Restorable (g : Grammar) (c : ChomskyForm) (tree : Tree) : Prop where
  restores : tree.root ∉ c.helpers.keys → Tree.Restores g tree (c.restore tree)
  opens : ∀ form heads, (∀ s ∈ form, s ∉ c.helpers.keys) →
    Replaces (c.rules g) form heads → 2 ≤ heads.length →
    Stands (c.rules g) tree.root heads →
    Tree.Spells g form tree.frontier (c.restoreInside form tree)

def restoreSymbol (c : ChomskyForm) (s : Symbol) (tree : Tree) : Tree :=
  if s.isTerm then .leaf s else c.restore tree

theorem Describes.restores_symbol (hc : c.Describes g) {s head : Symbol}
    {form heads : Form} {tree : Tree} (hs : s ∉ c.helpers.keys)
    (hreplaces : Replaces (c.rules g) (s :: form) (head :: heads))
    (hroot : tree.root = head) (hvalid : tree.ValidFor c.grammar)
    (hword : Form.isTerminal tree.frontier = true)
    (htree : Restorable g c tree) :
    (c.restoreSymbol s tree).ValidFor g ∧ (c.restoreSymbol s tree).root = s ∧
      (c.restoreSymbol s tree).frontier = tree.frontier := by
  unfold restoreSymbol
  cases hreplaces with
  | keep hvar _ =>
      rw [Symbol.isTerm_eq_false hvar]
      have hrestored := htree.restores (hroot ▸ hs)
      exact ⟨hrestored.valid, hrestored.root_eq.trans hroot,
        hrestored.frontier_eq⟩
  | replace hterm hstands _ =>
      rw [if_pos hterm]
      have hyields := Tree.ValidFor.yields tree hvalid
      rw [hroot] at hyields
      have hword := hc.eq_of_stands_terminal hstands hterm hword hyields
      exact ⟨trivial, rfl, hword.symm⟩

theorem restoreOnto_pair {s t : Symbol} {left right : Tree} :
    c.restoreOnto [s, t] [left, right] =
      [c.restoreSymbol s left, c.restoreSymbol t right] := rfl

theorem restoreOnto_chain {s t u : Symbol} {more : Form} {left right : Tree} :
    c.restoreOnto (s :: t :: u :: more) [left, right] =
      c.restoreSymbol s left :: c.restoreInside (t :: u :: more) right := rfl

/-- The children of a cut are restored onto the form that was cut. -/
theorem Describes.spells_restoreOnto (hc : c.Describes g)
    {form heads : Form} {children : List Tree}
    (hform : ∀ s ∈ form, s ∉ c.helpers.keys)
    (hreplaces : Replaces (c.rules g) form heads)
    (hcuts : Cuts (c.rules g) heads (children.map Tree.root))
    (hvalid : Tree.AllValidFor c.grammar children)
    (hword : Form.isTerminal (Tree.frontierOfAll children) = true)
    (hchildren : ∀ child ∈ children, Restorable g c child) :
    Tree.Spells g form (Tree.frontierOfAll children)
      (c.restoreOnto form children) := by
  generalize hpair : children.map Tree.root = pair at hcuts
  obtain ⟨first, second, rfl, _⟩ := hcuts.exists_pair hreplaces.isVar
  obtain ⟨left, others, rfl, hleft, hothers⟩ := List.map_eq_cons_iff.mp hpair
  obtain ⟨right, none, rfl, hright, hnone⟩ := List.map_eq_cons_iff.mp hothers
  rw [List.map_eq_nil_iff.mp hnone] at hvalid hword hchildren ⊢
  simp only [Tree.frontierOfAll, List.append_nil] at hword ⊢
  obtain ⟨hleftWord, hrightWord⟩ := Grammar.isTerminal_append.mp hword
  have hleftTree := hchildren left List.mem_cons_self
  have hrightTree := hchildren right (by simp)
  cases hcuts with
  | pair =>
      obtain ⟨s, rest, rfl, hrest⟩ := hreplaces.exists_cons
      obtain ⟨t, more, rfl, hmore⟩ := hrest.exists_cons
      cases hmore
      obtain ⟨hvalidLeft, hrootLeft, hfrontierLeft⟩ := hc.restores_symbol
        (hform s (by simp)) hreplaces hleft hvalid.1 hleftWord hleftTree
      obtain ⟨hvalidRight, hrootRight, hfrontierRight⟩ := hc.restores_symbol
        (hform t (by simp)) hrest hright hvalid.2.1 hrightWord hrightTree
      have hlast := Tree.Spells.cons hvalidRight hrootRight hfrontierRight
        Tree.spells_nil
      rw [restoreOnto_pair]
      rw [List.append_nil] at hlast
      exact hlast.cons hvalidLeft hrootLeft hfrontierLeft
  | chain _ hlong hstands =>
      obtain ⟨s, rest, rfl, hrest⟩ := hreplaces.exists_cons
      obtain ⟨hvalidLeft, hrootLeft, hfrontierLeft⟩ := hc.restores_symbol
        (hform s (by simp)) hreplaces hleft hvalid.1 hleftWord hleftTree
      have hopened := hrightTree.opens rest _
        (fun t ht => hform t (List.mem_cons_of_mem s ht)) hrest hlong
        (hright ▸ hstands)
      rw [hrest.length_eq] at hlong
      cases rest with
      | nil => simp at hlong
      | cons t rest =>
          cases rest with
          | nil => simp at hlong
          | cons u more =>
              rw [restoreOnto_chain]
              exact hopened.cons hvalidLeft hrootLeft hfrontierLeft

theorem isTerminal_frontier {trees : List Tree}
    (hword : Form.isTerminal (Tree.frontierOfAll trees) = true) :
    ∀ tree ∈ trees, Form.isTerminal tree.frontier = true := by
  induction trees with
  | nil => simp
  | cons tree trees ih =>
      obtain ⟨hfirst, hrest⟩ := Grammar.isTerminal_append.mp hword
      exact List.forall_mem_cons.mpr ⟨hfirst, ih hrest⟩

theorem restoreAll_eq_map (trees : List Tree) :
    c.restoreAll trees = trees.map c.restore := by
  induction trees with
  | nil => rfl
  | cons tree trees ih => rw [restoreAll, ih, List.map_cons]

theorem Describes.restorable (hc : c.Describes g) (tree : Tree) :
    tree.ValidFor c.grammar → Form.isTerminal tree.frontier = true →
      Restorable g c tree := by
  induction tree using Tree.induction with
  | leaf s =>
      intro _ hword
      refine ⟨fun _ => Tree.restores_leaf s, fun _ _ _ _ _ hstands => ?_⟩
      have hterm : s.isTerm = true := by
        simpa [Tree.frontier, Form.isTerminal] using hword
      exact absurd hstands.isVar (Symbol.not_isVar_of_isTerm hterm)
  | node s q children ih =>
      rintro ⟨hmem, hhead, hroots, hchildren⟩ hword
      have hbelow : ∀ child ∈ children, Restorable g c child :=
        fun child hchild => ih child hchild
          (Tree.allValidFor_iff.mp hchildren child hchild)
          (isTerminal_frontier hword child hchild)
      constructor
      · intro hs
        cases hget : c.origins.get? q with
        | none =>
            have hnew := OrderedMap.get?_eq_none_iff.mp hget
            have hold : q ∈ g.productions :=
              ((hc.known q hmem s hhead).resolve_left hs).resolve_right hnew
            have hmap := Tree.spells_map fun child hchild =>
              (hbelow child hchild).restores (hc.helpers_new q hold _ (by
                refine List.mem_append_right _ (hroots ▸ ?_)
                exact List.mem_map.mpr ⟨child, hchild, rfl⟩))
            rw [hroots] at hmap
            simp only [restore, hget, restoreAll_eq_map]
            exact hmap.node hold hhead
        | some source =>
            obtain ⟨hsource, hsplits⟩ :=
              hc.origins _ (OrderedMap.mem_entries_of_get? hget)
            obtain ⟨heads, hreplaces, hcuts⟩ := hsplits.exists_heads
            have hspells := hc.spells_restoreOnto
              (fun t ht => hc.helpers_new source hsource t
                (List.mem_append_right _ ht))
              hreplaces (hroots ▸ hcuts) hchildren hword hbelow
            simp only [restore, hget]
            exact hspells.node hsource (hsplits.head_eq.symm.trans hhead)
      · -- the tree stands for the whole form, whatever its own production
        intro form heads hform hreplaces hlong hstands
        have hcuts := hc.cuts_of_stands hmem hhead hstands hlong
          hreplaces.isVar
        exact hc.spells_restoreOnto hform hreplaces (hroots ▸ hcuts)
          hchildren hword hbelow

theorem Describes.restores (hc : c.Describes g) {tree : Tree}
    (hvalid : tree.ValidFor c.grammar)
    (hword : Form.isTerminal tree.frontier = true)
    (hroot : tree.root ∉ c.helpers.keys) :
    Tree.Restores g tree (c.restore tree) :=
  (hc.restorable tree hvalid hword).restores hroot

end ChomskyForm

end FormalGrammars
