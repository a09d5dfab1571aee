import FormalGrammars.Derivation.Relation
import FormalGrammars.Derivation.Tree
import FormalGrammars.Grammar.Consistency

/-!
# Yields of context-free grammars

In a context-free grammar the symbols of a form are rewritten independently
of each other.  `Yields` describes a whole derivation at once: every symbol of
the form is either kept, or expanded by a production whose right side yields
in turn.  It agrees with step-by-step rewriting, and its derivations are the
forests of valid trees.
-/

namespace FormalGrammars.Grammar

def ContextFree (g : Grammar) : Prop :=
  ∀ p ∈ g.productions, p.hasHead = true

theorem requireStart_eq_ok_iff {g : Grammar} {start : Symbol} :
    g.requireStart = .ok start ↔ g.start = some start := by
  unfold requireStart
  cases g.start <;> simp

theorem requireContextFree_eq_ok_iff {g : Grammar} {start : Symbol} :
    g.requireContextFree = .ok start ↔
      g.start = some start ∧ g.ContextFree := by
  unfold requireContextFree requireStart ContextFree
  cases hstart : g.start with
  | none => simp [bind, Except.bind]
  | some s =>
      cases hfind : g.productions.find? fun p => !p.hasHead with
      | none =>
          have hall := List.find?_eq_none.mp hfind
          simp only [bind, Except.bind, Except.ok.injEq, Option.some.injEq]
          refine ⟨fun h => ⟨h, fun p hp => ?_⟩, And.left⟩
          simpa using hall p hp
      | some p =>
          have hmem := List.mem_of_find?_eq_some hfind
          have hhead := List.find?_some hfind
          simp only [bind, Except.bind, Option.some.injEq]
          refine ⟨fun h => by simp at h, ?_⟩
          rintro ⟨_, hall⟩
          have htrue := hall p hmem
          rw [htrue] at hhead
          simp at hhead

theorem isVar_of_head? {p : Production} {s : Symbol}
    (hhead : p.head? = some s) : s.isVar = true :=
  (Production.head?_eq_some_iff.mp hhead).2

/-- Each symbol of the form is kept or expanded. -/
inductive Yields (g : Grammar) : Form → Form → Prop where
  | nil : Yields g [] []
  | keep (s : Symbol) {rest result : Form} (hrest : Yields g rest result) :
      Yields g (s :: rest) (s :: result)
  | expand {s : Symbol} (p : Production) {rest left right : Form}
      (hmem : p ∈ g.productions) (hhead : p.head? = some s)
      (hrhs : Yields g p.rhs left) (hrest : Yields g rest right) :
      Yields g (s :: rest) (left ++ right)

variable {g h : Grammar}

/-! ## Composition -/

theorem Yields.refl (form : Form) : g.Yields form form := by
  induction form with
  | nil => exact .nil
  | cons s rest ih => exact .keep s ih

theorem Yields.append {first second left right : Form}
    (hleft : g.Yields first left) (hright : g.Yields second right) :
    g.Yields (first ++ second) (left ++ right) := by
  induction hleft with
  | nil => exact hright
  | keep s _ ih => exact .keep s ih
  | expand p hmem hhead hrhs _ _ ih =>
      rw [List.append_assoc]
      exact .expand p hmem hhead hrhs ih

/-- What two adjacent forms yield is cut between them. -/
theorem Yields.exists_append {first second result : Form}
    (hyields : g.Yields (first ++ second) result) :
    ∃ left right, result = left ++ right ∧
      g.Yields first left ∧ g.Yields second right := by
  generalize hform : first ++ second = form at hyields
  induction hyields generalizing first with
  | nil =>
      obtain ⟨rfl, rfl⟩ := List.append_eq_nil_iff.mp hform
      exact ⟨[], [], rfl, .nil, .nil⟩
  | @keep s rest result hrest ih =>
      cases first with
      | nil =>
          subst hform
          exact ⟨[], s :: result, rfl, .nil, .keep s hrest⟩
      | cons t first =>
          simp only [List.cons_append, List.cons.injEq] at hform
          obtain ⟨rfl, hform⟩ := hform
          obtain ⟨left, right, rfl, hleft, hright⟩ := ih hform
          exact ⟨t :: left, right, rfl, .keep t hleft, hright⟩
  | @expand s p rest below behind hmem hhead hrhs hrest _ ih =>
      cases first with
      | nil =>
          subst hform
          exact ⟨[], below ++ behind, rfl, .nil,
            .expand p hmem hhead hrhs hrest⟩
      | cons t first =>
          simp only [List.cons_append, List.cons.injEq] at hform
          obtain ⟨rfl, hform⟩ := hform
          obtain ⟨left, right, rfl, hleft, hright⟩ := ih hform
          exact ⟨below ++ left, right, by rw [List.append_assoc],
            .expand p hmem hhead hrhs hleft, hright⟩

theorem Yields.exists_cons {s : Symbol} {rest result : Form}
    (hyields : g.Yields (s :: rest) result) :
    ∃ left right, result = left ++ right ∧
      g.Yields [s] left ∧ g.Yields rest right :=
  Yields.exists_append hyields

theorem Yields.trans {first second last : Form}
    (hleft : g.Yields first second) (hright : g.Yields second last) :
    g.Yields first last := by
  induction hleft generalizing last with
  | nil => exact hright
  | keep s _ ih =>
      obtain ⟨head, tail, rfl, hhead, htail⟩ :=
        hright.exists_cons
      exact .append hhead (ih htail)
  | expand p hmem hhead _ _ ihrhs ihrest =>
      obtain ⟨below, behind, rfl, hbelow, hbehind⟩ := hright.exists_append
      exact .expand p hmem hhead (ihrhs hbelow) (ihrest hbehind)

theorem Yields.of_production {p : Production} {s : Symbol}
    (hmem : p ∈ g.productions) (hhead : p.head? = some s) :
    g.Yields [s] p.rhs := by
  have hyields := Yields.expand p hmem hhead (Yields.refl p.rhs) .nil
  rwa [List.append_nil] at hyields

theorem Yields.mono (hsub : ∀ p ∈ g.productions, p ∈ h.productions)
    {form result : Form} (hyields : g.Yields form result) :
    h.Yields form result := by
  induction hyields with
  | nil => exact .nil
  | keep s _ ih => exact .keep s ih
  | expand p hmem hhead _ _ ihrhs ihrest =>
      exact .expand p (hsub p hmem) hhead ihrhs ihrest

/-! ## Inversion -/

theorem Yields.eq_nil {result : Form} (hyields : g.Yields [] result) :
    result = [] := by
  cases hyields
  rfl

/-- Without empty right sides only the empty form yields the empty string. -/
theorem Yields.ne_nil (hne : ∀ p ∈ g.productions, p.rhs ≠ [])
    {form result : Form} (hyields : g.Yields form result) (hform : form ≠ []) :
    result ≠ [] := by
  induction hyields with
  | nil => exact hform
  | keep s _ _ => exact List.cons_ne_nil s _
  | expand p hmem _ _ _ ihrhs _ =>
      have hleft := ihrhs (hne p hmem)
      exact fun hnil => hleft (List.append_eq_nil_iff.mp hnil).1

theorem Yields.of_isTerm {s : Symbol} {rest result : Form}
    (hterm : s.isTerm = true) (hyields : g.Yields (s :: rest) result) :
    ∃ tail, result = s :: tail ∧ g.Yields rest tail := by
  cases hyields with
  | keep _ hrest => exact ⟨_, rfl, hrest⟩
  | expand p _ hhead _ _ =>
      have hvar := isVar_of_head? hhead
      exact absurd hvar (Symbol.not_isVar_of_isTerm hterm)

theorem isTerminal_cons {s : Symbol} {form : Form} :
    Form.isTerminal (s :: form) = true ↔
      s.isTerm = true ∧ Form.isTerminal form = true := by
  simp [Form.isTerminal]

theorem isTerminal_append {left right : Form} :
    Form.isTerminal (left ++ right) = true ↔
      Form.isTerminal left = true ∧ Form.isTerminal right = true := by
  simp [Form.isTerminal]

/-- In front of a terminal string a variable must have been expanded. -/
theorem Yields.of_isVar {s : Symbol} {rest word : Form}
    (hvar : s.isVar = true) (hword : Form.isTerminal word = true)
    (hyields : g.Yields (s :: rest) word) :
    ∃ p ∈ g.productions, ∃ left right, p.head? = some s ∧
      word = left ++ right ∧ g.Yields p.rhs left ∧ g.Yields rest right := by
  cases hyields with
  | keep _ _ =>
      have hterm := (isTerminal_cons.mp hword).1
      exact absurd hvar (Symbol.not_isVar_of_isTerm hterm)
  | expand p hmem hhead hrhs hrest =>
      exact ⟨p, hmem, _, _, hhead, rfl, hrhs, hrest⟩

theorem Yields.exists_production {s : Symbol} {word : Form}
    (hvar : s.isVar = true) (hword : Form.isTerminal word = true)
    (hyields : g.Yields [s] word) :
    ∃ p ∈ g.productions, p.head? = some s ∧ g.Yields p.rhs word := by
  obtain ⟨p, hmem, left, right, hhead, rfl, hrhs, hrest⟩ :=
    hyields.of_isVar hvar hword
  rw [hrest.eq_nil, List.append_nil]
  exact ⟨p, hmem, hhead, hrhs⟩

theorem Yields.mem {form result : Form} (hyields : g.Yields form result)
    {s : Symbol} (hs : s ∈ result) :
    s ∈ form ∨ ∃ p ∈ g.productions, s ∈ p.rhs := by
  induction hyields with
  | nil => simp at hs
  | keep t _ ih =>
      rcases List.mem_cons.mp hs with rfl | hs
      · exact .inl List.mem_cons_self
      · exact (ih hs).imp_left (List.mem_cons_of_mem t)
  | expand p hmem _ _ _ ihrhs ihrest =>
      rcases List.mem_append.mp hs with hs | hs
      · refine .inr ((ihrhs hs).elim (fun hs => ?_) id)
        exact ⟨p, hmem, hs⟩
      · exact (ihrest hs).imp_left (List.mem_cons_of_mem _)

theorem Consistent.mem_terminals_of_mem_yield (hg : g.Consistent)
    {start : Symbol} (hstart : g.start = some start) {word : Form}
    (hyields : g.Yields [start] word) (hword : Form.isTerminal word = true)
    {t : Symbol} (ht : t ∈ word) : t ∈ g.terminals := by
  have hterm := List.all_eq_true.mp hword t ht
  rcases hyields.mem ht with hroot | ⟨p, hp, hrhs⟩
  · rw [List.mem_singleton.mp hroot] at hterm
    exact absurd (hg.start_isVar start hstart)
      (Symbol.not_isVar_of_isTerm hterm)
  · exact hg.mem_terminals_of_mem_rhs hp hrhs hterm

/-! ## Agreement with rewriting -/

theorem Derives.append {first second left right : Form}
    (hleft : g.Derives first left) (hright : g.Derives second right) :
    g.Derives (first ++ second) (left ++ right) := by
  obtain ⟨m, hm⟩ := hleft
  obtain ⟨n, hn⟩ := hright
  have hfirst : g.Derives (first ++ second) (left ++ second) :=
    ⟨m, by simpa using hm.context [] second⟩
  have hsecond : g.Derives (left ++ second) (left ++ right) :=
    ⟨n, by simpa using hn.context left []⟩
  exact hfirst.trans hsecond

theorem Derives.of_production {p : Production} {s : Symbol}
    (hmem : p ∈ g.productions) (hhead : p.head? = some s) :
    g.Derives [s] p.rhs := by
  have hstep := Rewrites.intro (g := g) p [] [] hmem
  rw [(Production.head?_eq_some_iff.mp hhead).1] at hstep
  simpa using hstep.derives

/-- A chain of rewritings with the productions of a list is a derivation. -/
theorem derives_of_foldlM {rewrite : Form → Production → Option Form}
    {ps : List Production}
    (hrewrite : ∀ p ∈ ps, ∀ form next, rewrite form p = some next →
      g.Rewrites form next)
    {form last : Form} (hlast : ps.foldlM rewrite form = some last) :
    g.Derives form last := by
  induction ps generalizing form with
  | nil =>
      cases hlast
      exact .refl _
  | cons p ps ih =>
      obtain ⟨next, hnext, hrest⟩ := Option.bind_eq_some_iff.mp hlast
      have hstep := hrewrite p List.mem_cons_self form next hnext
      exact hstep.derives.trans
        (ih (fun q hq => hrewrite q (List.mem_cons_of_mem p hq)) hrest)

theorem Yields.derives {form result : Form}
    (hyields : g.Yields form result) : g.Derives form result := by
  induction hyields with
  | nil => exact .refl []
  | keep s _ ih => exact (Derives.refl [s]).append ih
  | expand p hmem hhead _ _ ihrhs ihrest =>
      exact ((Derives.of_production hmem hhead).trans ihrhs).append ihrest

theorem Rewrites.yields (hg : g.ContextFree) {first second : Form}
    (hstep : g.Rewrites first second) : g.Yields first second := by
  obtain ⟨p, before, after, hmem⟩ := hstep
  obtain ⟨s, hhead⟩ := Option.isSome_iff_exists.mp (hg p hmem)
  rw [(Production.head?_eq_some_iff.mp hhead).1]
  exact ((Yields.refl before).append (.of_production hmem hhead)).append
    (Yields.refl after)

theorem DerivesIn.yields (hg : g.ContextFree) {count : Nat}
    {first last : Form} (hderives : g.DerivesIn count first last) :
    g.Yields first last := by
  induction hderives with
  | refl form => exact .refl form
  | head hstep _ ih => exact (hstep.yields hg).trans ih

theorem yields_iff_derives (hg : g.ContextFree) {first last : Form} :
    g.Yields first last ↔ g.Derives first last := by
  constructor
  · exact Yields.derives
  · rintro ⟨_, hderives⟩
    exact hderives.yields hg

theorem language_iff_yields {start : Symbol}
    (hstart : g.requireContextFree = .ok start) {word : Form} :
    g.Language word ↔
      Form.isTerminal word = true ∧ g.Yields [start] word := by
  obtain ⟨hsome, hg⟩ := requireContextFree_eq_ok_iff.mp hstart
  rw [yields_iff_derives hg]
  unfold Language
  constructor
  · rintro ⟨hword, s, hs, hderives⟩
    rw [hsome, Option.some.injEq] at hs
    exact ⟨hword, hs ▸ hderives⟩
  · rintro ⟨hword, hderives⟩
    exact ⟨hword, start, hsome, hderives⟩

/-! ## Productive forms -/

def Produces (g : Grammar) (form : Form) : Prop :=
  ∃ word, Form.isTerminal word = true ∧ g.Yields form word

theorem produces_of_isTerm {s : Symbol} (hterm : s.isTerm = true) :
    g.Produces [s] :=
  ⟨[s], by simpa [Form.isTerminal] using hterm, .refl [s]⟩

theorem produces_iff_forall {form : Form} :
    g.Produces form ↔ ∀ s ∈ form, g.Produces [s] := by
  induction form with
  | nil =>
      constructor
      · simp
      · exact fun _ => ⟨[], rfl, .nil⟩
  | cons s form ih =>
      rw [List.forall_mem_cons, ← ih]
      constructor
      · rintro ⟨word, hword, hyields⟩
        obtain ⟨left, right, rfl, hleft, hright⟩ := hyields.exists_cons
        obtain ⟨hfirst, hrest⟩ := isTerminal_append.mp hword
        exact ⟨⟨left, hfirst, hleft⟩, ⟨right, hrest, hright⟩⟩
      · rintro ⟨⟨left, hfirst, hleft⟩, ⟨right, hrest, hright⟩⟩
        exact ⟨left ++ right, isTerminal_append.mpr ⟨hfirst, hrest⟩,
          hleft.append hright⟩

/-- Where the start and all variables are productive, whatever stands in a form
that the start yields can be expanded to a terminal string. -/
theorem Consistent.produces_behind (hg : g.Consistent) {start : Symbol}
    (hstart : g.Produces [start])
    (hvariables : ∀ s ∈ g.variables, g.Produces [s]) {before behind : Form}
    (hyields : g.Yields [start] (before ++ behind)) : g.Produces behind := by
  rw [produces_iff_forall]
  intro s hs
  cases hvar : s.isVar with
  | false => exact produces_of_isTerm (Symbol.isTerm_of_isVar_eq_false hvar)
  | true =>
      rcases hyields.mem (List.mem_append_right before hs) with hroot | hrhs
      · rw [List.mem_singleton.mp hroot]
        exact hstart
      · rcases hrhs with ⟨p, hp, hs⟩
        exact hvariables s (hg.mem_variables_of_mem_rhs hp hs hvar)

/-- So a terminal front part of such a form is completed to a string of the
language. -/
theorem Consistent.exists_completion (hg : g.Consistent) {start : Symbol}
    (hstart : g.requireContextFree = .ok start)
    (hproduces : g.Produces [start])
    (hvariables : ∀ s ∈ g.variables, g.Produces [s]) {before behind : Form}
    (hterm : Form.isTerminal before = true)
    (hyields : g.Yields [start] (before ++ behind)) :
    ∃ rest, Form.isTerminal rest = true ∧ g.Yields behind rest ∧
      g.Language (before ++ rest) := by
  obtain ⟨rest, hrest, hbehind⟩ :=
    hg.produces_behind hproduces hvariables hyields
  refine ⟨rest, hrest, hbehind, (language_iff_yields hstart).mpr ⟨?_, ?_⟩⟩
  · exact isTerminal_append.mpr ⟨hterm, hrest⟩
  · exact hyields.trans ((Yields.refl before).append hbehind)

end FormalGrammars.Grammar

/-! ## Trees -/

namespace FormalGrammars.Tree

open Grammar

variable {g h : Grammar}

@[simp] theorem frontierOfAll_append (first second : List Tree) :
    frontierOfAll (first ++ second) =
      frontierOfAll first ++ frontierOfAll second := by
  simp [frontierOfAll_eq]

theorem ValidFor.mono (hsub : ∀ p ∈ g.productions, p ∈ h.productions)
    (tree : Tree) : tree.ValidFor g → tree.ValidFor h := by
  induction tree using Tree.induction with
  | leaf s => exact id
  | node s p children ih =>
      rintro ⟨hmem, hhead, hroots, hchildren⟩
      refine ⟨hsub p hmem, hhead, hroots, ?_⟩
      rw [allValidFor_iff] at hchildren ⊢
      exact fun child hchild => ih child hchild (hchildren child hchild)

theorem yields_of_forall {trees : List Tree}
    (hall : ∀ tree ∈ trees, g.Yields [tree.root] tree.frontier) :
    g.Yields (trees.map root) (frontierOfAll trees) := by
  induction trees with
  | nil => exact .nil
  | cons tree trees ih =>
      have htree := hall tree List.mem_cons_self
      have htrees := ih fun t ht => hall t (List.mem_cons_of_mem tree ht)
      exact htree.append htrees

theorem ValidFor.yields (tree : Tree) :
    tree.ValidFor g → g.Yields [tree.root] tree.frontier := by
  induction tree using Tree.induction with
  | leaf s => exact fun _ => .refl [s]
  | node s p children ih =>
      rintro ⟨hmem, hhead, hroots, hchildren⟩
      rw [allValidFor_iff] at hchildren
      have hbelow := yields_of_forall fun child hchild =>
        ih child hchild (hchildren child hchild)
      rw [hroots] at hbelow
      exact (Yields.of_production hmem hhead).trans hbelow

theorem AllValidFor.yields {trees : List Tree}
    (hvalid : AllValidFor g trees) :
    g.Yields (trees.map root) (frontierOfAll trees) :=
  yields_of_forall fun tree htree =>
    ValidFor.yields tree (allValidFor_iff.mp hvalid tree htree)

theorem allValidFor_append {first second : List Tree} :
    AllValidFor g (first ++ second) ↔
      AllValidFor g first ∧ AllValidFor g second := by
  simp only [allValidFor_iff, List.forall_mem_append]

theorem exists_forest {form result : Form} (hyields : g.Yields form result) :
    ∃ trees, AllValidFor g trees ∧ trees.map root = form ∧
      frontierOfAll trees = result := by
  induction hyields with
  | nil => exact ⟨[], trivial, rfl, rfl⟩
  | keep s _ ih =>
      obtain ⟨trees, hvalid, hroots, hfrontier⟩ := ih
      refine ⟨.leaf s :: trees, ⟨trivial, hvalid⟩, ?_, ?_⟩
      · simp [root, hroots]
      · simp [frontierOfAll, frontier, hfrontier]
  | @expand s p _ _ _ hmem hhead _ _ ihrhs ihrest =>
      obtain ⟨children, hchildren, hbelow, hleft⟩ := ihrhs
      obtain ⟨trees, hvalid, hroots, hright⟩ := ihrest
      refine ⟨.node s p children :: trees,
        ⟨⟨hmem, hhead, hbelow, hchildren⟩, hvalid⟩, ?_, ?_⟩
      · simp [root, hroots]
      · simp [frontierOfAll, frontier, hleft, hright]

theorem exists_tree {s : Symbol} {result : Form}
    (hyields : g.Yields [s] result) :
    ∃ tree : Tree, tree.ValidFor g ∧ tree.root = s ∧
      tree.frontier = result := by
  obtain ⟨trees, hvalid, hroots, hfrontier⟩ := exists_forest hyields
  obtain ⟨tree, rest, rfl, hroot, hrest⟩ := List.map_eq_cons_iff.mp hroots
  rw [List.map_eq_nil_iff.mp hrest] at hvalid hfrontier
  refine ⟨tree, hvalid.1, hroot, ?_⟩
  simpa [frontierOfAll] using hfrontier

/-- A valid tree for a terminal string, rooted at the start. -/
structure CompleteFor (g : Grammar) (word : Form) (tree : Tree) : Prop where
  valid : tree.ValidFor g
  start_eq : g.start = some tree.root
  frontier_eq : tree.frontier = word
  terminal : Form.isTerminal word = true

theorem exists_completeFor {start : Symbol} {word : Form}
    (hstart : g.requireContextFree = .ok start) (hlanguage : g.Language word) :
    ∃ tree, CompleteFor g word tree := by
  obtain ⟨hword, hyields⟩ := (Grammar.language_iff_yields hstart).mp hlanguage
  obtain ⟨tree, hvalid, hroot, hfrontier⟩ := exists_tree hyields
  have hsome := (Grammar.requireContextFree_eq_ok_iff.mp hstart).1
  exact ⟨tree, hvalid, hroot ▸ hsome, hfrontier, hword⟩

end FormalGrammars.Tree

/-- No string has two complete trees. -/
def FormalGrammars.Grammar.Unambiguous (g : FormalGrammars.Grammar) : Prop :=
  ∀ word first second, FormalGrammars.Tree.CompleteFor g word first →
    FormalGrammars.Tree.CompleteFor g word second → first = second
