import FormalGrammars.Proofs.Support
import Mathlib.Order.Bounds.Basic

/-!
# What the look-ahead sets of a grammar hold

FIRST is exact for every form, also for one with symbols that the grammar does
not know, and it makes no difference whether the form is a right side whose
FIRST was kept.

FOLLOW is the least family that obeys three rules.  By these rules a variable
is followed by every look-ahead that stands behind it in a form derived from
the start.  The converse goes by induction along the rules: if the head of a
production occurs in such a form, so does its right side in the place of the
head, and what the rules add is then seen to stand there.
-/

namespace FormalGrammars

/-! ## The look-ahead behind a variable -/

/-- The end, or a terminal: what an input can go on with. -/
def Lookahead.isInput : Lookahead → Bool
  | endOfInput => true
  | lambda => false
  | symbol s => s.isTerm

/-- The end is the only input without a symbol. -/
theorem Lookahead.head?_mem_map_symbol?_iff {keys : List Lookahead}
    (hlambda : .lambda ∉ keys) {rest : Form} :
    rest.head? ∈ keys.map symbol? ↔ ofRest rest ∈ keys := by
  rw [List.mem_map]
  constructor
  · intro hfound
    rcases hfound with ⟨x, hx, hsame⟩
    cases rest with
    | nil =>
        cases x with
        | endOfInput => exact hx
        | lambda => exact absurd hx hlambda
        | symbol s => cases hsame
    | cons t rest =>
        cases x with
        | endOfInput => cases hsame
        | lambda => cases hsame
        | symbol s =>
            cases hsame
            exact hx
  · intro hkey
    cases rest with
    | nil => exact ⟨_, hkey, rfl⟩
    | cons t rest => exact ⟨_, hkey, rfl⟩

/-- The form with the end of the input behind it. -/
def Form.closed (form : Form) : List Lookahead :=
  form.map .symbol ++ [.endOfInput]

theorem Form.closed_cons (s : Symbol) (rest : Form) :
    Form.closed (s :: rest) = .symbol s :: Form.closed rest :=
  rfl

theorem Form.prefix_closed_iff {form : Form} {x : Lookahead} :
    [x] <+: Form.closed form ↔ Lookahead.ofRest form = x := by
  cases form with
  | nil => simp [Form.closed, Lookahead.ofRest, eq_comm]
  | cons s rest => simp [Form.closed_cons, Lookahead.ofRest, eq_comm]

theorem Form.infix_closed_iff {form : Form} {s : Symbol} {x : Lookahead} :
    [.symbol s, x] <:+: Form.closed form ↔
      ∃ before after, form = before ++ s :: after ∧
        Lookahead.ofRest after = x := by
  induction form with
  | nil => simp [Form.closed, List.infix_cons_iff]
  | cons t rest ih =>
      rw [Form.closed_cons, List.infix_cons_iff, List.cons_prefix_cons, ih,
        Form.prefix_closed_iff, exists_split_cons_iff, Lookahead.symbol.injEq,
        eq_comm (a := s)]

namespace Grammar

/-- In some form that the start derives, closed by the end of the input, the
look-ahead stands directly behind the symbol. -/
def Adjoins (g : Grammar) (start s : Symbol) (x : Lookahead) : Prop :=
  ∃ form, g.Derives [start] form ∧ [.symbol s, x] <:+: Form.closed form

variable {g : Grammar} {start s : Symbol} {x : Lookahead}

theorem adjoins_iff : g.Adjoins start s x ↔
    ∃ before after, g.Derives [start] (before ++ s :: after) ∧
      Lookahead.ofRest after = x := by
  unfold Adjoins
  constructor
  · intro hadjoins
    rcases hadjoins with ⟨form, hderives, hinfix⟩
    rcases Form.infix_closed_iff.mp hinfix with ⟨before, after, rfl, hrest⟩
    exact ⟨before, after, hderives, hrest⟩
  · intro hsplit
    rcases hsplit with ⟨before, after, hderives, hrest⟩
    exact ⟨_, hderives, Form.infix_closed_iff.mpr ⟨before, after, rfl, hrest⟩⟩

/-! ## The rules for FOLLOW -/

/-- The end follows the start, and what a tail begins with follows the variable
in front of it; if the tail derives the empty string, so does what follows the
head. -/
structure FollowRules (g : Grammar) (start : Symbol)
    (family : Symbol → Set Lookahead) : Prop where
  end_mem : .endOfInput ∈ family start
  tail_mem : ∀ head s tail, g.Precedes head s tail → ∀ t rest,
    t.isTerm = true → g.Derives tail (t :: rest) → .symbol t ∈ family s
  head_subset : ∀ head s tail, g.Precedes head s tail → g.Derives tail [] →
    family head ⊆ family s

theorem isLeast_follows (hfree : g.ContextFree) (start : Symbol) :
    IsLeast {family | g.FollowRules start family}
      fun s => {x | g.Follows start s x} := by
  constructor
  · refine ⟨.atEnd, ?_, ?_⟩
    · intro head s tail hprecedes t rest hterm hderives
      exact .tail hprecedes (by simp)
        ⟨hterm, rest, (yields_iff_derives hfree).mpr hderives⟩
    · intro head s tail hprecedes hderives x hx
      exact .head hprecedes ((yields_iff_derives hfree).mpr hderives) hx
  · intro family hfamily s x hx
    induction hx with
    | atEnd => exact hfamily.end_mem
    | @tail head s tail x hprecedes hx hbegins =>
        cases x with
        | endOfInput => exact hbegins.elim
        | lambda => exact absurd rfl hx
        | symbol t =>
            obtain ⟨hterm, rest, hyields⟩ := hbegins
            exact hfamily.tail_mem head s tail hprecedes t rest hterm
              hyields.derives
    | @head head s tail x hprecedes htail _ ih =>
        exact hfamily.head_subset head s tail hprecedes htail.derives ih

theorem Follows.isInput (hfollows : g.Follows start s x) :
    x.isInput = true := by
  induction hfollows with
  | atEnd => rfl
  | @tail _ _ _ x _ hx hbegins =>
      cases x with
      | endOfInput => rfl
      | lambda => exact absurd rfl hx
      | symbol t => exact hbegins.1
  | head _ _ _ ih => exact ih

theorem faces_of_ofRest {form : Form} (hrest : Lookahead.ofRest form = x)
    (hx : x.isInput = true) : g.Faces form x := by
  subst hrest
  cases form with
  | nil => exact .nil
  | cons t rest => exact ⟨hx, rest, .refl _⟩

/-- The start supports every form that it derives. -/
theorem Adjoins.follows (hfree : g.ContextFree) (hvar : s.isVar = true)
    (hx : x.isInput = true) (hadjoins : g.Adjoins start s x) :
    g.Follows start s x := by
  obtain ⟨before, after, hderives, hrest⟩ := adjoins_iff.mp hadjoins
  have hform := supported_of_yields ((yields_iff_derives hfree).mpr hderives)
  exact hform.suffix.1 hvar x (faces_of_ofRest hrest hx)

/-- What is behind a variable on the right of a production comes behind it in
the place of the head. -/
theorem derives_of_precedes {head : Symbol} {tail before after result : Form}
    (hprecedes : g.Precedes head s tail)
    (hderives : g.Derives [start] (before ++ head :: after))
    (htail : g.Derives tail result) :
    ∃ front, g.Derives [start] (front ++ s :: (result ++ after)) := by
  obtain ⟨_, p, hmem, hhead, left, hrhs⟩ := hprecedes
  have hright : g.Derives [head] (left ++ s :: result) := by
    refine (Derives.of_production hmem hhead).trans ?_
    rw [hrhs]
    exact (Derives.refl left).append ((Derives.refl [s]).append htail)
  have hinside := (Derives.refl before).append
    (hright.append (Derives.refl after))
  refine ⟨before ++ left, ?_⟩
  simpa using hderives.trans hinside

theorem Precedes.head_mem_variables (hg : g.Consistent) {head : Symbol}
    {tail : Form} (hprecedes : g.Precedes head s tail) :
    head ∈ g.variables := by
  obtain ⟨_, p, hmem, hhead, _⟩ := hprecedes
  exact hg.mem_variables_of_head? hmem hhead

theorem Follows.adjoins (hg : g.Consistent)
    (hreachable : ∀ t ∈ g.variables, ∃ before after,
      g.Derives [start] (before ++ t :: after))
    (hfollows : g.Follows start s x) : g.Adjoins start s x := by
  rw [adjoins_iff]
  induction hfollows with
  | atEnd => exact ⟨[], [], .refl _, rfl⟩
  | @tail head s tail x hprecedes hx hbegins =>
      obtain ⟨before, after, hderives⟩ :=
        hreachable head (hprecedes.head_mem_variables hg)
      cases x with
      | endOfInput => exact hbegins.elim
      | lambda => exact absurd rfl hx
      | symbol t =>
          obtain ⟨_, rest, hyields⟩ := hbegins
          obtain ⟨front, hfront⟩ :=
            derives_of_precedes hprecedes hderives hyields.derives
          exact ⟨front, _, hfront, rfl⟩
  | head hprecedes htail _ ih =>
      obtain ⟨before, after, hderives, hrest⟩ := ih
      obtain ⟨front, hfront⟩ :=
        derives_of_precedes hprecedes hderives htail.derives
      exact ⟨front, after, hfront, hrest⟩

end Grammar

/-! ## The sets -/

namespace LookaheadSets

variable {g : Grammar} {start : Symbol} {sets : LookaheadSets}

/-- The right sides of the productions are the forms that are looked up. -/
theorem mem_keys_firstOfRightSides (hsets : ofGrammar g = .ok sets)
    {form : Form} : form ∈ sets.firstOfRightSides.keys ↔
      ∃ p ∈ g.productions, p.rhs = form := by
  have hkeys := OrderedMap.keys_foldl_insert
    (g.productions.map fun p => (p.rhs, g.firstSets.ofForm p.rhs)) ⟨[]⟩
  rw [List.foldl_map, List.map_map] at hkeys
  rw [(eq_of_ofGrammar hsets).2, hkeys, mem_extendNew]
  simp [OrderedMap.keys]

theorem mem_firstOf_iff_begins (hg : g.Consistent)
    (hsets : ofGrammar g = .ok sets) {form : Form} {x : Lookahead} :
    x ∈ sets.firstOf form ↔ g.Begins form x := by
  rw [firstOf_ofGrammar hsets, FirstSets.mem_ofForm_iff_begins hg]

/-- FIRST of a form holds the terminals that begin what the form derives, and
the lambda mark if it derives the empty string.  It is the same for a right
side, which is looked up, and FIRST of a variable is FIRST of the form that the
variable is alone in. -/
theorem firstOf_iff_derives (hg : g.Consistent)
    (hstart : g.requireContextFree = .ok start) :
    ∃ sets, ofGrammar g = .ok sets ∧
      (∀ form,
        (∀ s, .symbol s ∈ sets.firstOf form ↔
          s.isTerm = true ∧ ∃ rest, g.Derives form (s :: rest)) ∧
        (.lambda ∈ sets.firstOf form ↔ g.Derives form []) ∧
        .endOfInput ∉ sets.firstOf form) ∧
      (∀ form, (form ∈ sets.firstOfRightSides.keys ↔
          ∃ p ∈ g.productions, p.rhs = form) ∧
        sets.firstOf form = sets.first.ofForm form) ∧
      ∀ s ∈ g.variables, ∃ set, OrderedMap.get? sets.first s = some set ∧
        ∀ x, x ∈ set ↔ x ∈ sets.firstOf [s] := by
  obtain ⟨sets, hsets⟩ : ∃ sets, ofGrammar g = .ok sets := by
    obtain ⟨known, hok⟩ := ofGrammar_eq_ok hstart
    exact ⟨_, hok⟩
  have hfree := (Grammar.requireContextFree_eq_ok_iff.mp hstart).2
  have hmem : ∀ form x, x ∈ sets.firstOf form ↔ g.Begins form x :=
    fun _ _ => mem_firstOf_iff_begins hg hsets
  refine ⟨sets, hsets, fun form => ⟨fun s => ?_, ?_, ?_⟩, fun form => ⟨?_, ?_⟩,
    fun s hs => ?_⟩
  · simp only [hmem, Grammar.Begins, Grammar.yields_iff_derives hfree]
  · simp only [hmem, Grammar.Begins, Grammar.yields_iff_derives hfree]
  · exact fun hx => (hmem form _).mp hx
  · exact mem_keys_firstOfRightSides hsets
  · rw [firstOf_ofGrammar hsets, (eq_of_ofGrammar hsets).1]
  · obtain ⟨set, hset⟩ :=
      OrderedMap.get?_of_mem_keys (FirstSets.mem_keys_firstSets hs)
    rw [(eq_of_ofGrammar hsets).1]
    refine ⟨set, hset, fun x => ?_⟩
    rw [firstOf_ofGrammar hsets,
      FirstSets.mem_ofForm_singleton (hg.mem_variables_iff.mp hs).1,
      OrderedMap.getD, hset, Option.getD_some]

/-- `S → ASb | A` and `A → S | λ`, left recursive behind nullable variables. -/
def hiddenRecursion : Grammar :=
  Grammar.withProductions { start := some (.var "S") }
    [.rule (.var "S") [.var "A", .var "S", .term "b"],
      .rule (.var "S") [.var "A"],
      .rule (.var "A") [.var "S"],
      .rule (.var "A") []]

/-- FIRST of a right side, and of a form that ends in an unknown variable. -/
theorem firstOf_hiddenRecursion :
    ∃ sets, ofGrammar hiddenRecursion = .ok sets ∧
      sets.firstOf [.var "A", .var "X"] = [.symbol (.term "b")] ∧
      (∃ rest, hiddenRecursion.Derives [.var "A", .var "X"] (.term "b" :: rest)) ∧
      ¬ hiddenRecursion.Derives [.var "A", .var "X"] [] ∧
      [.var "A"] ∈ sets.firstOfRightSides.keys ∧
      hiddenRecursion.Derives [.var "A"] [] := by
  obtain ⟨sets, hsets, hforms, hknown, _⟩ := firstOf_iff_derives
    (Grammar.consistent_of_start rfl _) (g := hiddenRecursion) rfl
  have hbuilt : ∃ built, ofGrammar hiddenRecursion = .ok built ∧
      built.firstOf [.var "A", .var "X"] = [.symbol (.term "b")] ∧
      .lambda ∈ built.firstOf [.var "A"] :=
    ⟨_, rfl, by decide +kernel⟩
  obtain ⟨built, hbuilt, hfirst, hlambda⟩ := hbuilt
  rw [hsets] at hbuilt
  cases hbuilt
  have hform := hforms [.var "A", .var "X"]
  rw [hfirst] at hform
  refine ⟨sets, hsets, hfirst, ((hform.1 _).mp (by simp)).2, ?_, ?_,
    (hforms _).2.1.mp hlambda⟩
  · exact fun hderives => absurd (hform.2.1.mpr hderives) (by simp)
  · exact (hknown _).1.mpr ⟨.rule (.var "S") [.var "A"], by decide, rfl⟩

/-- FOLLOW holds whatever stands behind a variable in a form that the start
derives, closed by the end.  It is the least family that obeys the rules, so it
holds nothing else when all variables are reachable.  The lambda mark is never
in it, and the worklist that computes it runs empty. -/
theorem follow_isLeast (hg : g.Consistent)
    (hstart : g.requireContextFree = .ok start) :
    ∃ sets, ofGrammar g = .ok sets ∧
      (∀ s x, s.isVar = true → x.isInput = true → g.Adjoins start s x →
        x ∈ sets.followOfVariable s) ∧
      IsLeast {family : Symbol → Set Lookahead | g.FollowRules start family}
        (fun s => {x | x ∈ sets.followOfVariable s}) ∧
      ((∀ s ∈ g.variables, ∃ before after,
          g.Derives [start] (before ++ s :: after)) →
        ∀ s x, s.isVar = true → (x ∈ sets.followOfVariable s ↔
          x.isInput = true ∧ g.Adjoins start s x)) ∧
      (∀ s, .lambda ∉ sets.followOfVariable s) ∧
      ∃ count, stepTimes (FollowScan.round (scanned g start).flows) count
          ((scanned g start).follow, (scanned g start).follow.keys) =
        (sets.follow, []) := by
  obtain ⟨known, hsets⟩ := ofGrammar_eq_ok hstart
  have hfree := (Grammar.requireContextFree_eq_ok_iff.mp hstart).2
  have hmem := fun s x =>
    mem_followOfVariable_iff hg hstart hsets (s := s) (x := x)
  refine ⟨_, hsets, ?_, ?_, ?_, ?_, exists_stepTimes_round_eq start hg⟩
  · intro s x hvar hx hadjoins
    exact (hmem s x).mpr (hadjoins.follows hfree hvar hx)
  · simp only [hmem]
    exact Grammar.isLeast_follows hfree start
  · intro hreachable s x hvar
    rw [hmem]
    constructor
    · intro hfollows
      exact ⟨hfollows.isInput, hfollows.adjoins hg hreachable⟩
    · intro hx
      exact hx.2.follows hfree hvar hx.1
  · intro s hx
    have hinput := ((hmem s _).mp hx).isInput
    simp [Lookahead.isInput] at hinput

/-- `S → Aa`, `A → bB` and `B → cA | λ`, where the sets of `A` and `B` flow into
each other. -/
def crossedTails : Grammar :=
  Grammar.withProductions { start := some (.var "S") }
    [.rule (.var "S") [.var "A", .term "a"],
      .rule (.var "A") [.term "b", .var "B"],
      .rule (.var "B") [.term "c", .var "A"],
      .rule (.var "B") []]

theorem crossedTails_reachable : ∀ s ∈ crossedTails.variables,
    ∃ before after, crossedTails.Derives [.var "S"] (before ++ s :: after) := by
  have hvariables : crossedTails.variables = [.var "S", .var "A", .var "B"] := rfl
  have hfirst : crossedTails.Derives [.var "S"] [.var "A", .term "a"] :=
    .of_production (p := .rule (.var "S") [.var "A", .term "a"]) (by decide) rfl
  have hsecond : crossedTails.Derives [.var "A"] [.term "b", .var "B"] :=
    .of_production (p := .rule (.var "A") [.term "b", .var "B"]) (by decide) rfl
  rw [hvariables]
  simp only [List.forall_mem_cons]
  refine ⟨⟨[], [], .refl _⟩, ⟨[], _, hfirst⟩, ⟨[.term "b"], [.term "a"], ?_⟩, ?_⟩
  · exact hfirst.trans (hsecond.append (.refl [.term "a"]))
  · simp

theorem follow_crossedTails :
    ∃ sets, ofGrammar crossedTails = .ok sets ∧
      (∀ s ∈ crossedTails.variables, ∃ before after,
        crossedTails.Derives [.var "S"] (before ++ s :: after)) ∧
      sets.followOfVariable (.var "B") = [.symbol (.term "a")] ∧
      ∀ x, x.isInput = true →
        (crossedTails.Adjoins (.var "S") (.var "B") x ↔ x = .symbol (.term "a")) := by
  obtain ⟨sets, hsets, _, _, hexact, _⟩ := follow_isLeast
    (Grammar.consistent_of_start rfl _) (g := crossedTails) rfl
  have hbuilt : ∃ built, ofGrammar crossedTails = .ok built ∧
      built.followOfVariable (.var "B") = [.symbol (.term "a")] :=
    ⟨_, rfl, by decide +kernel⟩
  obtain ⟨built, hbuilt, hfollow⟩ := hbuilt
  rw [hsets] at hbuilt
  cases hbuilt
  refine ⟨sets, hsets, crossedTails_reachable, hfollow, fun x hx => ?_⟩
  have hiff := hexact crossedTails_reachable (.var "B") x rfl
  rw [hfollow, List.mem_singleton] at hiff
  simpa [hx] using hiff.symm

end LookaheadSets

end FormalGrammars
