import FormalGrammars.Lookahead.First
import FormalGrammars.Proofs.Nullability
import Mathlib.Data.List.ProdSigma

/-!
# FIRST sets are exact

`Opens` reads off FIRST of a form from the sets of the variables.  The passes
keep the sets inside what the variables can begin with, and they end in sets
that are closed under the productions.  A closed family holds the first
terminal of everything that a form yields, so `Opens` of the final sets is the
relation `Begins`.
-/

namespace FormalGrammars

variable {g : Grammar}

/-- What the strings begin with that a form yields; the lambda mark stands for
the empty string. -/
def Grammar.Begins (g : Grammar) (form : Form) : Lookahead → Prop
  | .endOfInput => False
  | .lambda => g.Yields form []
  | .symbol t => t.isTerm = true ∧ ∃ rest, g.Yields form (t :: rest)

theorem Grammar.Begins.append {form rest : Form} {x : Lookahead}
    (hbegins : g.Begins form x) (hx : x ≠ .lambda) :
    g.Begins (form ++ rest) x := by
  cases x with
  | endOfInput => exact hbegins
  | lambda => exact absurd rfl hx
  | symbol t =>
      obtain ⟨hterm, tail, hyields⟩ := hbegins
      exact ⟨hterm, tail ++ rest, hyields.append (.refl rest)⟩

theorem Grammar.Begins.of_nullable {form rest : Form} {x : Lookahead}
    (hform : g.Yields form []) (hbegins : g.Begins rest x) :
    g.Begins (form ++ rest) x := by
  cases x with
  | endOfInput => exact hbegins
  | lambda => exact hform.append hbegins
  | symbol t =>
      obtain ⟨hterm, tail, hyields⟩ := hbegins
      exact ⟨hterm, tail, hform.append hyields⟩

theorem Grammar.Begins.of_production {p : Production} {s : Symbol}
    (hmem : p ∈ g.productions) (hhead : p.head? = some s) {x : Lookahead}
    (hbegins : g.Begins p.rhs x) : g.Begins [s] x := by
  have hstep := Yields.of_production hmem hhead
  cases x with
  | endOfInput => exact hbegins
  | lambda => exact hstep.trans hbegins
  | symbol t =>
      obtain ⟨hterm, tail, hyields⟩ := hbegins
      exact ⟨hterm, tail, hstep.trans hyields⟩

namespace FirstSets

/-- FIRST of a form, by the sets of the variables. -/
def Opens (sets : FirstSets) : Form → Lookahead → Prop
  | [], x => x = .lambda
  | s :: rest, x =>
    if s.isTerm then x = .symbol s
    else (x ≠ .lambda ∧ x ∈ OrderedMap.getD sets s []) ∨
      (.lambda ∈ OrderedMap.getD sets s [] ∧ Opens sets rest x)

theorem mem_extend {sets : FirstSets} {found : List Lookahead} {form : Form}
    {x : Lookahead} :
    x ∈ sets.extend found form ↔ x ∈ found ∨ sets.Opens form x := by
  induction form generalizing found with
  | nil => simp [extend, Opens]
  | cons s rest ih =>
      unfold extend Opens
      by_cases hterm : s.isTerm = true
      · simp [hterm]
      · simp only [hterm, Bool.false_eq_true, if_false]
        cases hget : OrderedMap.get? sets s with
        | none => simp [OrderedMap.getD, hget]
        | some set =>
            simp only [OrderedMap.getD, hget, Option.getD_some]
            by_cases hlambda : Lookahead.lambda ∈ set
            · simp only [hlambda, if_true, ih, mem_extendNew,
                List.mem_filter, decide_eq_true_eq, true_and]
              constructor
              · rintro ((hx | ⟨hx, hne⟩) | hx)
                · exact .inl hx
                · exact .inr (.inl ⟨hne, hx⟩)
                · exact .inr (.inr hx)
              · rintro (hx | ⟨hne, hx⟩ | hx)
                · exact .inl (.inl hx)
                · exact .inl (.inr ⟨hx, hne⟩)
                · exact .inr hx
            · simp only [hlambda, if_false, mem_extendNew, List.mem_filter,
                decide_eq_true_eq, false_and, or_false]
              rw [and_comm]

theorem mem_ofForm {sets : FirstSets} {form : Form} {x : Lookahead} :
    x ∈ sets.ofForm form ↔ sets.Opens form x := by
  unfold ofForm
  rw [mem_extend]
  simp

theorem mem_ofForm_singleton {sets : FirstSets} {s : Symbol}
    (hvar : s.isVar = true) {x : Lookahead} :
    x ∈ sets.ofForm [s] ↔ x ∈ OrderedMap.getD sets s [] := by
  rw [mem_ofForm]
  simp only [Opens, Symbol.isTerm_eq_false hvar, Bool.false_eq_true, if_false]
  constructor
  · rintro (⟨_, hx⟩ | ⟨hlambda, rfl⟩)
    · exact hx
    · exact hlambda
  · intro hx
    by_cases hlambda : x = .lambda
    · exact .inr ⟨hlambda ▸ hx, hlambda⟩
    · exact .inl ⟨hlambda, hx⟩

theorem mem_absorb {sets : FirstSets} {p : Production} {s : Symbol}
    {x : Lookahead} :
    x ∈ OrderedMap.getD (sets.absorb p) s [] ↔
      x ∈ OrderedMap.getD sets s [] ∨
        (p.head? = some s ∧ x ≠ .lambda ∧ sets.Opens p.rhs x) := by
  unfold absorb
  cases hhead : p.head? with
  | none => simp
  | some head =>
      simp only [OrderedMap.getD_alter, Option.some.injEq]
      by_cases heq : s = head
      · subst heq
        simp [mem_ofForm, and_comm]
      · simp [heq, Ne.symm heq]

/-! ## Sets before the first pass -/

theorem mem_markLambda {marked : List Symbol} {sets : FirstSets}
    {s : Symbol} {x : Lookahead} :
    x ∈ OrderedMap.getD (marked.foldl (fun sets s =>
        OrderedMap.alter sets s [] (insertNew · .lambda)) sets) s [] ↔
      x ∈ OrderedMap.getD sets s [] ∨ (x = .lambda ∧ s ∈ marked) := by
  induction marked generalizing sets with
  | nil => simp
  | cons t marked ih =>
      rw [List.foldl_cons, ih, OrderedMap.getD_alter]
      by_cases heq : s = t
      · subst heq
        simp only [if_true, mem_insertNew, List.mem_cons, true_or, and_true]
        constructor
        · rintro ((hx | hx) | ⟨hx, _⟩)
          · exact .inl hx
          · exact .inr hx
          · exact .inr hx
        · rintro (hx | hx)
          · exact .inl (.inl hx)
          · exact .inl (.inr hx)
      · simp [heq]

theorem keys_markLambda {marked : List Symbol} {sets : FirstSets} :
    (marked.foldl (fun sets s =>
      OrderedMap.alter sets s [] (insertNew · .lambda)) sets).keys =
      extendNew sets.keys marked := by
  induction marked generalizing sets with
  | nil => rfl
  | cons t marked ih =>
      rw [List.foldl_cons, ih, OrderedMap.keys_alter]
      rfl

theorem mem_seed {s : Symbol} {x : Lookahead} :
    x ∈ OrderedMap.getD (seed g) s [] ↔
      x = .lambda ∧ g.nullability.contains s = true := by
  unfold seed
  rw [mem_markLambda, OrderedMap.getD_emptyLists]
  simp [Nullability.contains, OrderedMap.contains_iff_mem_keys,
    Nullability.variables]

theorem keys_seed :
    (seed g).keys = extendNew g.variables g.nullability.variables := by
  unfold seed
  rw [keys_markLambda]
  simp [OrderedMap.keys, Function.comp_def]

/-! ## What the passes keep -/

/-- The sets have room for every head, and hold the lambda mark of the
nullable variables and otherwise terminals with which a variable begins. -/
structure Growing (g : Grammar) (sets : FirstSets) : Prop where
  keys_nodup : sets.keys.Nodup
  heads : ∀ p ∈ g.productions, ∀ s, p.head? = some s → s ∈ sets.keys
  lambda_iff : ∀ s, .lambda ∈ OrderedMap.getD sets s [] ↔
    g.nullability.contains s = true
  begins : ∀ s x, x ∈ OrderedMap.getD sets s [] → g.Begins [s] x
  known : ∀ s x, x ∈ OrderedMap.getD sets s [] → x ≠ .lambda →
    ∃ t ∈ g.terminals, x = .symbol t

variable {sets : FirstSets}

theorem Growing.begins_of_opens (hsets : sets.Growing g) {form : Form}
    {x : Lookahead} (hopens : sets.Opens form x) : g.Begins form x := by
  induction form with
  | nil =>
      unfold Opens at hopens
      subst hopens
      exact Grammar.Yields.nil
  | cons s rest ih =>
      unfold Opens at hopens
      split at hopens
      next hterm =>
        subst hopens
        exact ⟨hterm, rest, .refl _⟩
      next =>
        rcases hopens with ⟨hne, hx⟩ | ⟨hlambda, hrest⟩
        · exact (hsets.begins s x hx).append hne
        · have hnull := hsets.begins s .lambda hlambda
          have hbegins : g.Begins ([s] ++ rest) x := .of_nullable hnull (ih hrest)
          exact hbegins

theorem Growing.known_of_opens (hsets : sets.Growing g) {form : Form}
    (hform : ∀ s ∈ form, s.isTerm = true → s ∈ g.terminals)
    {x : Lookahead} (hopens : sets.Opens form x) (hx : x ≠ .lambda) :
    ∃ t ∈ g.terminals, x = .symbol t := by
  induction form with
  | nil => exact absurd hopens hx
  | cons s rest ih =>
      unfold Opens at hopens
      split at hopens
      next hterm => exact ⟨s, hform s List.mem_cons_self hterm, hopens⟩
      next =>
        rcases hopens with ⟨_, hmem⟩ | ⟨_, hrest⟩
        · exact hsets.known s x hmem hx
        · exact ih (fun t ht => hform t (List.mem_cons_of_mem s ht)) hrest

theorem keys_absorb {p : Production} {s : Symbol} (hs : s ∈ sets.keys) :
    s ∈ (sets.absorb p).keys := by
  unfold absorb
  split
  next => exact hs
  next =>
    rw [OrderedMap.keys_alter, mem_insertNew]
    exact .inl hs

theorem Growing.absorb (hg : g.Consistent) (hsets : sets.Growing g)
    {p : Production} (hmem : p ∈ g.productions) :
    (sets.absorb p).Growing g := by
  constructor
  · unfold FirstSets.absorb
    split
    next => exact hsets.keys_nodup
    next =>
      rw [OrderedMap.keys_alter]
      exact nodup_insertNew hsets.keys_nodup _
  · intro q hq s hhead
    exact keys_absorb (hsets.heads q hq s hhead)
  · intro s
    rw [mem_absorb, ← hsets.lambda_iff s]
    simp
  · intro s x hx
    rcases mem_absorb.mp hx with hx | ⟨hhead, _, hopens⟩
    · exact hsets.begins s x hx
    · exact .of_production hmem hhead (hsets.begins_of_opens hopens)
  · intro s x hx hne
    rcases mem_absorb.mp hx with hx | ⟨_, _, hopens⟩
    · exact hsets.known s x hx hne
    · apply hsets.known_of_opens _ hopens hne
      exact fun t ht => hg.mem_terminals_of_mem_rhs hmem ht

theorem growing_seed (hg : g.Consistent) : (seed g).Growing g := by
  constructor
  · rw [keys_seed]
    exact nodup_extendNew hg.variables_nodup _
  · intro p hp s hhead
    rw [keys_seed, mem_extendNew]
    exact .inl (hg.mem_variables_of_head? hp hhead)
  · intro s
    rw [mem_seed]
    simp
  · intro s x hx
    obtain ⟨rfl, hnull⟩ := mem_seed.mp hx
    exact Nullability.contains_iff_yields.mp hnull
  · intro s x hx hne
    exact absurd (mem_seed.mp hx).1 hne

/-- An update that changes the sets adds a terminal to the set of a head. -/
theorem Growing.absorb_ne_self (hsets : sets.Growing g) {p : Production}
    (hmem : p ∈ g.productions) (hne : sets.absorb p ≠ sets) :
    ∃ head x, p.head? = some head ∧ x ≠ .lambda ∧ sets.Opens p.rhs x ∧
      x ∉ OrderedMap.getD sets head [] := by
  cases hhead : p.head? with
  | none => exact absurd (by simp [FirstSets.absorb, hhead]) hne
  | some head =>
      by_cases hall : ∀ x, x ≠ .lambda → sets.Opens p.rhs x →
          x ∈ OrderedMap.getD sets head []
      · apply absurd _ hne
        simp only [FirstSets.absorb, hhead]
        apply OrderedMap.alter_eq_self hsets.keys_nodup
          (hsets.heads p hmem head hhead)
        apply extendNew_eq_self
        intro x hx
        obtain ⟨hx, hlambda⟩ := List.mem_filter.mp hx
        exact hall x (by simpa using hlambda) (mem_ofForm.mp hx)
      · simp only [not_forall] at hall
        obtain ⟨x, hx, hopens, hnew⟩ := hall
        exact ⟨head, x, rfl, hx, hopens, hnew⟩

theorem descends_absorb (hg : g.Consistent) :
    Descends absorb g.productions (Growing g) fun sets =>
      (missing (g.variables ×ˢ g.terminals) fun entry =>
        decide (.symbol entry.2 ∈ OrderedMap.getD sets entry.1 [])).length where
  keeps sets hsets p hmem := hsets.absorb hg hmem
  lowers sets hsets p hmem hne := by
    obtain ⟨head, x, hhead, hx, hopens, hnew⟩ := hsets.absorb_ne_self hmem hne
    obtain ⟨t, ht, rfl⟩ := hsets.known_of_opens
      (fun t ht => hg.mem_terminals_of_mem_rhs hmem ht) hopens hx
    apply missing_length_lt (head, t)
    · intro entry hentry
      rw [decide_eq_true_eq] at hentry ⊢
      exact mem_absorb.mpr (.inl hentry)
    · exact List.mem_product.mpr ⟨hg.mem_variables_of_head? hmem hhead, ht⟩
    · exact decide_eq_false hnew
    · exact decide_eq_true (mem_absorb.mpr (.inr ⟨hhead, hx, hopens⟩))

theorem growing_and_fixed (hg : g.Consistent) :
    g.firstSets.Growing g ∧
      ∀ p ∈ g.productions, g.firstSets.absorb p = g.firstSets := by
  apply (descends_absorb hg).iterate (growing_seed hg)
  refine Nat.le_trans (List.length_filter_le _ _) ?_
  exact Nat.le_of_eq (List.length_product _ _)

theorem mem_keys_firstSets {s : Symbol} (hs : s ∈ g.variables) :
    s ∈ g.firstSets.keys := by
  unfold Grammar.firstSets
  rw [iterateUntilStable_eq_stepTimes]
  apply stepTimes_induct (motive := fun sets : FirstSets => s ∈ sets.keys)
  · intro sets hsets
    apply List.foldlRecOn (motive := fun sets : FirstSets => s ∈ sets.keys)
    · exact hsets
    · exact fun sets hsets p _ => keys_absorb hsets
  · rw [keys_seed, mem_extendNew]
    exact .inl hs

/-! ## Completeness -/

/-- The first terminal, or the absence of one, is found. -/
theorem opens_of_yields (hg : g.Consistent) {form result : Form}
    (hyields : g.Yields form result) :
    (result = [] → g.firstSets.Opens form .lambda) ∧
      ∀ t rest, result = t :: rest → t.isTerm = true →
        g.firstSets.Opens form (.symbol t) := by
  obtain ⟨hsets, hfixed⟩ := growing_and_fixed hg
  induction hyields with
  | nil => exact ⟨fun _ => rfl, by simp⟩
  | keep s _ _ =>
      refine ⟨by simp, ?_⟩
      intro t rest heq hterm
      obtain ⟨rfl, -⟩ := List.cons.inj heq
      simp [Opens, hterm]
  | @expand s p rest left right hmem hhead hrhs _ ihrhs ihrest =>
      have hvar := Symbol.isTerm_eq_false (Grammar.isVar_of_head? hhead)
      have hnull : left = [] → .lambda ∈ OrderedMap.getD g.firstSets s [] := by
        rintro rfl
        rw [hsets.lambda_iff, Nullability.contains_iff_yields]
        exact (Grammar.Yields.of_production hmem hhead).trans hrhs
      constructor
      · intro heq
        obtain ⟨hleft, hright⟩ := List.append_eq_nil_iff.mp heq
        simp only [Opens, hvar, Bool.false_eq_true, if_false]
        exact .inr ⟨hnull hleft, ihrest.1 hright⟩
      · intro t tail heq hterm
        simp only [Opens, hvar, Bool.false_eq_true, if_false]
        cases left with
        | nil => exact .inr ⟨hnull rfl, ihrest.2 t tail heq hterm⟩
        | cons u left =>
            obtain ⟨rfl, -⟩ := List.cons.inj heq
            refine .inl ⟨by simp, ?_⟩
            rw [← hfixed p hmem, mem_absorb]
            exact .inr ⟨hhead, by simp, ihrhs.2 u left rfl hterm⟩

theorem mem_ofForm_iff_begins (hg : g.Consistent) {form : Form}
    {x : Lookahead} : x ∈ g.firstSets.ofForm form ↔ g.Begins form x := by
  rw [mem_ofForm]
  constructor
  · exact (growing_and_fixed hg).1.begins_of_opens
  · intro hbegins
    cases x with
    | endOfInput => exact hbegins.elim
    | lambda => exact (opens_of_yields hg hbegins).1 rfl
    | symbol t =>
        obtain ⟨hterm, rest, hyields⟩ := hbegins
        exact (opens_of_yields hg hyields).2 t rest rfl hterm

end FirstSets

end FormalGrammars
